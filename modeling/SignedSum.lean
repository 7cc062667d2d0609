import SignedSum.Folder
import SignedSum.Main
import SignedSum.Proofs.OperatorRuns
import SignedSum.Proofs.Canonical
import SignedSum.Proofs.RunEnds
import SignedSum.Proofs.Lexemes
import SignedSum.Proofs.WellShaped
import SignedSum.Proofs.GappedSum
import SignedSum.Proofs.Grammatical
import SignedSum.Proofs.Reading
import SignedSum.Proofs.Substituted
import SignedSum.Proofs.CheckedReading
import SignedSum.Proofs.Simulation
import SignedSum.Proofs.LineValue
import SignedSum.Proofs.Assignment
import SignedSum.Proofs.SpacedText
import SignedSum.Proofs.SessionHistory
import SignedSum.Proofs.Replay
import SignedSum.Proofs.OrdinarySum
import SignedSum.Proofs.SeedTaken
import SignedSum.Proofs.OrdinarySigns
import SignedSum.Proofs.Footprint
import SignedSum.Proofs.IndependentLines
import SignedSum.Proofs.AppliedSigns
import SignedSum.Proofs.LineLog
import SignedSum.Proofs.EarliestFault
import SignedSum.Proofs.InputLines
import SignedSum.Proofs.Unseeded
import SignedSum.Proofs.Conversation
import SignedSum.Proofs.PlainReplies
import SignedSum.Proofs.InStep
import SignedSum.Proofs.JoinedLines
import SignedSum.Proofs.PaddedLines
import SignedSum.Proofs.RepeatedStatements
import SignedSum.Proofs.TableListing
import SignedSum.Proofs.LineEndings
import SignedSum.Proofs.SettledTokens
import SignedSum.Proofs.PostfixOrder
import SignedSum.Proofs.Literals
