/-
# What postfix order is

Postfix order keeps the signs in their order and everything else in its order, and only moves the
signs behind the others: each sign to where the next one stands, and the last one to the end.  This
holds of any tokens, whether they make a sum or not.

* `arrange_append`: in front of a sign the order is that of the tokens in front of it, so that by
  then the sign that was held back is out.
* `exists_arrange_eq_concat`: tokens with a sign among them end in a sign when they are in order,
  and all the others stand in front of it.
* `signs_fall_behind`: by these two, where the sign with any number stands, and how operands and
  signs that alternate are put in order.
-/
import Mathlib.Tactic.WLOG
import SignedSum.Postfix

namespace SignedSum

/-- Two elements with a property stand at the same place of a list if equally many elements in
front of them have it. -/
theorem eq_of_append_cons_eq {α : Type} {p : α → Bool} {a b c d : List α} {x y : α}
    (h : a ++ x :: b = c ++ y :: d) (hx : p x = true) (hy : p y = true)
    (hcount : (a.filter p).length = (c.filter p).length) : a = c := by
  wlog hle : a <+: c generalizing a b c d x y
  · have hprefix : c <+: a ++ x :: b := h ▸ List.prefix_append c (y :: d)
    have hge := (List.prefix_or_prefix_of_prefix (List.prefix_append a _) hprefix).resolve_left hle
    exact (this h.symm hy hx hcount.symm hge).symm
  obtain ⟨e, rfl⟩ := hle
  rw [List.append_assoc] at h
  cases e with
  | nil => exact (List.append_nil a).symm
  | cons z e =>
    -- the first element would be counted in front of the second one
    obtain ⟨rfl, -⟩ := List.cons.inj (List.append_cancel_left h)
    rw [List.filter_append, List.filter_cons_of_pos hx, List.length_append,
      List.length_cons] at hcount
    omega

namespace Postfix

variable {held : Option Token} {t s next : Token} {ts front rest before after tail : List Token}

/-! ## Signs and others -/

/-- The signs among some tokens. -/
def signs (ts : List Token) : List Token := ts.filter (·.kind.isSign)

/-- The tokens that are no signs. -/
def others (ts : List Token) : List Token := ts.filter (!·.kind.isSign)

@[simp] theorem signs_nil : signs [] = [] := rfl

@[simp] theorem others_nil : others [] = [] := rfl

@[simp] theorem signs_append : signs (ts ++ rest) = signs ts ++ signs rest := List.filter_append ..

@[simp] theorem others_append : others (ts ++ rest) = others ts ++ others rest :=
  List.filter_append ..

theorem signs_cons_sign (h : t.kind.isSign = true) : signs (t :: ts) = t :: signs ts :=
  List.filter_cons_of_pos h

theorem signs_cons_other (h : t.kind.isSign = false) : signs (t :: ts) = signs ts :=
  List.filter_cons_of_neg (by simp [h])

theorem others_cons_sign (h : t.kind.isSign = true) : others (t :: ts) = others ts :=
  List.filter_cons_of_neg (by simp [h])

theorem others_cons_other (h : t.kind.isSign = false) : others (t :: ts) = t :: others ts :=
  List.filter_cons_of_pos (by simp [h])

theorem others_toList (h : ∀ s ∈ held, s.kind.isSign = true) : others held.toList = [] :=
  List.filter_eq_nil_iff.2 fun s hs => by simp [h s (Option.mem_toList.1 hs)]

/-- The signs keep their order. -/
theorem signs_arrange (held : Option Token) (ts : List Token) :
    signs (arrange held ts) = signs held.toList ++ signs ts := by
  induction ts generalizing held with
  | nil => rw [arrange_nil, signs_nil, List.append_nil]
  | cons t ts ih =>
    cases ht : t.kind.isSign with
    | true =>
      have hcons : signs (t :: ts) = signs [t] ++ signs ts := by
        rw [← signs_append, List.singleton_append]
      rw [arrange_sign ht, signs_append, ih, hcons]
      rfl
    | false => rw [arrange_other ht, signs_cons_other ht, ih, signs_cons_other ht]

/-- What is held back is a sign, so the others keep their order. -/
theorem others_arrange (hheld : ∀ s ∈ held, s.kind.isSign = true) (ts : List Token) :
    others (arrange held ts) = others ts := by
  induction ts generalizing held with
  | nil => rw [arrange_nil, others_toList hheld, others_nil]
  | cons t ts ih =>
    cases ht : t.kind.isSign with
    | true =>
      have hnext : ∀ s ∈ some t, s.kind.isSign = true := by simpa using ht
      rw [arrange_sign ht, others_append, others_toList hheld, List.nil_append, ih hnext,
        others_cons_sign ht]
    | false => rw [arrange_other ht, others_cons_other ht, ih hheld, others_cons_other ht]

/-- Tokens are made up of their signs and the others. -/
theorem perm_of_signs_of_others (hsigns : signs ts = signs rest)
    (hothers : others ts = others rest) : ts.Perm rest := by
  have hts : (signs ts ++ others ts).Perm ts := List.filter_append_perm _ ts
  have hrest : (signs rest ++ others rest).Perm rest := List.filter_append_perm _ rest
  rw [← hsigns, ← hothers] at hrest
  exact hts.symm.trans hrest

/-! ## Where a sign stands -/

/-- In front of a sign the order is that of the tokens in front of it. -/
theorem arrange_append (hnext : next.kind.isSign = true) :
    arrange held (front ++ next :: rest) = arrange held front ++ arrange (some next) rest := by
  induction front generalizing held with
  | nil => rw [List.nil_append, arrange_sign hnext, arrange_nil]
  | cons t front ih =>
    cases ht : t.kind.isSign with
    | true => rw [List.cons_append, arrange_sign ht, arrange_sign ht, ih, List.append_assoc]
    | false => rw [List.cons_append, arrange_other ht, arrange_other ht, ih, List.cons_append]

/-- The last sign goes out behind all the others. -/
theorem exists_arrange_eq_concat (hheld : ∀ s ∈ held, s.kind.isSign = true)
    (h : held.toList ++ signs ts ≠ []) :
    ∃ init last, arrange held ts = init ++ [last] ∧ last.kind.isSign = true ∧
      others init = others ts := by
  induction ts generalizing held with
  | nil =>
    cases held with
    | none => exact absurd rfl h
    | some s => exact ⟨[], s, rfl, hheld s rfl, rfl⟩
  | cons t ts ih =>
    cases ht : t.kind.isSign with
    | true =>
      have hnext : ∀ s ∈ some t, s.kind.isSign = true := by simpa using ht
      obtain ⟨init, last, harrange, hlast, hinit⟩ := ih hnext (List.cons_ne_nil _ _)
      refine ⟨held.toList ++ init, last, ?_, hlast, ?_⟩
      · rw [arrange_sign ht, harrange, List.append_assoc]
      · rw [others_append, others_toList hheld, hinit, others_cons_sign ht, List.nil_append]
    | false =>
      rw [signs_cons_other ht] at h
      obtain ⟨init, last, harrange, hlast, hinit⟩ := ih hheld h
      refine ⟨t :: init, last, ?_, hlast, ?_⟩
      · rw [arrange_other ht, harrange, List.cons_append]
      · rw [others_cons_other ht, hinit, others_cons_other ht]

/-- **A sign stands behind the others of the beginning in which it is the last sign.** -/
theorem others_before (h : arrange none front ++ tail = before ++ s :: after)
    (hs : s.kind.isSign = true) (hcount : (signs front).length = (signs before).length + 1) :
    others before = others front := by
  have hfront : signs front ≠ [] := by
    intro hnil
    rw [hnil, List.length_nil] at hcount
    omega
  have hheld : ∀ s ∈ (none : Option Token), s.kind.isSign = true := by simp
  obtain ⟨init, last, harrange, hlast, hinit⟩ := exists_arrange_eq_concat hheld hfront
  have hsigns : (signs init).length + 1 = (signs front).length := by
    have hsame : signs (arrange none front) = signs front := signs_arrange none front
    rw [← hsame, harrange, signs_append, signs_cons_sign hlast, List.length_append]
    rfl
  rw [harrange, List.append_assoc, List.singleton_append] at h
  have hplace : init = before := eq_of_append_cons_eq (p := (·.kind.isSign)) h hlast hs (by
    show (signs init).length = (signs before).length
    omega)
  rw [← hplace, hinit]

/-! ## Operands and signs that alternate -/

/-- A first token, and behind it signs and tokens in turn, given as pairs. -/
def alternating (first : Token) (links : List (Token × Token)) : List Token :=
  first :: links.flatMap fun l => [l.1, l.2]

/-- The same with every sign behind its token. -/
def turned (first : Token) (links : List (Token × Token)) : List Token :=
  first :: links.flatMap fun l => [l.2, l.1]

theorem arrange_some_alternating {links : List (Token × Token)} (hs : s.kind.isSign = true)
    (ht : t.kind.isSign = false)
    (h : ∀ l ∈ links, l.1.kind.isSign = true ∧ l.2.kind.isSign = false) :
    arrange (some s) (alternating t links) = t :: turned s links := by
  induction links generalizing s t with
  | nil => exact arrange_other ht
  | cons l links ih =>
    obtain ⟨⟨hsign, hother⟩, hlinks⟩ := List.forall_mem_cons.1 h
    have hcons : alternating t (l :: links) = t :: l.1 :: alternating l.2 links := rfl
    rw [hcons, arrange_other ht, arrange_sign hsign, ih hsign hother hlinks]
    rfl

theorem arrange_alternating {links : List (Token × Token)} (ht : t.kind.isSign = false)
    (h : ∀ l ∈ links, l.1.kind.isSign = true ∧ l.2.kind.isSign = false) :
    arrange none (alternating t links) = turned t links := by
  cases links with
  | nil => exact arrange_other ht
  | cons l links =>
    obtain ⟨⟨hsign, hother⟩, hlinks⟩ := List.forall_mem_cons.1 h
    have hcons : alternating t (l :: links) = t :: l.1 :: alternating l.2 links := rfl
    rw [hcons, arrange_other ht, arrange_sign hsign, arrange_some_alternating hsign hother hlinks]
    rfl

/-! ## The order -/

theorem ofTokens_eq_error_iff : ofTokens ts = .error .empty ↔ ts = [] := by
  cases ts with
  | nil => exact ⟨fun _ => rfl, fun _ => rfl⟩
  | cons t ts =>
    rw [ofTokens_of_ne_nil (List.cons_ne_nil t ts)]
    exact ⟨nofun, nofun⟩

/-- **In postfix order each sign falls behind the others in front of the next sign.**

Only the empty list cannot be put in order.  The order of any other list consists of the same
tokens, with the signs and the others each in the order in which they were.  A sign stands behind
exactly those others that were in front of the next sign, and the last sign stands behind all of
them.  So if operands and signs alternate, each sign changes places with the operand behind it. -/
theorem signs_fall_behind (ts : List Token) :
    (ofTokens ts = .error .empty ↔ ts = []) ∧
    (ts ≠ [] → ∃ out, ofTokens ts = .ok out ∧
      out.Perm ts ∧ signs out = signs ts ∧ others out = others ts ∧
      ∀ before s after, out = before ++ s :: after → s.kind.isSign = true →
        (∀ front next rest, ts = front ++ next :: rest → next.kind.isSign = true →
          (signs front).length = (signs before).length + 1 → others before = others front) ∧
        ((signs ts).length = (signs before).length + 1 → others before = others ts)) ∧
    ∀ first links, first.kind.isSign = false →
      (∀ l ∈ links, l.1.kind.isSign = true ∧ l.2.kind.isSign = false) →
        ofTokens (alternating first links) = .ok (turned first links) := by
  refine ⟨ofTokens_eq_error_iff, fun hne => ?_, fun first links hfirst hlinks => ?_⟩
  · have hsigns : signs (arrange none ts) = signs ts := signs_arrange none ts
    have hothers : others (arrange none ts) = others ts := others_arrange (by simp) ts
    refine ⟨arrange none ts, ofTokens_of_ne_nil hne, perm_of_signs_of_others hsigns hothers, hsigns,
      hothers, fun before s after hout hs => ⟨?_, fun hcount => ?_⟩⟩
    · rintro front next rest rfl hnext hcount
      rw [arrange_append hnext] at hout
      exact others_before hout hs hcount
    · -- behind the last sign nothing goes out
      have hlast : arrange none ts ++ [] = before ++ s :: after := by rw [List.append_nil, hout]
      exact others_before hlast hs hcount
  · have hne : alternating first links ≠ [] := List.cons_ne_nil _ _
    rw [ofTokens_of_ne_nil hne, arrange_alternating hfirst hlinks]

/-- Tokens that make no sum, with a sign at the start and two signs side by side, and a sum of three
operands. -/
theorem signs_fall_behind_of_two_lists :
    let token (k : Kind) (text : String) : Token := ⟨k, text⟩
    let minus := token (.sign .minus) "-"
    let plus := token (.sign .plus) "+"
    let other := token (.sign .plus) "++"
    let x := token .name "x"
    let five := token .numeral "5"
    let equals := token .equals "="
    let ts := [minus, x, five, plus, other, equals]
    (∃ out, ofTokens ts = .ok out ∧ out = [x, five, minus, plus, equals, other] ∧ out.Perm ts ∧
      others [x, five] = others [minus, x, five] ∧
      others [x, five, minus] = others [minus, x, five, plus] ∧
      others [x, five, minus, plus, equals] = others ts) ∧
    ofTokens (alternating x [(minus, five), (plus, x)]) = .ok [x, five, minus, x, plus] := by
  intro token minus plus other x five equals ts
  obtain ⟨-, hok, -⟩ := signs_fall_behind ts
  obtain ⟨-, -, hturned⟩ := signs_fall_behind [x, minus, five, plus, x]
  obtain ⟨out, hout, hperm, -, -, hplace⟩ := hok (by decide)
  obtain rfl : out = [x, five, minus, plus, equals, other] := Except.ok.inj (hout.symm.trans rfl)
  obtain ⟨hfirst, -⟩ := hplace [x, five] minus [plus, equals, other] rfl rfl
  obtain ⟨hsecond, -⟩ := hplace [x, five, minus] plus [equals, other] rfl rfl
  obtain ⟨-, hlast⟩ := hplace [x, five, minus, plus, equals] other [] rfl rfl
  exact ⟨⟨_, hout, rfl, hperm, hfirst [minus, x, five] plus _ rfl rfl rfl,
    hsecond [minus, x, five, plus] other _ rfl rfl rfl, hlast rfl⟩,
    hturned x [(minus, five), (plus, x)] rfl (by decide)⟩

end Postfix
end SignedSum
