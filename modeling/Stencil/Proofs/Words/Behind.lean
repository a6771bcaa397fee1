/-
What stands behind a text. A text that looks for no unit of a kind finds the same whether one stands behind or not,
and a token that ends in a text is the same with a unit behind that no token goes on with (`Lexeme.read_followed`).
Strings may go on with anything: they end where they end, whatever stands behind.
-/
import Stencil.Token.Lexeme

namespace Stencil

variable {b q : CodeUnit} {t x : Text}

/-! ## Texts -/

section

variable {p : CodeUnit → Bool}

theorem takeWhile_followed (hp : p b = false) (t x : Text) : (t ++ b :: x).takeWhile p = t.takeWhile p := by
  induction t with
  | nil => rw [List.nil_append, List.takeWhile_cons_of_neg (by rw [hp]; exact Bool.false_ne_true)]; rfl
  | cons c t ih =>
    rw [List.cons_append, List.takeWhile_cons, List.takeWhile_cons, ih]

theorem dropWhile_followed (hp : p b = false) (t x : Text) :
    (t ++ b :: x).dropWhile p = t.dropWhile p ++ b :: x := by
  induction t with
  | nil => rw [List.nil_append, List.dropWhile_cons_of_neg (by rw [hp]; exact Bool.false_ne_true)]; rfl
  | cons c t ih =>
    rw [List.cons_append, List.dropWhile_cons, List.dropWhile_cons, ih]
    split <;> rfl

end

namespace Text

/-- A text that does not look for the unit finds the same with the unit behind. -/
theorem after?_followed {lead : Text} (h : b ∉ lead) (t x : Text) :
    after? lead (t ++ b :: x) = (after? lead t).map (· ++ b :: x) := by
  induction lead generalizing t with
  | nil => rfl
  | cons a lead ih =>
    rw [List.mem_cons, not_or] at h
    cases t with
    | nil => exact if_neg (Ne.symm h.1)
    | cons c t =>
      rw [List.cons_append, after?, after?]
      by_cases hac : a = c
      · rw [if_pos hac, if_pos hac, ih h.2]
      · rw [if_neg hac, if_neg hac, Option.map_none]

/-- At its head a text that is there may have the unit to look for. -/
theorem after?_followed_of_ne_nil {lead : Text} (h : b ∉ lead.tail) (ht : t ≠ []) (x : Text) :
    after? lead (t ++ b :: x) = (after? lead t).map (· ++ b :: x) := by
  obtain ⟨c, t, rfl⟩ := List.exists_cons_of_ne_nil ht
  cases lead with
  | nil => rfl
  | cons a lead =>
    have hlead : b ∉ lead := h
    rw [List.cons_append, after?, after?]
    by_cases hac : a = c
    · rw [if_pos hac, if_pos hac, after?_followed hlead]
    · rw [if_neg hac, if_neg hac, Option.map_none]

theorem startsWith_followed {lead : Text} (h : b ∉ lead.tail) (ht : t ≠ []) (x : Text) :
    startsWith (t ++ b :: x) lead = startsWith t lead := by
  unfold startsWith
  rw [after?_followed_of_ne_nil h ht, Option.isSome_map]

theorem splitAtFirst_followed {mark u r : Text} (hmark : b ∉ mark) (h : splitAtFirst mark t = some (u, r)) (x : Text) :
    splitAtFirst mark (t ++ b :: x) = some (u, r ++ b :: x) := by
  induction t generalizing u with
  | nil =>
    simp only [splitAtFirst, Option.map_eq_some_iff, Prod.mk.injEq] at h
    -- at the end of the text only an empty mark is found
    obtain ⟨a, ha, rfl, rfl⟩ := h
    have hhere := after?_followed hmark [] x
    rw [ha] at hhere
    rw [List.nil_append, splitAtFirst]
    rw [List.nil_append] at hhere
    rw [hhere]
    rfl
  | cons c t ih =>
    have hhere := after?_followed hmark (c :: t) x
    rw [splitAtFirst] at h
    rw [List.cons_append, splitAtFirst, ← List.cons_append, hhere]
    cases ha : after? mark (c :: t) with
    | some r' =>
      rw [ha] at h
      cases h
      rfl
    | none =>
      rw [ha] at h
      simp only [Option.map_eq_some_iff, Prod.mk.injEq] at h
      obtain ⟨⟨u', r'⟩, hrest, rfl, rfl⟩ := h
      rw [Option.map_none]
      simp only [ih hrest]
      rfl

end Text

/-! ## Tokens -/

namespace Lexeme

variable {afterDot : Bool} {l : Lexeme}

theorem quotedRest_append_right {vw : Text × Text} (h : quotedRest q t = some vw) (y : Text) :
    quotedRest q (t ++ y) = some vw := by
  fun_induction quotedRest q t generalizing vw with
  | case1 => cases h
  | case2 t =>
    unfold quotedRest
    simp only [List.cons_append, if_true]
    exact h
  | case3 => cases h
  | case4 e t hq ih =>
    -- an escaped unit is passed over, whatever it is
    obtain ⟨vw', h', rfl⟩ := Option.map_eq_some_iff.1 h
    unfold quotedRest
    simp only [List.cons_append, if_neg hq, if_true, ih h']
    rfl
  | case5 c t hq hb ih =>
    obtain ⟨vw', h', rfl⟩ := Option.map_eq_some_iff.1 h
    unfold quotedRest
    simp only [List.cons_append, if_neg hq, if_neg hb, ih h']
    rfl

/-- The text of a string is read again where it stands alone. -/
theorem quotedRest_alone {v w : Text} (h : quotedRest q t = some (v, w)) : quotedRest q w = some (v, w) := by
  fun_induction quotedRest q t generalizing v w with
  | case1 => cases h
  | case2 t =>
    cases h
    unfold quotedRest
    exact if_pos rfl
  | case3 => cases h
  | case4 e t hq ih =>
    simp only [Option.map_eq_some_iff, Prod.mk.injEq] at h
    obtain ⟨⟨v', w'⟩, h', rfl, rfl⟩ := h
    unfold quotedRest
    simp only [if_neg hq, if_true, ih h']
    rfl
  | case5 c t hq hb ih =>
    simp only [Option.map_eq_some_iff, Prod.mk.injEq] at h
    obtain ⟨⟨v', w'⟩, h', rfl, rfl⟩ := h
    unfold quotedRest
    simp only [if_neg hq, if_neg hb, ih h']
    rfl

/-- A unit that no number, word or symbol goes on with. -/
structure Apart (b : CodeUnit) : Prop where
  digit : Text.isDigit b = false
  namePart : Text.isNamePart b = false
  dot : decide (b = Text.unit '.') = false
  symbol : ∀ s : Symbol, b ∉ s.text.tail

theorem apart_openBrace : Apart (Text.unit '\x7b') where
  digit := by decide
  namePart := by decide
  dot := by decide
  symbol s := by cases s <;> decide

theorem apart_closeBrace : Apart (Text.unit '\x7d') where
  digit := by decide
  namePart := by decide
  dot := by decide
  symbol s := by cases s <;> decide

theorem number_followed (hb : Apart b) (afterDot : Bool) (c : CodeUnit) (t x : Text) :
    number afterDot c (t ++ b :: x) = number afterDot c t := by
  unfold number
  simp only [takeWhile_followed hb.digit, dropWhile_followed hb.digit]
  rcases t.dropWhile Text.isDigit with _ | ⟨p, _ | ⟨d, r⟩⟩
  · -- the unit is no dot
    cases x <;> simp only [List.nil_append, hb.dot, Bool.and_false, Bool.false_and, Bool.false_eq_true, if_false]
  · -- nor is it a digit behind a dot
    simp only [List.cons_append, List.nil_append, hb.digit, Bool.and_false, Bool.false_eq_true, if_false]
  · simp only [List.cons_append, takeWhile_followed hb.digit]

theorem word_followed (hb : Apart b) (c : CodeUnit) (t x : Text) : word c (t ++ b :: x) = word c t := by
  unfold word
  simp only [takeWhile_followed hb.namePart]

theorem leading?_followed (hb : Apart b) (ht : t ≠ []) (x : Text) :
    Symbol.leading? (t ++ b :: x) = Symbol.leading? t := by
  unfold Symbol.leading?
  simp only [Text.startsWith_followed (hb.symbol _) ht]

/-- Only a string may be another token with more behind. -/
theorem read_followed_eq (hb : Apart b) {c : CodeUnit} (hc : ¬(c = Text.doubleQuote || c = Text.singleQuote) = true)
    (t x : Text) : read afterDot (c :: t ++ b :: x) = read afterDot (c :: t) := by
  rw [List.cons_append, read, read, if_neg hc, if_neg hc, number_followed hb, word_followed hb, ← List.cons_append,
    leading?_followed hb (List.cons_ne_nil c t)]

theorem read_followed (hb : Apart b) (h : read afterDot t = .ok l) (x : Text) :
    read afterDot (t ++ b :: x) = .ok l := by
  cases t with
  | nil => cases h
  | cons c t =>
    by_cases hc : (c = Text.doubleQuote || c = Text.singleQuote) = true
    · rw [read, if_pos hc] at h
      rw [List.cons_append, read, if_pos hc]
      cases hq : quotedRest c t with
      | none => rw [hq] at h; cases h
      | some vw =>
        rw [hq] at h
        simp only [quotedRest_append_right hq]
        exact h
    · rw [read_followed_eq hb hc, h]

/-- A token that is read with more behind but ends in the text is read without it. -/
theorem read_of_followed (hb : Apart b) (ht : t ≠ []) (h : read afterDot (t ++ b :: x) = .ok l)
    (hl : l.written.length ≤ t.length) : read afterDot t = .ok l := by
  obtain ⟨c, t, rfl⟩ := List.exists_cons_of_ne_nil ht
  by_cases hc : (c = Text.doubleQuote || c = Text.singleQuote) = true
  · rw [List.cons_append, read, if_pos hc] at h
    cases hq : quotedRest c (t ++ b :: x) with
    | none => rw [hq] at h; cases h
    | some vw =>
      obtain ⟨v, w⟩ := vw
      rw [hq] at h
      cases h
      obtain ⟨rest, hrest⟩ := quotedRest_append hq
      have hw : w <+: t :=
        List.prefix_of_prefix_length_le ⟨rest, hrest.symm⟩ (List.prefix_append t _) (Nat.le_of_succ_le_succ hl)
      obtain ⟨u, rfl⟩ := hw
      rw [read, if_pos hc]
      simp only [quotedRest_append_right (quotedRest_alone hq)]
  · rwa [read_followed_eq hb hc] at h

end Lexeme

end Stencil
