/-
Quoted texts. Whatever units a text has, lone halves of surrogate pairs included, its quoted form reads as the text
(`readString_escape`).
-/
import Mathlib.Tactic.SplitIfs
import Stencil.Json.Reader
import Stencil.Json.Writer

namespace Stencil

open Text

/-! ## Hexadecimal digits -/

namespace Text

theorem digitUnit_hex : ∀ d < 16, digitValue? (digitUnit d) = some d := by decide

/-- Four hexadecimal digits write the unit. -/
theorem value?_hex4 (c : CodeUnit) : value? 16 (hex4 c) = some c.toNat := by
  have hc : c.toNat < 65536 := c.toNat_lt
  have hdigits : ∀ d ∈ [c.toNat / 4096, c.toNat / 256 % 16, c.toNat / 16 % 16, c.toNat % 16], d < 16 := by
    intro d hd
    simp only [List.mem_cons, List.not_mem_nil, or_false] at hd
    omega
  have hall : (hex4 c).all (isDigitOf 16) = true := by
    rw [hex4, List.all_map, List.all_eq_true]
    intro d hd
    have hlt := hdigits d hd
    rw [Function.comp_apply, isDigitOf, digitUnit_hex d hlt, Option.any_some, decide_eq_true hlt]
  rw [value?, if_pos ⟨List.cons_ne_nil _ _, hall⟩]
  simp only [List.forall_mem_cons] at hdigits
  obtain ⟨h₁, h₂, h₃, h₄, -⟩ := hdigits
  simp only [value, hex4, List.map_cons, List.map_nil, List.foldl_cons, List.foldl_nil, digitUnit_hex _ h₁,
    digitUnit_hex _ h₂, digitUnit_hex _ h₃, digitUnit_hex _ h₄, Option.getD_some]
  rw [Option.some_inj]
  omega

theorem plain_of_half {c : CodeUnit} (h : isHighHalf c = true ∨ isLowHalf c = true) :
    c ≠ doubleQuote ∧ ¬c < 32 ∧ c ≠ backslash := by
  have hc : 0xD800 ≤ c.toNat := by
    simp only [isHighHalf, isLowHalf, Bool.and_eq_true, decide_eq_true_eq, UInt16.le_iff_toNat_le] at h
    exact h.elim And.left fun h => Nat.le_trans (by decide) h.1
  refine ⟨?_, fun hlt => ?_, ?_⟩
  · rintro rfl
    exact absurd hc (by decide)
  · rw [UInt16.lt_iff_toNat_lt] at hlt
    exact absurd (Nat.lt_of_le_of_lt hc hlt) (by decide)
  · rintro rfl
    exact absurd hc (by decide)

end Text

namespace Json

/-! ## Units inside quotes -/

/-- A unit before what a string goes on with. -/
def prepend (c : CodeUnit) (r : Option (Text × Text)) : Option (Text × Text) := r.map fun (s, u) => (c :: s, u)

theorem readString_quote (rest : Text) : readString (doubleQuote :: rest) = some ([], rest) := by
  rw [readString.eq_def]
  exact if_pos rfl

theorem readString_plain {c : CodeUnit} (h : c ≠ doubleQuote ∧ ¬c < 32 ∧ c ≠ backslash) (rest : Text) :
    readString (c :: rest) = prepend c (readString rest) := by
  rw [readString.eq_def]
  simp only [if_neg h.1, if_neg h.2.1, if_neg h.2.2]
  rfl

theorem readString_escaped {e c : CodeUnit} (hu : e ≠ unit 'u') (he : readEscape e = some c) (rest : Text) :
    readString (backslash :: e :: rest) = prepend c (readString rest) := by
  have hquote : backslash ≠ doubleQuote := by decide
  have hcontrol : ¬backslash < 32 := by decide
  rw [readString.eq_def]
  simp only [if_neg hquote, if_neg hcontrol, if_true, if_neg hu, he]
  rfl

theorem readString_hex4 (c : CodeUnit) (rest : Text) :
    readString (backslash :: unit 'u' :: (hex4 c ++ rest)) = prepend c (readString rest) := by
  have hquote : backslash ≠ doubleQuote := by decide
  have hcontrol : ¬backslash < 32 := by decide
  have hvalue := value?_hex4 c
  unfold hex4 at hvalue ⊢
  simp only [List.map_cons, List.map_nil] at hvalue ⊢
  rw [readString.eq_def]
  simp only [if_neg hquote, if_neg hcontrol, if_true, List.cons_append, List.nil_append, hvalue]
  have hunit : c.toNat.toUInt16 = c := UInt16.ofNat_toNat
  rw [hunit]
  rfl

theorem readString_escapeUnit (alone : Bool) (c : CodeUnit) (rest : Text) :
    readString (escapeUnit alone c ++ rest) = prepend c (readString rest) := by
  unfold escapeUnit
  split_ifs with hquote hbackslash h8 h9 h10 h12 h13 hother
  · subst hquote
    exact readString_escaped (by decide) (by decide) rest
  · subst hbackslash
    exact readString_escaped (by decide) (by decide) rest
  · subst h8
    exact readString_escaped (by decide) (by decide) rest
  · subst h9
    exact readString_escaped (by decide) (by decide) rest
  · subst h10
    exact readString_escaped (by decide) (by decide) rest
  · subst h12
    exact readString_escaped (by decide) (by decide) rest
  · subst h13
    exact readString_escaped (by decide) (by decide) rest
  · exact readString_hex4 c rest
  · rw [Bool.or_eq_true, not_or, decide_eq_true_eq] at hother
    exact readString_plain ⟨hquote, hother.1, hbackslash⟩ rest

/-- The quoted form of a text reads as the text. -/
theorem readString_escape (t rest : Text) : readString (escape t ++ doubleQuote :: rest) = some (t, rest) := by
  induction t using escape.induct with
  | case1 => rw [escape, List.nil_append, readString_quote]
  | case2 c =>
    rw [escape, readString_escapeUnit, readString_quote]
    rfl
  | case3 c d r hpair ih =>
    rw [Bool.and_eq_true] at hpair
    rw [escape, if_pos (by rw [Bool.and_eq_true]; exact hpair), List.cons_append, List.cons_append,
      readString_plain (plain_of_half (.inl hpair.1)), readString_plain (plain_of_half (.inr hpair.2)), ih]
    rfl
  | case4 c d r hpair ih =>
    rw [escape, if_neg hpair, List.append_assoc, readString_escapeUnit, ih]
    rfl

end Json
end Stencil
