/-
Digits and numerals. A run of digits is trimmed, split and read as one would expect; the numeral of a natural number is
such a run, it begins with zero only if it is zero, and its value is the number (`value_ofNat`).
-/
import Mathlib.Algebra.Group.Nat.Defs
import Stencil.Number.Literal

namespace Stencil.Text

/-! ## Digits -/

theorem toNat_of_isDigit {c : CodeUnit} (h : isDigit c = true) : 48 ≤ c.toNat ∧ c.toNat ≤ 57 := by
  simp only [isDigit, Bool.and_eq_true, decide_eq_true_eq, UInt16.le_iff_toNat_le] at h
  exact h

theorem isBlank_of_isDigit {c : CodeUnit} (h : isDigit c = true) : isBlank c = false := by
  have hc := toNat_of_isDigit h
  simp [isBlank, blankRanges, UInt16.le_iff_toNat_le]
  omega

/-- Nothing is trimmed where nothing is blank. -/
theorem trim_eq {t : Text} (h : ∀ c ∈ t, isBlank c = false) : trim t = t := by
  have hkeep (u : Text) (hu : ∀ c ∈ u, isBlank c = false) : u.dropWhile isBlank = u := by
    cases u with
    | nil => rfl
    | cons c u => rw [List.dropWhile_cons_of_neg (by rw [hu c (List.mem_cons_self ..)]; exact Bool.false_ne_true)]
  unfold trim
  rw [hkeep t h, hkeep t.reverse fun c hc => h c (List.mem_reverse.1 hc), List.reverse_reverse]

theorem trim_digits {t : Text} (h : t.all isDigit = true) : trim t = t :=
  trim_eq fun c hc => isBlank_of_isDigit (List.all_eq_true.1 h c hc)

theorem takeSign_digits {c : CodeUnit} {t : Text} (h : isDigit c = true) :
    takeSign (c :: t) = (false, c :: t) := by
  have hc := toNat_of_isDigit h
  have hminus : c ≠ unit '-' := by rintro rfl; exact absurd hc (by decide)
  have hplus : c ≠ unit '+' := by rintro rfl; exact absurd hc (by decide)
  rw [takeSign, if_neg hminus, if_neg hplus]

/-- A digit is no letter for a base. -/
theorem lowerUnit_of_isDigit {c : CodeUnit} (h : isDigit c = true) :
    lowerUnit c ∉ [unit 'x', unit 'o', unit 'b'] := by
  have hc := toNat_of_isDigit h
  have hcapital : (decide (unit 'A' ≤ c) && decide (c ≤ unit 'Z')) = false := by
    have hA : (unit 'A').toNat = 65 := by decide
    rw [decide_eq_false (by rw [UInt16.le_iff_toNat_le]; omega), Bool.false_and]
  rw [lowerUnit, hcapital, if_neg Bool.false_ne_true]
  simp only [List.mem_cons, List.not_mem_nil, or_false]
  rintro (rfl | rfl | rfl) <;> exact absurd hc (by decide)

theorem isDigitOf_ten {c : CodeUnit} (h : isDigit c = true) : isDigitOf 10 c = true := by
  have hc := toNat_of_isDigit h
  have hlt : c.toNat - 48 < 10 := by omega
  unfold isDigitOf digitValue?
  rw [if_pos h, Option.any_some, decide_eq_true hlt]

/-- A run of digits writes an integer. -/
theorem integer?_digits {c : CodeUnit} {t : Text} (h : (c :: t).all isDigit = true) :
    (integer? (c :: t)).isSome := by
  unfold integer?
  simp only [trim_digits h]
  rw [if_neg (List.cons_ne_nil c t)]
  split
  · rfl
  · have hall : (c :: t).all (isDigitOf 10) = true := by
      rw [List.all_eq_true] at h ⊢
      exact fun d hd => isDigitOf_ten (h d hd)
    rw [List.all_cons, Bool.and_eq_true] at h
    rw [takeSign_digits h.1]
    simp only [Option.isSome_map]
    rw [value?, if_pos ⟨List.cons_ne_nil c t, hall⟩]
    rfl

/-- The text does not go on with a digit. -/
def EndsDigits (t : Text) : Prop := ∀ c ∈ t.head?, isDigit c = false

theorem takeWhile_digits {ds rest : Text} (hds : ∀ c ∈ ds, isDigit c = true) (hrest : EndsDigits rest) :
    (ds ++ rest).takeWhile isDigit = ds ∧ (ds ++ rest).dropWhile isDigit = rest := by
  rw [List.takeWhile_append_of_pos hds, List.dropWhile_append_of_pos hds]
  cases rest with
  | nil => exact ⟨List.append_nil ds, rfl⟩
  | cons c rest =>
    have hc : ¬isDigit c = true := by rw [hrest c rfl]; exact Bool.false_ne_true
    rw [List.takeWhile_cons_of_neg hc, List.dropWhile_cons_of_neg hc]
    exact ⟨List.append_nil ds, rfl⟩

/-! ## Values -/

theorem value_snoc (base : Nat) (t : Text) (c : CodeUnit) :
    value base (t ++ [c]) = value base t * base + (digitValue? c).getD 0 := by
  rw [value, List.foldl_append]
  rfl

theorem value_zeros (k : Nat) : value 10 (List.replicate k (unit '0')) = 0 := by
  induction k with
  | zero => rfl
  | succ k ih =>
    rw [List.replicate_succ', value_snoc, ih]
    rfl

theorem value_append_zeros (t : Text) (k : Nat) :
    value 10 (t ++ List.replicate k (unit '0')) = value 10 t * 10 ^ k := by
  induction k with
  | zero => rw [List.replicate_zero, List.append_nil, pow_zero, Nat.mul_one]
  | succ k ih =>
    rw [List.replicate_succ', ← List.append_assoc, value_snoc, ih, pow_succ, Nat.mul_assoc]
    rfl

theorem value_zeros_append (k : Nat) (t : Text) : value 10 (List.replicate k (unit '0') ++ t) = value 10 t := by
  have hzeros := value_zeros k
  unfold value at hzeros ⊢
  rw [List.foldl_append, hzeros]

/-! ## Numerals of natural numbers -/

theorem digitUnit_of_lt : ∀ d < 10, isDigit (digitUnit d) = true ∧ digitValue? (digitUnit d) = some d := by decide

theorem ofNat_of_lt {n : Nat} (h : n < 10) : ofNat n = [digitUnit n] := by
  unfold ofNat
  split
  · subst n
    rfl
  · have hquotient : n / 10 = 0 := Nat.div_eq_of_lt h
    rw [digitsReversed, dif_neg ‹_›, hquotient, digitsReversed, dif_pos rfl, Nat.mod_eq_of_lt h]
    rfl

theorem ofNat_of_le {n : Nat} (h : 10 ≤ n) : ofNat n = ofNat (n / 10) ++ [digitUnit (n % 10)] := by
  have hquotient : n / 10 ≠ 0 := by omega
  rw [ofNat, if_neg (by omega), digitsReversed, dif_neg (by omega), ofNat, if_neg hquotient]
  simp

/-- The numeral of a number is the one that Lean's strings have for it. -/
theorem ofNat_eq_ofString (n : Nat) : ofNat n = ofString n.repr := by
  have hdigit : ∀ d < 10, ofCodePoint d.digitChar.toNat = [digitUnit d] := by decide
  unfold ofString
  rw [Nat.toList_repr]
  induction n using Nat.strongRecOn with
  | ind n ih =>
    rcases Nat.lt_or_ge n 10 with h | h
    · rw [ofNat_of_lt h, Nat.toDigits_of_lt_base h, List.flatMap_singleton, hdigit n h]
    · rw [ofNat_of_le h, Nat.toDigits_of_base_le (by decide) h, List.flatMap_append, List.flatMap_singleton,
        hdigit _ (Nat.mod_lt n (by decide)), ih (n / 10) (by omega)]

theorem ofNat_digits (n : Nat) : ∀ c ∈ ofNat n, isDigit c = true := by
  induction n using Nat.strongRecOn with
  | ind n ih =>
    rcases Nat.lt_or_ge n 10 with h | h
    · rw [ofNat_of_lt h]
      exact List.forall_mem_singleton.2 (digitUnit_of_lt n h).1
    · rw [ofNat_of_le h]
      refine List.forall_mem_append.2 ⟨ih _ (by omega), List.forall_mem_singleton.2 ?_⟩
      exact (digitUnit_of_lt _ (Nat.mod_lt n (by decide))).1

/-- The numeral of a number writes the number. -/
theorem value_ofNat (n : Nat) : value 10 (ofNat n) = n := by
  induction n using Nat.strongRecOn with
  | ind n ih =>
    rcases Nat.lt_or_ge n 10 with h | h
    · rw [ofNat_of_lt h, ← List.nil_append [digitUnit n], value_snoc, (digitUnit_of_lt n h).2]
      exact (Nat.zero_add n)
    · rw [ofNat_of_le h, value_snoc, ih _ (by omega), (digitUnit_of_lt _ (Nat.mod_lt n (by decide))).2]
      exact Nat.div_add_mod' n 10

theorem ofNat_ne_nil (n : Nat) : ofNat n ≠ [] := by
  rcases Nat.lt_or_ge n 10 with h | h
  · rw [ofNat_of_lt h]
    exact List.cons_ne_nil _ _
  · rw [ofNat_of_le h]
    exact List.append_ne_nil_of_right_ne_nil _ (List.cons_ne_nil _ _)

/-- Only the numeral of zero begins with a zero. -/
theorem ofNat_head {n : Nat} (hn : n ≠ 0) : (ofNat n).head? ≠ some (unit '0') := by
  induction n using Nat.strongRecOn with
  | ind n ih =>
    rcases Nat.lt_or_ge n 10 with h | h
    · rw [ofNat_of_lt h]
      have hdigits : ∀ d < 10, d ≠ 0 → [digitUnit d].head? ≠ some (unit '0') := by decide
      exact hdigits n h hn
    · have hhead := ih (n / 10) (by omega) (by omega)
      obtain ⟨c, t, hnumeral⟩ := List.exists_cons_of_ne_nil (ofNat_ne_nil (n / 10))
      rw [hnumeral] at hhead
      rw [ofNat_of_le h, hnumeral]
      exact hhead

end Stencil.Text
