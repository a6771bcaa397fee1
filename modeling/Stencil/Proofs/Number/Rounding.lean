/-
Rounding, as a function of the ratio alone. `Double.ofRat` says of a rational number which number of binary floating
point is nearest to it; `round` and `ofDecimal` compute it from numerators, denominators and powers of ten
(`round_eq`, `ofDecimal_eq`), and the numbers in normal form are the ones that it does not change (`ofRat_canonical`).
-/
import Mathlib.Algebra.Order.Field.Power
import Mathlib.Algebra.Order.Floor.Semifield
import Mathlib.Data.Int.Log
import Mathlib.Data.Rat.Floor
import Mathlib.Tactic.FieldSimp
import Mathlib.Tactic.Linarith
import Mathlib.Tactic.NormNum
import Mathlib.Tactic.Positivity
import Mathlib.Tactic.Ring
import Stencil.Number.Double

namespace Stencil.Double

/-! ## The number nearest to a ratio -/

/-- The natural number nearest to a ratio, a tie to the even one. -/
def nearestEven (q : ℚ) : Nat :=
  if q - ⌊q⌋₊ < 1 / 2 then ⌊q⌋₊
  else if 1 / 2 < q - ⌊q⌋₊ then ⌊q⌋₊ + 1
  else if ⌊q⌋₊ % 2 = 0 then ⌊q⌋₊ else ⌊q⌋₊ + 1

/-- The mantissa with its exponent as a number: one that has grown to 54 bits moves on to the next exponent, and an
exponent that is too great becomes infinite. -/
def ofParts (negative : Bool) (m : Nat) (e : Int) : Double :=
  let (m, e) := if m = Nat.pow 2 53 then (Nat.pow 2 52, e + 1) else (m, e)
  if greatestExponent < e then .infinite negative else .finite negative m e

theorem ofParts_eq_finite {negative negative' : Bool} {m m' : Nat} {e e' : Int}
    (h : ofParts negative m e = .finite negative' m' e') : e' ≤ greatestExponent ∧
      (m = 2 ^ 53 ∧ m' = 2 ^ 52 ∧ e' = e + 1 ∨ m ≠ 2 ^ 53 ∧ m' = m ∧ e' = e) := by
  have finite {m : Nat} {e : Int} (h : (if greatestExponent < e then .infinite negative else .finite negative m e) =
      Double.finite negative' m' e') : e' ≤ greatestExponent ∧ m' = m ∧ e' = e := by
    by_cases hlt : greatestExponent < e
    · rw [if_pos hlt] at h
      cases h
    · rw [if_neg hlt] at h
      cases h
      exact ⟨not_lt.1 hlt, rfl, rfl⟩
  unfold ofParts at h
  by_cases hm : m = Nat.pow 2 53
  · rw [if_pos hm] at h
    obtain ⟨hle, hm', he⟩ := finite h
    exact ⟨hle, .inl ⟨hm, hm', he⟩⟩
  · rw [if_neg hm] at h
    obtain ⟨hle, hm', he⟩ := finite h
    exact ⟨hle, .inr ⟨hm, hm', he⟩⟩

/-- The exponent at which a ratio has 53 bits before the point, or the least exponent. -/
def binade (q : ℚ) : Int := max leastExponent (Int.log 2 q - 52)

/-- The number nearest to `±q`. -/
def ofRat (negative : Bool) (q : ℚ) : Double :=
  if q = 0 then zero negative else ofParts negative (nearestEven (q / 2 ^ binade q)) (binade q)

/-! ## Integers near a ratio -/

theorem nearest_eq {num den : Nat} (hden : 0 < den) : nearest num den = nearestEven (num / den) := by
  have hden' : (0 : ℚ) < den := by exact_mod_cast hden
  have hfloor : ⌊(num / den : ℚ)⌋₊ = num / den := Nat.floor_div_eq_div num den
  have hrest : (num / den : ℚ) - (num / den : Nat) = (num % den : Nat) / den := by
    rw [eq_div_iff hden'.ne', sub_mul, div_mul_cancel₀ _ hden'.ne', sub_eq_iff_eq_add]
    exact_mod_cast (Nat.mod_add_div' num den).symm
  have hlt : (num / den : ℚ) - (num / den : Nat) < 1 / 2 ↔ 2 * (num % den) < den := by
    rw [hrest, div_lt_div_iff₀ hden' two_pos, one_mul, mul_comm]
    exact_mod_cast Iff.rfl
  have hgt : 1 / 2 < (num / den : ℚ) - (num / den : Nat) ↔ den < 2 * (num % den) := by
    rw [hrest, div_lt_div_iff₀ two_pos hden', one_mul, mul_comm]
    exact_mod_cast Iff.rfl
  unfold nearest nearestEven
  simp only [hfloor, hlt, hgt]

theorem nearestEven_natCast (n : Nat) : nearestEven n = n := by
  unfold nearestEven
  rw [Nat.floor_natCast, if_pos (by norm_num)]

theorem nearestEven_of_lt_half {q : ℚ} (h : q < 1 / 2) : nearestEven q = 0 := by
  have hfloor : ⌊q⌋₊ = 0 := Nat.floor_eq_zero.2 (by linarith)
  unfold nearestEven
  rw [hfloor, if_pos (by simpa using h)]

/-- Nothing is rounded beyond an integer. -/
theorem nearestEven_le {q : ℚ} {n : Nat} (h0 : 0 ≤ q) (h : q ≤ n) : nearestEven q ≤ n := by
  rcases h.eq_or_lt with rfl | hlt
  · exact (nearestEven_natCast n).le
  · have hfloor : ⌊q⌋₊ < n := (Nat.floor_lt h0).2 hlt
    unfold nearestEven
    split_ifs <;> omega

theorem le_nearestEven {q : ℚ} {n : Nat} (h : (n : ℚ) ≤ q) : n ≤ nearestEven q := by
  have hfloor : n ≤ ⌊q⌋₊ := Nat.le_floor h
  unfold nearestEven
  split_ifs <;> omega

/-! ## Ratios and their exponents -/

theorem scale_den_pos {num den : Nat} (hden : 0 < den) (e : Int) : 0 < (scale num den e).2 := by
  unfold scale
  split
  · exact hden
  · exact Nat.mul_pos hden (Nat.pow_pos two_pos)

theorem scale_ratio (num den : Nat) (e : Int) :
    ((scale num den e).1 / (scale num den e).2 : ℚ) = num / den * 2 ^ e := by
  unfold scale
  split
  · obtain ⟨n, rfl⟩ := Int.eq_ofNat_of_zero_le ‹0 ≤ e›
    simp [mul_div_right_comm]
  · obtain ⟨n, rfl⟩ : ∃ n : Nat, e = -n := ⟨(-e).toNat, by omega⟩
    simp [div_mul_eq_div_div, ← div_eq_mul_inv]

/-- A logarithm is determined by the powers around it. -/
theorem log_eq {q : ℚ} {e : Int} (hq : 0 < q) (hle : 2 ^ e ≤ q) (hlt : q < 2 ^ (e + 1)) : Int.log 2 q = e := by
  have hle : e ≤ Int.log 2 q := (Int.zpow_le_iff_le_log (b := 2) one_lt_two hq).1 (by exact_mod_cast hle)
  have hlt : Int.log 2 q < e + 1 := (Int.lt_zpow_iff_log_lt (b := 2) one_lt_two hq).1 (by exact_mod_cast hlt)
  omega

theorem zpow_log_le {q : ℚ} (hq : 0 < q) : 2 ^ Int.log 2 q ≤ q := by
  exact_mod_cast Int.zpow_log_le_self (b := 2) one_lt_two hq

theorem lt_zpow_log {q : ℚ} : q < 2 ^ (Int.log 2 q + 1) := by
  exact_mod_cast Int.lt_zpow_succ_log_self (b := 2) one_lt_two q

/-- The bits of numerator and denominator tell the logarithm of their ratio, but for one. -/
theorem ratio_between {num den : Nat} (hnum : 0 < num) (hden : 0 < den) :
    (2 : ℚ) ^ ((num.log2 : Int) - den.log2 - 1) < num / den ∧
      (num / den : ℚ) < 2 ^ ((num.log2 : Int) - den.log2 + 1) := by
  have hden' : (0 : ℚ) < den := by exact_mod_cast hden
  have hnum₁ : (2 : ℚ) ^ (num.log2 : Int) ≤ num := by exact_mod_cast Nat.log2_self_le hnum.ne'
  have hnum₂ : (num : ℚ) < 2 ^ ((num.log2 : Int) + 1) := by exact_mod_cast Nat.lt_log2_self
  have hden₁ : (2 : ℚ) ^ (den.log2 : Int) ≤ den := by exact_mod_cast Nat.log2_self_le hden.ne'
  have hden₂ : (den : ℚ) < 2 ^ ((den.log2 : Int) + 1) := by exact_mod_cast Nat.lt_log2_self
  rw [lt_div_iff₀ hden', div_lt_iff₀ hden']
  constructor
  · calc (2 : ℚ) ^ ((num.log2 : Int) - den.log2 - 1) * den
        < 2 ^ ((num.log2 : Int) - den.log2 - 1) * 2 ^ ((den.log2 : Int) + 1) := by gcongr
      _ = 2 ^ (num.log2 : Int) := by rw [← zpow_add₀ two_ne_zero]; congr 1; ring
      _ ≤ num := hnum₁
  · calc (num : ℚ) < 2 ^ ((num.log2 : Int) + 1) := hnum₂
      _ = 2 ^ ((num.log2 : Int) - den.log2 + 1) * 2 ^ (den.log2 : Int) := by
        rw [← zpow_add₀ two_ne_zero]; congr 1; ring
      _ ≤ 2 ^ ((num.log2 : Int) - den.log2 + 1) * den := by gcongr

theorem exponentOf_eq {num den : Nat} (hnum : 0 < num) (hden : 0 < den) :
    exponentOf num den = Int.log 2 (num / den : ℚ) - 52 := by
  have hq : (0 : ℚ) < num / den := by positivity
  obtain ⟨hlower, hupper⟩ := ratio_between hnum hden
  generalize hguess : (num.log2 : Int) - den.log2 = guess at hlower hupper
  have hpos : (0 : ℚ) < (scale num den (-(guess - 52))).2 := by exact_mod_cast scale_den_pos hden _
  -- the guess is right if the ratio has 53 bits before the point there
  have hreaches : (scale num den (-(guess - 52))).2 * Nat.pow 2 52 ≤ (scale num den (-(guess - 52))).1 ↔
      (2 : ℚ) ^ guess ≤ num / den := by
    have hsplit : (2 : ℚ) ^ guess = 2 ^ 52 * 2 ^ (guess - 52) := by
      rw [← zpow_natCast, ← zpow_add₀ two_ne_zero]
      congr 1
      push_cast
      ring
    rw [hsplit, ← le_div_iff₀ (by positivity), div_eq_mul_inv, ← zpow_neg, ← scale_ratio, le_div_iff₀ hpos]
    rw [mul_comm, Nat.pow_eq]
    exact_mod_cast Iff.rfl
  unfold exponentOf
  simp only [hguess, hreaches]
  split
  · rw [log_eq hq ‹_› hupper]
  · rw [log_eq hq hlower.le (by rw [sub_add_cancel]; exact not_le.1 ‹_›)]
    ring

theorem round_of_ne_zero (negative : Bool) {num : Nat} (hnum : num ≠ 0) (den : Nat) {e : Int}
    (he : max leastExponent (exponentOf num den) = e) :
    round negative num den = ofParts negative (nearest (scale num den (-e)).1 (scale num den (-e)).2) e := by
  unfold round ofParts
  rw [if_neg hnum, he]

/-- Rounding depends on the ratio alone. -/
theorem round_eq (negative : Bool) (num : Nat) {den : Nat} (hden : 0 < den) :
    round negative num den = ofRat negative (num / den) := by
  by_cases hnum : num = 0
  · unfold round ofRat
    rw [if_pos hnum, if_pos (by rw [hnum, Nat.cast_zero, zero_div])]
  · have hq : (num / den : ℚ) ≠ 0 := by positivity
    have he : max leastExponent (exponentOf num den) = binade (num / den) := by
      rw [exponentOf_eq (Nat.pos_of_ne_zero hnum) hden, binade]
    rw [round_of_ne_zero negative hnum den he, nearest_eq (scale_den_pos hden _), scale_ratio, zpow_neg,
      ← div_eq_mul_inv, ofRat, if_neg hq]

/-! ## Numbers in normal form -/

/-- The mantissa has 53 bits, or the exponent is the least one. -/
structure Canonical (m : Nat) (e : Int) : Prop where
  mantissa_lt : m < 2 ^ 53
  least_le : leastExponent ≤ e
  le_greatest : e ≤ greatestExponent
  full : 2 ^ 52 ≤ m ∨ e = leastExponent

theorem two_zpow_pos (e : Int) : (0 : ℚ) < 2 ^ e := zpow_pos two_pos e

theorem binade_canonical {m : Nat} {e : Int} (h : Canonical m e) (hm : m ≠ 0) : binade (m * 2 ^ e) = e := by
  have hq : (0 : ℚ) < m * 2 ^ e := by positivity
  have hupper : (m * 2 ^ e : ℚ) < 2 ^ (e + 53) := by
    rw [add_comm, zpow_add₀ two_ne_zero]
    exact mul_lt_mul_of_pos_right (by exact_mod_cast h.mantissa_lt) (two_zpow_pos e)
  have hlog : Int.log 2 (m * 2 ^ e : ℚ) < e + 53 :=
    (Int.lt_zpow_iff_log_lt (b := 2) one_lt_two hq).1 (by exact_mod_cast hupper)
  unfold binade
  rcases h.full with hfull | rfl
  · have hlower : (2 : ℚ) ^ (e + 52) ≤ m * 2 ^ e := by
      rw [add_comm, zpow_add₀ two_ne_zero]
      exact mul_le_mul_of_nonneg_right (by exact_mod_cast hfull) (two_zpow_pos e).le
    have hle := (Int.zpow_le_iff_le_log (b := 2) one_lt_two hq).1 (by exact_mod_cast hlower)
    have hleast := h.least_le
    omega
  · omega

/-- A number in normal form is the number nearest to itself. -/
theorem ofRat_canonical (negative : Bool) {m : Nat} {e : Int} (h : Canonical m e) (hm : m ≠ 0) :
    ofRat negative (m * 2 ^ e) = .finite negative m e := by
  have hq : (m * 2 ^ e : ℚ) ≠ 0 := by positivity
  have hlt := h.mantissa_lt
  unfold ofRat
  rw [if_neg hq, binade_canonical h hm, mul_div_cancel_right₀ _ (two_zpow_pos e).ne', nearestEven_natCast]
  unfold ofParts
  rw [if_neg (show m ≠ Nat.pow 2 53 from hlt.ne)]
  exact if_neg (not_lt.2 h.le_greatest)

theorem binade_spec {q : ℚ} (hq : 0 < q) : q / 2 ^ binade q ≤ (2 ^ 53 : Nat) ∧
    ((2 ^ 52 : Nat) ≤ q / 2 ^ binade q ∨ binade q = leastExponent) := by
  have hle : Int.log 2 q - 52 ≤ binade q := le_max_right ..
  constructor
  · rw [div_le_iff₀ (two_zpow_pos _)]
    calc q ≤ 2 ^ (Int.log 2 q + 1) := lt_zpow_log.le
      _ ≤ 2 ^ (53 + binade q) := zpow_le_zpow_right₀ one_le_two (by omega)
      _ = _ := by rw [zpow_add₀ two_ne_zero]; norm_cast
  · rcases max_choice leastExponent (Int.log 2 q - 52) with h | h
    · exact .inr h
    · left
      have hbinade : binade q = Int.log 2 q - 52 := h
      rw [le_div_iff₀ (two_zpow_pos _), hbinade]
      calc ((2 ^ 52 : Nat) : ℚ) * 2 ^ (Int.log 2 q - 52) = 2 ^ Int.log 2 q := by
            rw [Nat.cast_pow, Nat.cast_ofNat, ← zpow_natCast, ← zpow_add₀ two_ne_zero]
            congr 1
            push_cast
            ring
        _ ≤ q := zpow_log_le hq

/-- What is rounded has its normal form. -/
theorem Canonical.of_ofRat {negative negative' : Bool} {q : ℚ} {m : Nat} {e : Int} (hq : 0 ≤ q)
    (h : ofRat negative q = .finite negative' m e) : Canonical m e := by
  unfold ofRat at h
  rcases hq.eq_or_lt with rfl | hq
  · rw [if_pos rfl] at h
    cases h
    exact ⟨by decide, le_refl _, by decide, .inr rfl⟩
  · obtain ⟨hupper, hlower⟩ := binade_spec hq
    have hle : nearestEven (q / 2 ^ binade q) ≤ 2 ^ 53 := nearestEven_le (by positivity) hupper
    have hleast : leastExponent ≤ binade q := le_max_left ..
    have hfull : 2 ^ 52 ≤ nearestEven (q / 2 ^ binade q) ∨ binade q = leastExponent := hlower.imp_left le_nearestEven
    rw [if_neg hq.ne'] at h
    obtain ⟨hgreatest, ⟨-, rfl, rfl⟩ | ⟨hne, rfl, rfl⟩⟩ := ofParts_eq_finite h
    · exact ⟨by decide, by omega, hgreatest, .inl (le_refl _)⟩
    · exact ⟨lt_of_le_of_ne hle hne, hleast, hgreatest, hfull⟩

/-- What is rounded keeps its sign, and becomes infinite or has its normal form. -/
theorem ofRat_form (negative : Bool) {q : ℚ} (hq : 0 ≤ q) : ofRat negative q = .infinite negative ∨
    ∃ m e, Canonical m e ∧ ofRat negative q = .finite negative m e := by
  have bounded (m : Nat) (e : Int) : (if greatestExponent < e then infinite negative else finite negative m e) =
      infinite negative ∨ ∃ m' e', (if greatestExponent < e then infinite negative else finite negative m e) =
        finite negative m' e' := by
    split
    · exact .inl rfl
    · exact .inr ⟨m, e, rfl⟩
  have hform : ofRat negative q = .infinite negative ∨ ∃ m e, ofRat negative q = .finite negative m e := by
    unfold ofRat
    split
    · exact .inr ⟨0, leastExponent, rfl⟩
    · exact bounded _ _
  exact hform.imp_right fun ⟨m, e, h⟩ => ⟨m, e, .of_ofRat hq h, h⟩

/-! ## Natural numbers -/

theorem ofNat_eq (n : Nat) : ofNat n = ofRat false n := by
  rw [ofNat, round_eq false n Nat.one_pos, Nat.cast_one, div_one]

/-- The natural numbers up to the greatest safe one and the one behind it are numbers of their own. -/
theorem ofNat_canonical {n : Nat} (hn : n ≤ 2 ^ 53) :
    ∃ m e, Canonical m e ∧ ofNat n = .finite false m e ∧ (m * 2 ^ e : ℚ) = n ∧
      (ofNat n).toInt? = some (n : Int) := by
  rcases Nat.eq_zero_or_pos n with rfl | hpos
  · exact ⟨0, leastExponent, ⟨by decide, le_refl _, by decide, .inr rfl⟩, by decide +kernel, by simp,
      by decide +kernel⟩
  rcases hn.eq_or_lt with rfl | hlt
  · exact ⟨2 ^ 52, 1, ⟨by decide, by decide, by decide, .inl (le_refl _)⟩, by decide +kernel, by norm_num,
      by decide +kernel⟩
  -- the mantissa is the number moved up until it has all its bits
  have hlog : n.log2 < 53 := (Nat.log2_lt hpos.ne').2 hlt
  obtain ⟨k, hk⟩ : ∃ k, n.log2 + k = 52 := ⟨52 - n.log2, by omega⟩
  have hcanonical : Canonical (n * 2 ^ k) (-k) := by
    refine ⟨?_, ?_, ?_, .inl ?_⟩
    · calc n * 2 ^ k < 2 ^ (n.log2 + 1) * 2 ^ k := Nat.mul_lt_mul_of_pos_right Nat.lt_log2_self (Nat.two_pow_pos k)
        _ = 2 ^ 53 := by rw [← Nat.pow_add]; congr 1; omega
    · unfold leastExponent; omega
    · unfold greatestExponent; omega
    · calc 2 ^ 52 = 2 ^ n.log2 * 2 ^ k := by rw [← Nat.pow_add, hk]
        _ ≤ n * 2 ^ k := Nat.mul_le_mul_right _ (Nat.log2_self_le hpos.ne')
  have hratio : (n : ℚ) = (n * 2 ^ k : Nat) * 2 ^ (-k : Int) := by
    rw [zpow_neg, zpow_natCast]
    push_cast
    rw [mul_assoc, mul_inv_cancel₀ (by positivity), mul_one]
  have hvalue : ofNat n = .finite false (n * 2 ^ k) (-k) := by
    rw [ofNat_eq, hratio]
    exact ofRat_canonical false hcanonical (by positivity)
  refine ⟨_, _, hcanonical, hvalue, hratio.symm, ?_⟩
  rw [hvalue, toInt?]
  rcases k.eq_zero_or_pos with rfl | hk
  · simp
  · simp [hk.ne']

/-! ## Decimals -/

/-- Ratios beyond all numbers become infinite. -/
theorem ofRat_large (negative : Bool) {q : ℚ} (h : 2 ^ (greatestExponent + 53) ≤ q) :
    ofRat negative q = .infinite negative := by
  have hq : 0 < q := lt_of_lt_of_le (two_zpow_pos _) h
  have hlog : greatestExponent + 53 ≤ Int.log 2 q :=
    (Int.zpow_le_iff_le_log (b := 2) one_lt_two hq).1 (by exact_mod_cast h)
  have hbinade : greatestExponent < binade q := lt_of_lt_of_le (by omega) (le_max_right leastExponent _)
  unfold ofRat ofParts
  rw [if_neg hq.ne']
  by_cases hm : nearestEven (q / 2 ^ binade q) = Nat.pow 2 53
  · rw [if_pos hm]
    exact if_pos (by omega)
  · rw [if_neg hm]
    exact if_pos hbinade

/-- Ratios below half of the finest number become zero. -/
theorem ofRat_small (negative : Bool) {q : ℚ} (hq : 0 < q) (h : q < 2 ^ (leastExponent - 1)) :
    ofRat negative q = zero negative := by
  have hlog : Int.log 2 q < leastExponent - 1 :=
    (Int.lt_zpow_iff_log_lt (b := 2) one_lt_two hq).1 (by exact_mod_cast h)
  have hbinade : binade q = leastExponent := max_eq_left (by omega)
  have hhalf : q / 2 ^ leastExponent < 1 / 2 := by
    rw [div_lt_iff₀ (two_zpow_pos _)]
    calc q < 2 ^ (leastExponent - 1) := h
      _ = 1 / 2 * 2 ^ leastExponent := by rw [zpow_sub_one₀ two_ne_zero]; ring
  unfold ofRat
  rw [if_neg hq.ne', hbinade, nearestEven_of_lt_half hhalf]
  rfl

/-- The powers of ten beyond the cut are beyond all numbers. -/
theorem decimal_large {digits : Nat} (hd : digits ≠ 0) {exponent : Int} (h : 400 < exponent) :
    (2 : ℚ) ^ (greatestExponent + 53) ≤ digits * 10 ^ exponent := by
  have hdigits : (1 : ℚ) ≤ digits := by exact_mod_cast Nat.one_le_iff_ne_zero.2 hd
  calc (2 : ℚ) ^ (greatestExponent + 53) ≤ 2 ^ ((3 * 400 : Nat) : Int) := zpow_le_zpow_right₀ one_le_two (by decide)
    _ = (2 ^ 3) ^ 400 := by rw [zpow_natCast, pow_mul]
    _ ≤ 10 ^ 400 := pow_le_pow_left₀ (by norm_num) (by norm_num) 400
    _ = 10 ^ ((400 : Nat) : Int) := (zpow_natCast ..).symm
    _ ≤ 10 ^ exponent := zpow_le_zpow_right₀ (by norm_num) h.le
    _ ≤ digits * 10 ^ exponent := le_mul_of_one_le_left (by positivity) hdigits

/-- A power of ten below one is no greater than the power of two with its exponent. -/
theorem ten_zpow_le {exponent : Int} (h : exponent ≤ 0) : (10 : ℚ) ^ exponent ≤ 2 ^ exponent := by
  obtain ⟨n, rfl⟩ : ∃ n : Nat, exponent = -n := ⟨(-exponent).toNat, by omega⟩
  rw [zpow_neg, zpow_neg, zpow_natCast, zpow_natCast]
  gcongr
  norm_num

theorem decimal_small {digits : Nat} {exponent : Int} (h : exponent + digits.log2 < -1200) :
    (digits * 10 ^ exponent : ℚ) < 2 ^ (leastExponent - 1) := by
  have hdigits : (digits : ℚ) < 2 ^ ((digits.log2 : Int) + 1) := by exact_mod_cast Nat.lt_log2_self
  calc (digits * 10 ^ exponent : ℚ) < 2 ^ ((digits.log2 : Int) + 1) * 10 ^ exponent := by gcongr
    _ ≤ 2 ^ ((digits.log2 : Int) + 1) * 2 ^ exponent := by gcongr; exact ten_zpow_le (by omega)
    _ = 2 ^ ((digits.log2 : Int) + 1 + exponent) := (zpow_add₀ two_ne_zero ..).symm
    _ ≤ 2 ^ (leastExponent - 1) := zpow_le_zpow_right₀ one_le_two (by unfold leastExponent; omega)

/-- A decimal is rounded as the ratio that it is, however great or small. -/
theorem ofDecimal_eq (negative : Bool) (digits : Nat) (exponent : Int) :
    ofDecimal negative digits exponent = ofRat negative (digits * 10 ^ exponent) := by
  unfold ofDecimal
  split_ifs with hzero hlarge hsmall hexponent
  · rw [ofRat, if_pos (by rw [hzero, Nat.cast_zero, zero_mul])]
  · exact (ofRat_large negative (decimal_large hzero hlarge)).symm
  · exact (ofRat_small negative (by positivity) (decimal_small hsmall)).symm
  · obtain ⟨n, rfl⟩ := Int.eq_ofNat_of_zero_le hexponent
    rw [round_eq negative _ Nat.one_pos]
    simp
  · obtain ⟨n, rfl⟩ : ∃ n : Nat, exponent = -n := ⟨(-exponent).toNat, by omega⟩
    rw [neg_neg, Int.toNat_natCast, Nat.pow_eq, round_eq negative _ (Nat.pow_pos (by norm_num)), zpow_neg,
      zpow_natCast, ← div_eq_mul_inv, Nat.cast_pow, Nat.cast_ofNat]

end Stencil.Double
