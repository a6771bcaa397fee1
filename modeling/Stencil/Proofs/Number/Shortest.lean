/-
The shortest decimal of a number reads back as the number (`shortest_reads`). A candidate is taken only if it does, and
the exact expansion, which stands behind all candidates, does so since it is the number itself.
-/
import Stencil.Number.Shortest
import Stencil.Proofs.Number.Rounding

namespace Stencil

namespace Decimal

/-- The ratio that a decimal is. -/
def ratio (d : Decimal) : ℚ := d.digits * 10 ^ d.exponent

theorem toDouble_eq (d : Decimal) : d.toDouble = .ofRat false d.ratio := Double.ofDecimal_eq false _ _

/-- Zeros at the end are written in the exponent. -/
theorem normalize_ratio (d : Decimal) : d.normalize.ratio = d.ratio := by
  induction d using normalize.induct with
  | case1 d h ih =>
    have hdigits : (d.digits : ℚ) = (d.digits / 10 : Nat) * 10 := by
      exact_mod_cast (Nat.div_mul_cancel (Nat.dvd_of_mod_eq_zero h.2)).symm
    rw [normalize, dif_pos h, ih, ratio, ratio, hdigits, zpow_add_one₀ (by norm_num)]
    ring
  | case2 d h => rw [normalize, dif_neg h]

theorem normalize_toDouble (d : Decimal) : d.normalize.toDouble = d.toDouble := by
  rw [toDouble_eq, normalize_ratio, ← toDouble_eq]

end Decimal

namespace Double

theorem expansion_ratio (m : Nat) (e : Int) : (expansion m e).ratio = m * 2 ^ e := by
  unfold expansion Decimal.ratio
  split
  · obtain ⟨n, rfl⟩ := Int.eq_ofNat_of_zero_le ‹0 ≤ e›
    simp
  · obtain ⟨n, rfl⟩ : ∃ n : Nat, e = -n := ⟨(-e).toNat, by omega⟩
    have hten : (10 : ℚ) ^ n = 5 ^ n * 2 ^ n := by rw [← mul_pow]; norm_num
    rw [neg_neg, Int.toNat_natCast, Nat.pow_eq, Nat.cast_mul, Nat.cast_pow, Nat.cast_ofNat, zpow_neg, zpow_neg,
      zpow_natCast, zpow_natCast, hten]
    field_simp

variable {m : Nat} {e : Int}

theorem expansion_reads (h : Canonical m e) (hm : m ≠ 0) : (expansion m e).toDouble = .finite false m e := by
  rw [Decimal.toDouble_eq, expansion_ratio, ofRat_canonical false h hm]

/-- The shortest decimal of a number reads back as the number. -/
theorem shortest_reads (h : Canonical m e) (hm : m ≠ 0) : (shortest m e).toDouble = .finite false m e := by
  unfold shortest
  simp only [Decimal.normalize_toDouble]
  generalize (List.range 17).map _ = grids
  cases hfound : grids.findSome? _ with
  | none => exact expansion_reads h hm
  | some d =>
    obtain ⟨grid, -, hd⟩ := List.exists_of_findSome?_eq_some hfound
    have hreads := List.find?_some hd
    exact eq_of_beq hreads

theorem shortest_digits_ne_zero (h : Canonical m e) (hm : m ≠ 0) : (shortest m e).digits ≠ 0 := by
  intro hzero
  have hreads := shortest_reads h hm
  rw [Decimal.toDouble, ofDecimal, if_pos hzero, zero] at hreads
  cases hreads
  exact hm rfl

end Double
end Stencil
