/-
Natural numbers among the numbers, and how they are written. Rounding keeps their order (`ofRat_mono`) and makes no
great one safe (`isSafeInteger_ofNat`). The shortest decimal of an integer is an integer (`shortest_whole`), so that a
natural number is written by digits alone, a safe one by its own (`natText_safe`), up to where exponents begin
(`natText_digits_iff`).
-/
import Stencil.Proofs.Number.Numeral

namespace Stencil

/-! ## Numerals with zeros at their end -/

namespace Text

theorem ofNat_mul_pow {n : Nat} (hn : n ≠ 0) (k : Nat) :
    ofNat (n * 10 ^ k) = ofNat n ++ List.replicate k (unit '0') := by
  induction k with
  | zero => rw [pow_zero, Nat.mul_one, List.replicate_zero, List.append_nil]
  | succ k ih =>
    have hpos : 0 < n * 10 ^ k := by positivity
    rw [pow_succ, ← Nat.mul_assoc, ofNat_of_le (by omega), Nat.mul_div_cancel _ (by decide), ih, Nat.mul_mod_left,
      List.replicate_succ', List.append_assoc]
    rfl

theorem length_ofNat_le_iff {n k : Nat} (hk : 0 < k) : (ofNat n).length ≤ k ↔ n < 10 ^ k := by
  induction k generalizing n with
  | zero => cases hk
  | succ k ih =>
    rcases Nat.lt_or_ge n 10 with h | h
    · rw [ofNat_of_lt h]
      exact iff_of_true (Nat.succ_le_succ (Nat.zero_le k)) (lt_of_lt_of_le h (Nat.le_self_pow (Nat.succ_ne_zero k) 10))
    · rw [ofNat_of_le h, List.length_append, List.length_singleton, Nat.add_le_add_iff_right, pow_succ]
      rcases Nat.eq_zero_or_pos k with rfl | hk
      · have hne := List.length_pos_iff.2 (ofNat_ne_nil (n / 10))
        omega
      · rw [ih hk, Nat.div_lt_iff_lt_mul (by decide)]

end Text

/-! ## The order of numbers -/

namespace Double

/-- Rounding to the nearest integer keeps the order. -/
theorem nearestEven_mono {q q' : ℚ} (h0 : 0 ≤ q) (h : q ≤ q') : nearestEven q ≤ nearestEven q' := by
  have hfloor : ⌊q⌋₊ ≤ ⌊q'⌋₊ := Nat.floor_mono h
  rcases hfloor.eq_or_lt with heq | hlt
  · unfold nearestEven
    rw [← heq]
    split_ifs <;> first | omega | (exfalso; linarith)
  · have hq : q ≤ (⌊q'⌋₊ : ℚ) := (Nat.lt_of_floor_lt hlt).le
    exact (nearestEven_le h0 hq).trans (le_nearestEven (Nat.floor_le (h0.trans h)))

/-- Fifty-three bits at one exponent are fifty-two at the next. -/
theorem bits_grown (e : Int) : ((2 ^ 52 : Nat) : ℚ) * 2 ^ (e + 1) = (2 ^ 53 : Nat) * 2 ^ e := by
  rw [zpow_add_one₀ two_ne_zero]
  push_cast
  ring

theorem bits_zpow (e : Int) : ((2 ^ 53 : Nat) : ℚ) * 2 ^ e = 2 ^ (e + 53) := by
  rw [zpow_add₀ two_ne_zero, mul_comm]
  norm_cast

/-- The ratio that rounding comes to where no exponent is too great. -/
def rounded (q : ℚ) : ℚ := nearestEven (q / 2 ^ binade q) * 2 ^ binade q

theorem rounded_mono {q q' : ℚ} (h0 : 0 < q) (h : q ≤ q') : rounded q ≤ rounded q' := by
  have hbinade : binade q ≤ binade q' :=
    max_le_max_left _ (Int.sub_le_sub_right (Int.log_mono_right h0 h) 52)
  unfold rounded
  rcases hbinade.eq_or_lt with heq | hlt
  · rw [← heq]
    gcongr
    exact nearestEven_mono (by positivity) (by gcongr)
  · -- the greater number has all its bits, so that it is beyond the smaller one
    have hupper : nearestEven (q / 2 ^ binade q) ≤ 2 ^ 53 := nearestEven_le (by positivity) (binade_spec h0).1
    have hleast : leastExponent ≤ binade q := le_max_left ..
    have hlower : 2 ^ 52 ≤ nearestEven (q' / 2 ^ binade q') :=
      le_nearestEven ((binade_spec (h0.trans_le h)).2.resolve_right (by omega))
    calc (nearestEven (q / 2 ^ binade q) : ℚ) * 2 ^ binade q ≤ (2 ^ 53 : Nat) * 2 ^ binade q := by gcongr
      _ = (2 ^ 52 : Nat) * 2 ^ (binade q + 1) := (bits_grown _).symm
      _ ≤ (2 ^ 52 : Nat) * 2 ^ binade q' := by gcongr; exacts [one_le_two, hlt]
      _ ≤ nearestEven (q' / 2 ^ binade q') * 2 ^ binade q' := by gcongr

/-- A positive ratio becomes the number that rounding comes to, or infinite if that is too great. -/
theorem ofRat_rounded {q : ℚ} (hq : 0 < q) :
    (∃ m e, ofRat false q = .finite false m e ∧ (m * 2 ^ e : ℚ) = rounded q ∧
        rounded q < 2 ^ (greatestExponent + 53)) ∨
      ofRat false q = .infinite false ∧ 2 ^ (greatestExponent + 53) ≤ rounded q := by
  obtain ⟨hupper, hlower⟩ := binade_spec hq
  have hle : nearestEven (q / 2 ^ binade q) ≤ 2 ^ 53 := nearestEven_le (by positivity) hupper
  have hfull : 2 ^ 52 ≤ nearestEven (q / 2 ^ binade q) ∨ binade q = leastExponent := hlower.imp_left le_nearestEven
  unfold ofRat ofParts rounded
  rw [if_neg hq.ne']
  generalize nearestEven (q / 2 ^ binade q) = m at hle hfull
  generalize binade q = e at hfull
  by_cases hm : m = Nat.pow 2 53
  · have hm' : m = 2 ^ 53 := hm
    rw [if_pos hm, hm', bits_zpow]
    by_cases hgreat : greatestExponent < e + 1
    · exact .inr ⟨if_pos hgreat, zpow_le_zpow_right₀ one_le_two (by omega)⟩
    · have hvalue := (bits_grown e).trans (bits_zpow e)
      exact .inl ⟨2 ^ 52, e + 1, if_neg hgreat, hvalue, zpow_lt_zpow_right₀ one_lt_two (by omega)⟩
  · rw [if_neg hm]
    by_cases hgreat : greatestExponent < e
    · have hbits : 2 ^ 52 ≤ m := hfull.resolve_right (by unfold greatestExponent leastExponent at *; omega)
      refine .inr ⟨if_pos hgreat, ?_⟩
      calc (2 : ℚ) ^ (greatestExponent + 53) ≤ 2 ^ (e - 1 + 53) := zpow_le_zpow_right₀ one_le_two (by omega)
        _ = (2 ^ 52 : Nat) * 2 ^ e := by rw [← bits_zpow, ← bits_grown, sub_add_cancel]
        _ ≤ m * 2 ^ e := by gcongr
    · have hlt : m < 2 ^ 53 := lt_of_le_of_ne hle hm
      refine .inl ⟨m, e, if_neg hgreat, rfl, ?_⟩
      calc (m * 2 ^ e : ℚ) < (2 ^ 53 : Nat) * 2 ^ e := by gcongr
        _ = 2 ^ (e + 53) := bits_zpow e
        _ ≤ 2 ^ (greatestExponent + 53) := zpow_le_zpow_right₀ one_le_two (by omega)

/-- The first number is at most the second, both without a sign. -/
def AtMost : Double → Double → Prop
  | _, infinite _ => True
  | finite _ m e, finite _ m' e' => (m * 2 ^ e : ℚ) ≤ m' * 2 ^ e'
  | _, _ => False

theorem AtMost.trans {x y z : Double} (h : AtMost x y) (h' : AtMost y z) : AtMost x z := by
  cases x <;> cases y <;> cases z <;> first | trivial | cases h | cases h' | exact le_trans h h'

/-- Rounding keeps the order. -/
theorem ofRat_mono {q q' : ℚ} (h0 : 0 < q) (h : q ≤ q') : AtMost (ofRat false q) (ofRat false q') := by
  have hrounded := rounded_mono h0 h
  rcases ofRat_rounded (h0.trans_le h) with ⟨m', e', hx', hvalue', hlt'⟩ | ⟨hx', -⟩ <;> rw [hx']
  · rcases ofRat_rounded h0 with ⟨m, e, hx, hvalue, -⟩ | ⟨-, hle⟩
    · rw [hx]
      exact hvalue.trans_le (hrounded.trans hvalue'.ge)
    · exact absurd (hle.trans hrounded) (not_le.2 hlt')
  · cases ofRat false q <;> trivial

theorem ofNat_mono {n n' : Nat} (h : n ≤ n') : AtMost (ofNat n) (ofNat n') := by
  rw [ofNat_eq, ofNat_eq]
  rcases Nat.eq_zero_or_pos n with rfl | hpos
  · rw [Nat.cast_zero, show ofRat false 0 = zero false from if_pos rfl]
    rcases ofRat_form false (q := n') (Nat.cast_nonneg n') with h | ⟨m, e, -, h⟩ <;> rw [h]
    · trivial
    · show ((0 : Nat) * 2 ^ leastExponent : ℚ) ≤ m * 2 ^ e
      rw [Nat.cast_zero, zero_mul]
      positivity
  · exact ofRat_mono (by exact_mod_cast hpos) (by exact_mod_cast h)

end Double

/-! ## Safe integers -/

namespace Double

/-- Beyond the safe integers there are only even numbers. -/
theorem ofNat_large {n m : Nat} {e : Int} {negative : Bool} (hn : 2 ^ 53 ≤ n)
    (h : ofNat n = .finite negative m e) : 2 ^ 52 ≤ m ∧ 1 ≤ e := by
  have hpos : (0 : ℚ) < n := by exact_mod_cast lt_of_lt_of_le (Nat.two_pow_pos 53) hn
  have hlog : 53 ≤ Int.log 2 (n : ℚ) :=
    (Int.zpow_le_iff_le_log (b := 2) one_lt_two hpos).1 (by exact_mod_cast hn)
  have hbinade : 1 ≤ binade (n : ℚ) := le_trans (by omega) (le_max_right leastExponent _)
  rw [ofNat_eq] at h
  have hcanonical : Canonical m e := .of_ofRat hpos.le h
  rw [ofRat, if_neg hpos.ne'] at h
  have he : 1 ≤ e := by
    obtain ⟨-, ⟨-, -, rfl⟩ | ⟨-, -, rfl⟩⟩ := ofParts_eq_finite h <;> omega
  refine ⟨hcanonical.full.resolve_right fun hleast => ?_, he⟩
  rw [hleast] at he
  exact absurd he (by decide)

theorem isSafeInteger_of_toInt? {x : Double} {i : Int} (h : x.toInt? = some i) :
    x.isSafeInteger = decide (i.natAbs ≤ 2 ^ 53 - 1) := by
  rw [isSafeInteger, h]
  rfl

/-- A natural number is safe after rounding just if it was safe before. -/
theorem isSafeInteger_ofNat (n : Nat) : (ofNat n).isSafeInteger = decide (n ≤ 2 ^ 53 - 1) := by
  rcases Nat.lt_or_ge n (2 ^ 53) with hlt | hge
  · obtain ⟨-, -, -, -, -, hvalue⟩ := ofNat_canonical hlt.le
    exact isSafeInteger_of_toInt? hvalue
  · rw [decide_eq_false (by omega)]
    rcases ofRat_form false (q := n) (Nat.cast_nonneg n) with h | ⟨m, e, -, h⟩ <;> rw [← ofNat_eq] at h
    · rw [h]
      rfl
    · obtain ⟨hm, he⟩ := ofNat_large hge h
      obtain ⟨k, rfl⟩ : ∃ k : Nat, e = (k + 1 : Nat) := ⟨(e - 1).toNat, by omega⟩
      have hvalue : (ofNat n).toInt? = some ((m * 2 ^ (k + 1) : Nat) : Int) := by
        rw [h, toInt?, if_pos (Int.natCast_nonneg _), Int.toNat_natCast]
        rfl
      have hlarge : 2 ^ 52 * 2 ^ 1 ≤ m * 2 ^ (k + 1) :=
        Nat.mul_le_mul hm (Nat.pow_le_pow_right two_pos (by omega))
      rw [isSafeInteger_of_toInt? hvalue, Int.natAbs_natCast, decide_eq_false (by omega)]

end Double

/-! ## Shortest decimals of integers -/

namespace Decimal

theorem normalize_digits (d : Decimal) : d.normalize.digits ≠ 0 → d.normalize.digits % 10 ≠ 0 := by
  induction d using normalize.induct with
  | case1 d h ih => rwa [normalize, dif_pos h]
  | case2 d h =>
    rw [normalize, dif_neg h]
    exact fun hne hmod => h ⟨hne, hmod⟩

/-- Without zeros at its end, an integer has no digits behind the point. -/
theorem normalize_exponent_nonneg {d : Decimal} {n : Nat} (hn : n ≠ 0) (h : d.ratio = n) :
    0 ≤ d.normalize.exponent := by
  by_contra hneg
  obtain ⟨k, hk⟩ : ∃ k : Nat, d.normalize.exponent = -(k + 1 : Nat) := ⟨(-d.normalize.exponent - 1).toNat, by omega⟩
  rw [← normalize_ratio, ratio, hk, zpow_neg, zpow_natCast, ← div_eq_mul_inv, div_eq_iff (by positivity)] at h
  have hdigits : d.normalize.digits = n * 10 ^ k * 10 := by
    rw [Nat.mul_assoc, ← pow_succ]
    exact_mod_cast h
  refine normalize_digits d ?_ ?_
  · rw [hdigits]
    positivity
  · rw [hdigits, Nat.mul_mod_left]

theorem ratio_of_nonneg {d : Decimal} (h : 0 ≤ d.exponent) : ∃ n : Nat, d.ratio = n := by
  obtain ⟨k, hk⟩ := Int.eq_ofNat_of_zero_le h
  refine ⟨d.digits * 10 ^ k, ?_⟩
  rw [ratio, hk, zpow_natCast]
  push_cast
  rfl

end Decimal

namespace Double

/-- At least one digit stands before the point of a ratio that is one or more. -/
theorem decimalPlace_pos {num den : Nat} (h : den ≤ num) : 0 < decimalPlace num den := by
  unfold decimalPlace
  simp only
  cases hfound : List.find? _ _ with
  | none =>
    have hlog : den.log2 ≤ num.log2 := by
      rw [Nat.log2_eq_log_two, Nat.log2_eq_log_two]
      exact Nat.log_mono_right h
    rw [Option.getD_none]
    omega
  | some p =>
    have hreaches := List.find?_some hfound
    rw [Option.getD_some]
    by_contra hp
    unfold scaleTen at hreaches
    rw [if_pos (by omega), decide_eq_true_eq] at hreaches
    exact absurd hreaches (not_lt.2 (h.trans (Nat.le_mul_of_pos_right num (Nat.pow_pos (by decide)))))

theorem exponent_of_mem_neighbours {num den : Nat} {p : Int} {d : Decimal} (h : d ∈ neighbours num den p) :
    d.exponent = p := by
  unfold neighbours at h
  simp only at h
  split at h <;> rcases List.mem_pair.1 h with rfl | rfl <;> rfl

theorem quotient_mem_neighbours (num den : Nat) : ⟨num / den, 0⟩ ∈ neighbours num den 0 := by
  have hscale : scaleTen num den (-0) = (num, den) := by simp [scaleTen]
  unfold neighbours
  simp only [hscale]
  split
  · exact .head _
  · exact .tail _ (.head _)

/-- A search among numbered things stops at the first one that has what is looked for. -/
theorem exists_first {α β : Type} {f : Nat → α} {g : α → Option β} {n : Nat} {b : β}
    (h : ((List.range n).map f).findSome? g = some b) : ∃ i, g (f i) = some b ∧ ∀ j < i, g (f j) = none := by
  obtain ⟨before, a, behind, hsplit, ha, hnone⟩ := List.findSome?_eq_some_iff.1 h
  have hlength := congrArg List.length hsplit
  simp only [List.length_map, List.length_range, List.length_append, List.length_cons] at hlength
  have hget (j : Nat) (hj : j < n) : (before ++ a :: behind)[j]? = some (f j) := by
    rw [← hsplit, List.getElem?_map, List.getElem?_range hj, Option.map_some]
  refine ⟨before.length, ?_, fun j hj => hnone _ (List.mem_of_getElem? (i := j) ?_)⟩
  · have hthis := hget before.length (by omega)
    rw [List.getElem?_append_right (le_refl _), Nat.sub_self, List.getElem?_cons_zero, Option.some_inj] at hthis
    rw [← hthis, ha]
  · rw [← List.getElem?_append_left hj, hget j (by omega)]

/-- The grid of integers holds the integer that is looked for, so that no finer one is asked. -/
theorem search_whole {num den n : Nat} (hden : 0 < den) (hnum : num = n * den) (hn : n ≠ 0) {reads : Decimal → Bool}
    (hreads : reads ⟨n, 0⟩ = true) {d : Decimal} (h : ((List.range 17).map fun (k : Nat) =>
      neighbours num den (decimalPlace num den - (k + 1))).findSome? (·.find? reads) = some d) : 0 ≤ d.exponent := by
  have hplace : 0 < decimalPlace num den :=
    decimalPlace_pos (hnum ▸ Nat.le_mul_of_pos_left den (Nat.pos_of_ne_zero hn))
  obtain ⟨i, hd, hnone⟩ := exists_first h
  rw [exponent_of_mem_neighbours (List.mem_of_find?_eq_some hd)]
  by_contra hneg
  have hinteger := hnone (decimalPlace num den - 1).toNat (by omega)
  rw [show decimalPlace num den - (((decimalPlace num den - 1).toNat : Int) + 1) = 0 by omega] at hinteger
  have hmem := quotient_mem_neighbours num den
  rw [hnum, Nat.mul_div_cancel n hden, ← hnum] at hmem
  exact List.find?_eq_none.1 hinteger _ hmem hreads

variable {m n : Nat} {e : Int}

theorem ratio_whole (hn : (m * 2 ^ e : ℚ) = n) : 0 < (ratio m e).2 ∧ (ratio m e).1 = n * (ratio m e).2 := by
  have hden : 0 < (ratio m e).2 := scale_den_pos Nat.one_pos e
  have hvalue : ((ratio m e).1 / (ratio m e).2 : ℚ) = m / (1 : Nat) * 2 ^ e := scale_ratio m 1 e
  rw [Nat.cast_one, div_one, hn, div_eq_iff (by positivity)] at hvalue
  exact ⟨hden, by exact_mod_cast hvalue⟩

/-- The shortest decimal of an integer is an integer, and written as one. -/
theorem shortest_whole (h : Canonical m e) (hm : m ≠ 0) (hn : (m * 2 ^ e : ℚ) = n) :
    ∃ k : Nat, (shortest m e).ratio = k ∧ 0 ≤ (shortest m e).exponent := by
  have hn0 : n ≠ 0 := by
    rintro rfl
    have hpos : (0 : ℚ) < m * 2 ^ e := by positivity
    exact hpos.ne' (by exact_mod_cast hn)
  obtain ⟨hden, hnum⟩ := ratio_whole hn
  have hreads : (Decimal.toDouble ⟨n, 0⟩ == .finite false m e) = true := by
    rw [beq_iff_eq, Decimal.toDouble_eq, Decimal.ratio, zpow_zero, mul_one, ← hn, ofRat_canonical false h hm]
  obtain ⟨d, hd, k, hk⟩ : ∃ d : Decimal, shortest m e = d.normalize ∧ ∃ k : Nat, d.ratio = k := by
    unfold shortest
    simp only
    generalize hsearch : List.findSome? _ _ = found
    refine ⟨_, rfl, ?_⟩
    cases found with
    | none => exact ⟨n, (expansion_ratio m e).trans hn⟩
    | some d => exact Decimal.ratio_of_nonneg (search_whole hden hnum hn0 hreads hsearch)
  have hk0 : k ≠ 0 := by
    rintro rfl
    have hzero := shortest_reads h hm
    rw [hd, Decimal.toDouble_eq, Decimal.normalize_ratio, hk, Nat.cast_zero, ofRat, if_pos rfl] at hzero
    cases hzero
    exact hm rfl
  rw [hd]
  exact ⟨k, (Decimal.normalize_ratio d).trans hk, Decimal.normalize_exponent_nonneg hk0 hk⟩

/-! ## Texts of natural numbers -/

/-- An integer is written by the digits of an integer that rounds to it, if there are at most 21 of them. -/
theorem toText_whole (h : Canonical m e) (hm : m ≠ 0) (hn : (m * 2 ^ e : ℚ) = n) :
    ∃ k : Nat, ofNat k = .finite false m e ∧ (shortest m e).ratio = k ∧
      (k < 10 ^ 21 → (finite false m e).toText = Text.ofNat k) ∧
      (10 ^ 21 ≤ k → Text.unit 'e' ∈ (finite false m e).toText) := by
  obtain ⟨k, hk, hexponent⟩ := shortest_whole h hm hn
  obtain ⟨j, hj⟩ := Int.eq_ofNat_of_zero_le hexponent
  have hdigits := shortest_digits_ne_zero h hm
  have hvalue : k = (shortest m e).digits * 10 ^ j := by
    rw [Decimal.ratio, hj, zpow_natCast] at hk
    exact_mod_cast hk.symm
  have hnumeral := Text.ofNat_mul_pow hdigits j
  rw [← hvalue] at hnumeral
  have hlength : (Text.ofNat k).length = (Text.ofNat (shortest m e).digits).length + j := by
    rw [hnumeral, List.length_append, List.length_replicate]
  have hbound := Text.length_ofNat_le_iff (n := k) (k := 21) (by decide)
  have htext : (finite false m e).toText = Layout.plain.place (Text.ofNat (shortest m e).digits)
      ((Text.ofNat (shortest m e).digits).length + (shortest m e).exponent) := if_neg hm
  refine ⟨k, ?_, hk, fun hlt => ?_, fun hge => ?_⟩
  · rw [ofNat_eq, ← hk, ← Decimal.toDouble_eq, shortest_reads h hm]
  · have hshort := hbound.2 hlt
    rw [htext, hj, Numeral.plain_place, if_pos (by omega), Layout.zeros, hnumeral]
    congr 2
    omega
  · have hlong := mt hbound.1 (not_lt.2 hge)
    rw [htext, hj, Numeral.plain_place, if_neg (by omega), if_neg (by omega), if_neg (by omega)]
    simp [Text.ofString, Text.ofCodePoint, Text.unit]

/-- What a positive natural number is rounded to is an integer. -/
theorem ofNat_whole (hn : 0 < n) (h : ofNat n = .finite false m e) :
    Canonical m e ∧ m ≠ 0 ∧ ∃ k : Nat, (m * 2 ^ e : ℚ) = k := by
  have hq : (0 : ℚ) < n := by exact_mod_cast hn
  have hcanonical : Canonical m e := .of_ofRat hq.le (ofNat_eq n ▸ h)
  rcases Nat.lt_or_ge n (2 ^ 53) with hlt | hge
  · obtain ⟨m', e', -, h', hvalue, -⟩ := ofNat_canonical hlt.le
    rw [h] at h'
    cases h'
    refine ⟨hcanonical, ?_, n, hvalue⟩
    rintro rfl
    rw [Nat.cast_zero, zero_mul] at hvalue
    exact hq.ne hvalue
  · obtain ⟨hm, he⟩ := ofNat_large hge h
    obtain ⟨j, rfl⟩ := Int.eq_ofNat_of_zero_le (show 0 ≤ e by omega)
    refine ⟨hcanonical, by omega, m * 2 ^ j, ?_⟩
    rw [zpow_natCast]
    push_cast
    rfl

/-- A natural number is too great, or it is written as an integer that is rounded to the same number. -/
theorem natText_cases (hn : 0 < n) : natText n = Layout.plain.infinity ∧ ofNat n = .infinite false ∨
    ∃ k m e, Canonical m e ∧ m ≠ 0 ∧ ofNat n = .finite false m e ∧ ofNat k = .finite false m e ∧
      (shortest m e).ratio = k ∧ (k < 10 ^ 21 → natText n = Text.ofNat k) ∧
      (10 ^ 21 ≤ k → Text.unit 'e' ∈ natText n) := by
  unfold natText
  rcases ofRat_form false (q := n) (Nat.cast_nonneg n) with h | ⟨m, e, -, h⟩ <;> rw [← ofNat_eq] at h
  · rw [h]
    exact .inl ⟨rfl, rfl⟩
  · obtain ⟨hcanonical, hm, i, hi⟩ := ofNat_whole hn h
    obtain ⟨k, hk, hratio, hdigits, hexponent⟩ := toText_whole hcanonical hm hi
    rw [h]
    exact .inr ⟨k, m, e, hcanonical, hm, rfl, hk, hratio, hdigits, hexponent⟩

/-- A safe natural number is written by its own digits. -/
theorem natText_safe (h : n ≤ 2 ^ 53 - 1) : natText n = Text.ofNat n := by
  rcases Nat.eq_zero_or_pos n with rfl | hpos
  · decide +kernel
  obtain ⟨m₀, e₀, -, hn, -, hinteger⟩ := ofNat_canonical (n := n) (by omega)
  rcases natText_cases hpos with ⟨-, hinfinite⟩ | ⟨k, m, e, -, -, hfinite, hk, -, hdigits, -⟩
  · rw [hinfinite] at hn
    cases hn
  · have hsafe : (ofNat k).isSafeInteger = true := by
      rw [hk, ← hfinite, isSafeInteger_ofNat, decide_eq_true h]
    rw [isSafeInteger_ofNat, decide_eq_true_eq] at hsafe
    obtain ⟨-, -, -, -, -, hinteger'⟩ := ofNat_canonical (n := k) (by omega)
    rw [hk, ← hfinite, hinteger, Option.some_inj, Int.natCast_inj] at hinteger'
    rw [hdigits (by omega), hinteger']

theorem Canonical.eq_of_value {m' : Nat} {e' : Int} (h : Canonical m e) (h' : Canonical m' e') (hm : m ≠ 0)
    (hvalue : (m * 2 ^ e : ℚ) = m' * 2 ^ e') : finite false m e = finite false m' e' := by
  have hm' : m' ≠ 0 := by
    rintro rfl
    rw [Nat.cast_zero, zero_mul] at hvalue
    exact absurd hvalue (by positivity)
  rw [← ofRat_canonical false h hm, hvalue, ofRat_canonical false h' hm']

/-- No blank and no colon stands in the text of a natural number. -/
theorem natText_units (n : Nat) : Text.unit ' ' ∉ natText n ∧ Text.unit ':' ∉ natText n := by
  unfold natText
  rcases ofRat_form false (q := n) (Nat.cast_nonneg n) with h | ⟨m, e, hcanonical, h⟩ <;> rw [← ofNat_eq] at h
  · rw [h]
    decide
  · obtain ⟨numeral, hformed, -, htext, -⟩ := hcanonical.exists_numeral
    rw [h, show (finite false m e).toText = numeral.text from htext]
    have hunits := numeral.text_units hformed
    constructor <;> intro hmem <;> exact absurd (hunits _ hmem) (by decide)

/-! ### Where exponents begin -/

/-- The number `10 ^ 21`. -/
def exponentBound : Double := .finite false 7629394531250000 17

theorem ofNat_bound : ofNat (10 ^ 21 - 2 ^ 16) = exponentBound ∧ ofNat (10 ^ 21 - 1) = exponentBound ∧
    ofNat (10 ^ 21) = exponentBound := by decide +kernel

/-- Numbers below the bound are written by digits. -/
theorem natText_of_lt (h : n < 10 ^ 21 - 2 ^ 16) : ∃ k, natText n = Text.ofNat k := by
  rcases Nat.eq_zero_or_pos n with rfl | hpos
  · exact ⟨0, by decide +kernel⟩
  have hbelow : ofNat (10 ^ 21 - 2 ^ 16 - 1) = .finite false 7629394531249999 17 := by decide +kernel
  have hreach : AtMost (ofNat n) (.finite false 7629394531249999 17) := hbelow ▸ ofNat_mono (Nat.le_sub_one_of_lt h)
  rcases natText_cases hpos with ⟨-, hinfinite⟩ | ⟨k, m, e, -, -, hfinite, hk, -, hdigits, -⟩
  · rw [hinfinite] at hreach
    cases hreach
  · refine ⟨k, hdigits (not_le.1 fun hle => ?_)⟩
    have hbound : AtMost exponentBound (ofNat n) := by
      rw [hfinite, ← hk, ← ofNat_bound.2.2]
      exact ofNat_mono hle
    have habsurd := hbound.trans hreach
    norm_num [exponentBound, AtMost] at habsurd

/-- What is rounded to the bound or above it is not: of the integers rounded to the bound, the bound itself has the
shortest decimal. -/
theorem natText_of_le (h : 10 ^ 21 - 2 ^ 16 ≤ n) : ∃ c ∈ natText n, Text.isDigit c = false := by
  have hbound : AtMost exponentBound (ofNat n) := ofNat_bound.1 ▸ ofNat_mono h
  rcases natText_cases (n := n) (by omega) with
    ⟨htext, -⟩ | ⟨k, m, e, hcanonical, hm, hfinite, hk, hratio, -, hexponent⟩
  · rw [htext]
    exact ⟨Text.unit 'I', by decide, by decide⟩
  · refine ⟨Text.unit 'e', hexponent (not_lt.1 fun hlt => ?_), by decide⟩
    have hcap : AtMost (ofNat k) exponentBound := ofNat_bound.2.1 ▸ ofNat_mono (Nat.le_sub_one_of_lt hlt)
    rw [hk] at hcap
    rw [hfinite] at hbound
    have hpower : Canonical 7629394531250000 17 := ⟨by decide, by decide, by decide, .inl (by decide)⟩
    have hsame := hcanonical.eq_of_value hpower hm (le_antisymm hcap hbound)
    cases hsame
    have hshortest : shortest 7629394531250000 17 = ⟨1, 21⟩ := by decide +kernel
    have hk : (k : ℚ) = (10 ^ 21 : Nat) := by
      rw [← hratio, hshortest, Decimal.ratio]
      norm_num
    exact absurd (Nat.cast_inj.1 hk) hlt.ne

/-- A natural number is written by digits alone just if it is rounded to less than `10 ^ 21`. -/
theorem natText_digits_iff (n : Nat) : (∀ c ∈ natText n, Text.isDigit c = true) ↔ n < 10 ^ 21 - 2 ^ 16 := by
  constructor
  · intro hdigits
    by_contra hge
    obtain ⟨c, hc, hno⟩ := natText_of_le (not_lt.1 hge)
    rw [hdigits c hc] at hno
    cases hno
  · intro h
    obtain ⟨k, hk⟩ := natText_of_lt h
    rw [hk]
    exact Text.ofNat_digits k

end Double

end Stencil
