/-
Numbers as they are written. A `Numeral` is a decimal in its parts, and its text reads as the decimal, both where it
stands alone (`read_text`) and at the head of a JSON text (`readNumber_text`). Every finite number is written as a
numeral that reads back as the number (`exists_numeral`).
-/
import Stencil.Json.Reader
import Stencil.Json.Writer
import Stencil.Proofs.Number.Shortest
import Stencil.Proofs.Text.Digit

namespace Stencil

/-- A decimal in its parts: the digits before the point and behind it, and an exponent with its sign. -/
structure Numeral where
  whole : Text
  fraction : Text
  exponent : Option Int

namespace Numeral

/-- The fraction with its point, if it has digits. -/
def fractionText (n : Numeral) : Text := if n.fraction = [] then [] else Text.unit '.' :: n.fraction

/-- The exponent with its mark. -/
def exponentText (n : Numeral) : Text :=
  match n.exponent with
  | none => []
  | some e => Text.unit 'e' :: Text.unit (if e < 0 then '-' else '+') :: Text.ofNat e.natAbs

def text (n : Numeral) : Text := n.whole ++ n.fractionText ++ n.exponentText

/-- The number that is nearest to the decimal. -/
def toDouble (n : Numeral) : Double :=
  .ofDecimal false (Text.value 10 (n.whole ++ n.fraction)) (n.exponent.getD 0 - n.fraction.length)

/-- The parts are digits, and one at least stands before the point. -/
structure WellFormed (n : Numeral) : Prop where
  whole : ∀ c ∈ n.whole, Text.isDigit c = true
  fraction : ∀ c ∈ n.fraction, Text.isDigit c = true
  whole_ne : n.whole ≠ []

/-- The first digit is zero only if it stands alone before the point. -/
def Minimal (n : Numeral) : Prop := n.whole = [Text.unit '0'] ∨ n.whole.head? ≠ some (Text.unit '0')

end Numeral

/-- A number ends before the text: no digit, point or exponent follows. -/
def EndsNumber (t : Text) : Prop :=
  ∀ c ∈ t.head?, Text.isDigit c = false ∧ c ≠ Text.unit '.' ∧ Text.lowerUnit c ≠ Text.unit 'e'

namespace EndsNumber

variable {t : Text}

theorem nil : EndsNumber [] := nofun

theorem endsDigits (h : EndsNumber t) : Text.EndsDigits t := fun c hc => (h c hc).1

end EndsNumber

namespace Json

open Text

/-! ## The parts of a number at the head of a text -/

theorem readDigits_append {ds rest : Text} (hne : ds ≠ []) (hds : ∀ c ∈ ds, isDigit c = true)
    (hrest : EndsDigits rest) : readDigits (ds ++ rest) = some (ds, rest) := by
  obtain ⟨htake, hdrop⟩ := takeWhile_digits hds hrest
  unfold readDigits
  simp only [htake, hdrop]
  exact if_neg hne

variable {n : Numeral} {rest : Text}

theorem readWhole_append (h : n.WellFormed) (hminimal : n.Minimal) (hrest : EndsDigits rest) :
    readWhole (n.whole ++ rest) = some (n.whole, rest) := by
  rcases hminimal with hzero | hhead
  · rw [hzero]
    rfl
  · obtain ⟨c, ds, hwhole⟩ := List.exists_cons_of_ne_nil h.whole_ne
    have hc : c ≠ unit '0' := by
      rintro rfl
      exact hhead (by rw [hwhole, List.head?_cons])
    have hdigits := readDigits_append h.whole_ne h.whole hrest
    rw [hwhole] at hdigits ⊢
    rw [List.cons_append, readWhole, if_neg hc]
    exact hdigits

theorem endsDigits_exponentText (hrest : EndsNumber rest) : EndsDigits (n.exponentText ++ rest) := by
  unfold Numeral.exponentText
  split
  · exact hrest.endsDigits
  · rintro c ⟨⟩
    decide

theorem endsDigits_fractionText (hrest : EndsNumber rest) :
    EndsDigits (n.fractionText ++ (n.exponentText ++ rest)) := by
  unfold Numeral.fractionText
  split
  · exact endsDigits_exponentText hrest
  · rintro c ⟨⟩
    decide

theorem readFraction_append (h : n.WellFormed) (hrest : EndsNumber rest) :
    readFraction (n.fractionText ++ (n.exponentText ++ rest)) = some (n.fractionText, n.exponentText ++ rest) := by
  have hends : EndsDigits (n.exponentText ++ rest) := endsDigits_exponentText hrest
  unfold Numeral.fractionText
  split
  · have hpoint : ∀ c ∈ (n.exponentText ++ rest).head?, c ≠ unit '.' := by
      unfold Numeral.exponentText
      split
      · exact fun c hc => (hrest c hc).2.1
      · rintro c ⟨⟩
        decide
    rw [List.nil_append]
    generalize n.exponentText ++ rest = t at hpoint
    cases t with
    | nil => rfl
    | cons c t => exact if_neg (hpoint c rfl)
  · rw [List.cons_append, readFraction, if_pos rfl, readDigits_append ‹_› h.fraction hends]
    rfl

theorem readExponent_append (hrest : EndsNumber rest) :
    readExponent (n.exponentText ++ rest) = some (n.exponentText, rest) := by
  unfold Numeral.exponentText
  split
  · rw [List.nil_append]
    cases rest with
    | nil => rfl
    | cons c rest => exact if_neg (hrest c rfl).2.2
  · rename_i e _
    have hsign : (decide (unit (if e < 0 then '-' else '+') = unit '+') ||
        decide (unit (if e < 0 then '-' else '+') = unit '-')) = true := by
      split <;> decide
    have hmark : lowerUnit (unit 'e') = unit 'e' := by decide
    rw [List.cons_append, List.cons_append, readExponent, if_pos hmark, if_pos hsign,
      readDigits_append (ofNat_ne_nil _) (ofNat_digits _) hrest.endsDigits]
    rfl

end Json

/-! ## Numerals that stand alone -/

namespace Numeral

open Text

variable {n : Numeral}

theorem exists_cons (h : n.WellFormed) : ∃ c t, n.whole = c :: t ∧ isDigit c = true := by
  obtain ⟨c, t, hwhole⟩ := List.exists_cons_of_ne_nil h.whole_ne
  exact ⟨c, t, hwhole, h.whole c (hwhole ▸ List.mem_cons_self ..)⟩

/-- A numeral consists of digits and of the marks between its parts. -/
theorem text_units (h : n.WellFormed) :
    ∀ c ∈ n.text, isDigit c = true ∨ c ∈ [unit '.', unit 'e', unit '-', unit '+'] := by
  have hdigits {t : Text} (ht : ∀ c ∈ t, isDigit c = true) (c : CodeUnit) (hc : c ∈ t) :
      isDigit c = true ∨ c ∈ [unit '.', unit 'e', unit '-', unit '+'] := .inl (ht c hc)
  refine List.forall_mem_append.2 ⟨List.forall_mem_append.2 ⟨hdigits h.whole, ?_⟩, ?_⟩
  · unfold fractionText
    split
    · exact List.forall_mem_nil _
    · exact List.forall_mem_cons.2 ⟨by decide, hdigits h.fraction⟩
  · unfold exponentText
    split
    · exact List.forall_mem_nil _
    · exact List.forall_mem_cons.2 ⟨by decide, List.forall_mem_cons.2 ⟨by split <;> decide, hdigits (ofNat_digits _)⟩⟩

theorem not_isBlank (h : n.WellFormed) : ∀ c ∈ n.text, isBlank c = false := by
  have hmarks : ([unit '.', unit 'e', unit '-', unit '+'].all fun c => !isBlank c) = true := by decide
  intro c hc
  rcases text_units h c hc with hdigit | hmark
  · exact isBlank_of_isDigit hdigit
  · simpa using List.all_eq_true.1 hmarks c hmark

/-- No letter for a base stands behind the first digit. -/
theorem basedNatural?_text (h : n.WellFormed) : basedNatural? n.text = none := by
  obtain ⟨c, t, hwhole, -⟩ := exists_cons h
  have hsecond : ∀ d ∈ (t ++ n.fractionText ++ n.exponentText).head?, lowerUnit d ∉ [unit 'x', unit 'o', unit 'b'] := by
    intro d hd
    cases t with
    | cons d' t =>
      cases hd
      exact lowerUnit_of_isDigit (h.whole d (hwhole ▸ List.mem_cons_of_mem _ (List.mem_cons_self ..)))
    | nil =>
      unfold fractionText exponentText at hd
      split at hd <;> split at hd <;> cases hd <;> decide
  rw [text, hwhole, List.cons_append, List.cons_append]
  cases htail : t ++ n.fractionText ++ n.exponentText with
  | nil => rfl
  | cons d u =>
    have hd := hsecond d (by rw [htail]; rfl)
    simp only [List.mem_cons, List.not_mem_nil, or_false, not_or] at hd
    simp only [basedNatural?, hd, if_false, ite_self]

theorem exponentPart?_text : exponentPart? n.exponentText = some (n.exponent.getD 0) := by
  unfold exponentText
  cases n.exponent with
  | none => rfl
  | some e =>
    have hdigits : (ofNat e.natAbs).all (isDigitOf 10) = true :=
      List.all_eq_true.2 fun c hc => isDigitOf_ten (ofNat_digits _ c hc)
    have hmark : lowerUnit (unit 'e') = unit 'e' := by decide
    have hsign : takeSign (unit (if e < 0 then '-' else '+') :: ofNat e.natAbs) = (decide (e < 0), ofNat e.natAbs) := by
      by_cases he : e < 0
      · rw [if_pos he, decide_eq_true he]
        rfl
      · rw [if_neg he, decide_eq_false he]
        rfl
    simp only [exponentPart?, hmark, if_true, hsign, value?, value_ofNat]
    rw [if_pos ⟨ofNat_ne_nil _, hdigits⟩]
    show some (if decide (e < 0) = true then -(e.natAbs : Int) else e.natAbs) = some e
    rw [Option.some_inj]
    split <;> rename_i he <;> rw [decide_eq_true_eq] at he <;> omega

theorem unsignedDecimal?_text (h : n.WellFormed) : Double.unsignedDecimal? false n.text = some n.toDouble := by
  have hends : EndsDigits (n.fractionText ++ n.exponentText) := by
    have hends := Json.endsDigits_fractionText (n := n) EndsNumber.nil
    rwa [List.append_nil] at hends
  obtain ⟨htake, hdrop⟩ := takeWhile_digits h.whole hends
  have hne := h.whole_ne
  unfold Double.unsignedDecimal?
  rw [text, List.append_assoc]
  simp only [htake, hdrop]
  by_cases hfraction : n.fraction = []
  · have hpoint : n.fractionText = [] := if_pos hfraction
    have hexponent := exponentPart?_text (n := n)
    have hhead : ∀ d ∈ n.exponentText.head?, d ≠ unit '.' := by
      unfold exponentText
      split
      · nofun
      · rintro d ⟨⟩
        decide
    rw [hpoint, List.nil_append, toDouble, hfraction]
    generalize n.exponentText = t at hexponent hhead
    cases t with
    | nil => simp only [hne, false_and, if_false, hexponent, Option.map_some]
    | cons d t => simp only [if_neg (hhead d rfl), hne, false_and, if_false, hexponent, Option.map_some]
  · have hpoint : n.fractionText = unit '.' :: n.fraction := if_neg hfraction
    have hends : EndsDigits n.exponentText := by
      have hends := Json.endsDigits_exponentText (n := n) EndsNumber.nil
      rwa [List.append_nil] at hends
    obtain ⟨htake, hdrop⟩ := takeWhile_digits h.fraction hends
    simp only [hpoint, List.cons_append, if_true, htake, hdrop, hne, false_and, if_false, exponentPart?_text,
      Option.map_some]
    rfl

/-- A numeral reads as its decimal. -/
theorem read_text (h : n.WellFormed) : Double.read n.text = n.toDouble := by
  obtain ⟨c, t, hwhole, hc⟩ := exists_cons h
  have htext : n.text = c :: (t ++ n.fractionText ++ n.exponentText) := by
    rw [text, hwhole, List.cons_append, List.cons_append]
  have hletter : n.text ≠ Text.ofString "Infinity" := by
    rw [htext]
    intro heq
    rw [(List.cons.inj heq).1] at hc
    exact absurd hc (by decide)
  unfold Double.read Double.read?
  simp only [trim_eq (not_isBlank h), basedNatural?_text h]
  rw [if_neg (by rw [htext]; exact List.cons_ne_nil _ _)]
  have hsign : takeSign n.text = (false, n.text) := by
    rw [htext, takeSign_digits hc]
  simp only [hsign, if_neg hletter, unsignedDecimal?_text h, Option.getD_some]

/-- At the head of a JSON text a numeral reads as its decimal. -/
theorem readNumber_text (h : n.WellFormed) (hminimal : n.Minimal) {rest : Text} (hrest : EndsNumber rest) :
    Json.readNumber (n.text ++ rest) = some (n.toDouble, rest) := by
  obtain ⟨c, t, hwhole, hc⟩ := exists_cons h
  have hminus : c ≠ unit '-' := by
    rintro rfl
    exact absurd hc (by decide)
  have htext : n.text ++ rest = c :: (t ++ (n.fractionText ++ (n.exponentText ++ rest))) := by
    rw [text, hwhole]
    simp only [List.append_assoc, List.cons_append]
  have hreadWhole : Json.readWhole (c :: (t ++ (n.fractionText ++ (n.exponentText ++ rest)))) =
      some (n.whole, n.fractionText ++ (n.exponentText ++ rest)) := by
    have hread := Json.readWhole_append h hminimal (Json.endsDigits_fractionText (n := n) hrest)
    rwa [hwhole] at hread ⊢
  unfold Json.readNumber
  simp only [htext, if_neg hminus, hreadWhole, Json.readFraction_append h hrest, Json.readExponent_append hrest,
    Option.bind_eq_bind, Option.bind_some, List.nil_append]
  exact congrArg (fun x => some (x, rest)) (read_text h)

/-! ## The layout of a number -/

/-- The digits with the point behind the first `point` of them, as `Layout.plain` places it. -/
def place (s : Text) (point : Int) : Numeral :=
  if s.length ≤ point ∧ point ≤ 21 then ⟨s ++ Layout.zeros (point - s.length), [], none⟩
  else if 0 < point ∧ point ≤ 21 then ⟨s.take point.toNat, s.drop point.toNat, none⟩
  else if -6 < point ∧ point ≤ 0 then ⟨[unit '0'], Layout.zeros (-point) ++ s, none⟩
  else ⟨s.take 1, s.drop 1, some (point - 1)⟩

variable {s : Text} {point : Int}

/-- The text of a numeral with a fraction and without an exponent. -/
theorem text_of_fraction {whole fraction : Text} (h : fraction ≠ []) :
    text ⟨whole, fraction, none⟩ = whole ++ (unit '.' :: fraction) := by
  simp only [text, fractionText, exponentText, if_neg h, List.append_nil]

theorem plain_place (s : Text) (point : Int) : Layout.plain.place s point =
    if s.length ≤ point ∧ point ≤ 21 then s ++ Layout.zeros (point - s.length)
    else if 0 < point ∧ point ≤ 21 then s.take point.toNat ++ "." ++ s.drop point.toNat
    else if -6 < point ∧ point ≤ 0 then "0." ++ Layout.zeros (-point) ++ s
    else s.take 1 ++ (if s.length = (1 : Int) then [] else unit '.' :: s.drop 1) ++ "e" ++
      (if point - 1 < 0 then ofString "-" else ofString "+") ++ ofNat (point - 1).natAbs := rfl

theorem place_text (hs : s ≠ []) : Layout.plain.place s point = (place s point).text := by
  have hlength : 0 < s.length := List.length_pos_iff.2 hs
  rw [plain_place, place]
  by_cases hwhole : s.length ≤ point ∧ point ≤ 21
  · simp only [if_pos hwhole, text, fractionText, exponentText, if_true, List.append_nil]
  simp only [if_neg hwhole]
  by_cases hmiddle : 0 < point ∧ point ≤ 21
  · have hdrop : s.drop point.toNat ≠ [] := by
      rw [Ne, List.drop_eq_nil_iff]
      omega
    simp only [if_pos hmiddle, text_of_fraction hdrop]
    exact List.append_assoc ..
  simp only [if_neg hmiddle]
  by_cases hfraction : -6 < point ∧ point ≤ 0
  · have hne : Layout.zeros (-point) ++ s ≠ [] := List.append_ne_nil_of_right_ne_nil _ hs
    simp only [if_pos hfraction, text_of_fraction hne]
    exact List.append_assoc ..
  simp only [if_neg hfraction]
  have hone : (s.length : Int) = 1 ↔ s.drop 1 = [] := by
    rw [List.drop_eq_nil_iff]
    omega
  have hsign : (if point - 1 < 0 then ofString "-" else ofString "+") =
      [unit (if point - 1 < 0 then '-' else '+')] := by
    split <;> rfl
  simp only [text, fractionText, exponentText, hone, hsign, List.append_assoc]
  rfl

theorem zeros_digits (k : Int) : ∀ c ∈ Layout.zeros k, isDigit c = true := by
  intro c hc
  rw [List.eq_of_mem_replicate hc]
  decide

theorem place_wellFormed (hs : ∀ c ∈ s, isDigit c = true) (hne : s ≠ []) (hhead : s.head? ≠ some (unit '0')) :
    (place s point).WellFormed ∧ (place s point).Minimal := by
  obtain ⟨c, t, rfl⟩ := List.exists_cons_of_ne_nil hne
  unfold place
  split_ifs with hwhole hmiddle hfraction
  · exact ⟨⟨List.forall_mem_append.2 ⟨hs, zeros_digits _⟩, List.forall_mem_nil _, List.cons_ne_nil _ _⟩, .inr hhead⟩
  · obtain ⟨k, hk⟩ : ∃ k, point.toNat = k + 1 := ⟨point.toNat - 1, by omega⟩
    rw [hk]
    exact ⟨⟨fun d hd => hs d (List.mem_of_mem_take hd), fun d hd => hs d (List.mem_of_mem_drop hd),
      List.cons_ne_nil _ _⟩, .inr hhead⟩
  · have hzero : isDigit (unit '0') = true := by decide
    exact ⟨⟨List.forall_mem_singleton.2 hzero, List.forall_mem_append.2 ⟨zeros_digits _, hs⟩, List.cons_ne_nil _ _⟩,
      .inl rfl⟩
  · exact ⟨⟨fun d hd => hs d (List.mem_of_mem_take hd), fun d hd => hs d (List.mem_of_mem_drop hd),
      List.cons_ne_nil _ _⟩, .inr hhead⟩

/-- Wherever the point stands, the numeral is the same decimal. -/
theorem place_toDouble (hne : s ≠ []) :
    (place s point).toDouble = .ofDecimal false (value 10 s) (point - s.length) := by
  have hlength : 0 < s.length := List.length_pos_iff.2 hne
  unfold place toDouble
  split_ifs with hwhole hmiddle hfraction
  · obtain ⟨k, hk⟩ : ∃ k : Nat, point - s.length = k := ⟨(point - s.length).toNat, by omega⟩
    simp only [List.append_nil, Layout.zeros, hk, Int.toNat_natCast, value_append_zeros, Double.ofDecimal_eq]
    simp
  · have hrest : (0 : Int) - (s.drop point.toNat).length = point - s.length := by
      rw [List.length_drop]
      omega
    simp only [List.take_append_drop, Option.getD_none, hrest]
  · have hrest : (0 : Int) - (Layout.zeros (-point) ++ s).length = point - s.length := by
      rw [List.length_append, Layout.zeros, List.length_replicate]
      omega
    have hvalue : value 10 ([unit '0'] ++ (Layout.zeros (-point) ++ s)) = value 10 s :=
      (value_zeros_append 1 _).trans (value_zeros_append _ s)
    simp only [Option.getD_none, hrest, hvalue]
  · have hrest : point - 1 - (s.drop 1).length = point - s.length := by
      rw [List.length_drop]
      omega
    simp only [List.take_append_drop, Option.getD_some, hrest]

end Numeral

/-- A finite number is written as a numeral that is nearest to it of all numbers. -/
theorem Double.Canonical.exists_numeral {m : Nat} {e : Int} (h : Canonical m e) :
    ∃ n : Numeral, n.WellFormed ∧ n.Minimal ∧ Json.writeNumber (.finite false m e) = n.text ∧
      n.toDouble = .finite false m e := by
  by_cases hm : m = 0
  · subst hm
    have he : e = leastExponent := h.full.resolve_left (by decide)
    have hzero : Text.isDigit (Text.unit '0') = true := by decide
    refine ⟨⟨[Text.unit '0'], [], none⟩, ⟨List.forall_mem_singleton.2 hzero, List.forall_mem_nil _,
      List.cons_ne_nil _ _⟩, .inl rfl, rfl, ?_⟩
    rw [he]
    rfl
  · have hdigits := shortest_digits_ne_zero h hm
    have hne := Text.ofNat_ne_nil (shortest m e).digits
    have hwrite : Json.writeNumber (.finite false m e) =
        Layout.plain.place (Text.ofNat (shortest m e).digits)
          ((Text.ofNat (shortest m e).digits).length + (shortest m e).exponent) := if_neg hm
    obtain ⟨hformed, hminimal⟩ := Numeral.place_wellFormed (Text.ofNat_digits _) hne (Text.ofNat_head hdigits)
    refine ⟨Numeral.place _ _, hformed, hminimal, hwrite.trans (Numeral.place_text hne), ?_⟩
    rw [Numeral.place_toDouble hne, Text.value_ofNat, add_sub_cancel_left]
    exact shortest_reads h hm

end Stencil
