/-
The place at the end of a message. An ending ` at line:column` comes off a text as a whole (`dropPlace_append`), and
a text that has none stays as it is (`dropPlace_eq_self_iff`). What a diagnostic adds for its place is such an ending
as long as line and column are written by digits alone (`endsInPlace_placeText_iff`). So a diagnostic with such a place
answers with the message it was made with, and one without a place does unless that message itself ends like a place
(`makeCode_baseMessage`).
-/
import Stencil.Diagnostic.Basic
import Stencil.Proofs.Number.Natural

namespace Stencil

/-- Two texts that agree are cut alike at the last place of a unit. -/
theorem Text.append_cons_inj {c : CodeUnit} {s t s' t' : Text} (ht : c ∉ t) (ht' : c ∉ t')
    (h : s ++ c :: t = s' ++ c :: t') : s = s' ∧ t = t' := by
  have hnil {t u t' : Text} (ht : c ∉ t) (hu : c :: t = u ++ c :: t') : u = [] := by
    cases u with
    | nil => rfl
    | cons d u =>
      obtain ⟨-, rfl⟩ := List.cons.inj hu
      exact absurd (List.mem_append_right u (List.mem_cons_self ..)) ht
  rcases List.append_eq_append_iff.1 h with ⟨u, rfl, hu⟩ | ⟨u, rfl, hu⟩
  · obtain rfl := hnil ht hu
    exact ⟨(List.append_nil s).symm, (List.cons.inj hu).2⟩
  · obtain rfl := hnil ht' hu
    exact ⟨List.append_nil s', (List.cons.inj hu).2.symm⟩

/-- Line and column are below the least number that rounds to one written with an exponent. -/
def Location.IsPlain (l : Location) : Prop := l.line < 10 ^ 21 - 2 ^ 16 ∧ l.column < 10 ^ 21 - 2 ^ 16

instance (l : Location) : Decidable l.IsPlain := inferInstanceAs (Decidable (_ ∧ _))

namespace Diagnostic

/-! ## Endings -/

/-- A run of digits, not empty. -/
def IsNumber (t : Text) : Prop := t ≠ [] ∧ ∀ c ∈ t, Text.isDigit c = true

/-- An ending ` at line:column`, whichever the digits. -/
def IsPlace (p : Text) : Prop :=
  ∃ line column : Text, IsNumber line ∧ IsNumber column ∧ p = " at " ++ (line ++ (":" ++ column))

/-- The text ends like a place. -/
def EndsInPlace (t : Text) : Prop := ∃ base p : Text, IsPlace p ∧ t = base ++ p

theorem IsPlace.ne_nil {p : Text} (hp : IsPlace p) : p ≠ [] := by
  obtain ⟨line, column, -, -, rfl⟩ := hp
  exact List.cons_ne_nil _ _

theorem IsNumber.reverse {t : Text} (h : IsNumber t) : IsNumber t.reverse :=
  ⟨mt List.reverse_eq_nil_iff.1 h.1, fun c hc => h.2 c (List.mem_reverse.1 hc)⟩

theorem IsNumber.notMem {t : Text} (h : IsNumber t) {c : CodeUnit} (hc : Text.isDigit c = false) : c ∉ t :=
  fun hmem => Bool.false_ne_true (hc.symm.trans (h.2 c hmem))

/-- What a run of digits at the head of a text leaves, when something else follows. -/
theorem IsNumber.takeWhile {t : Text} (h : IsNumber t) {c : CodeUnit} (hc : Text.isDigit c = false) (rest : Text) :
    (t ++ c :: rest).takeWhile Text.isDigit = t ∧ (t ++ c :: rest).dropWhile Text.isDigit = c :: rest :=
  Text.takeWhile_digits h.2 fun d hd => by
    cases hd
    exact hc

/-- A text with a place at its end, read from the end. -/
theorem reverse_append_place (t line column : Text) :
    (t ++ (" at " ++ (line ++ (":" ++ column))) : Text).reverse =
      column.reverse ++ Text.unit ':' :: (line.reverse ++ ((Text.ofString " at ").reverse ++ t.reverse)) := by
  simp [show Text.ofString ":" = [Text.unit ':'] from rfl]

/-- The place at the end of a text comes off as a whole, and nothing else does. -/
theorem dropPlace_append (t : Text) {p : Text} (hp : IsPlace p) : dropPlace (t ++ p) = t := by
  obtain ⟨line, column, hline, hcolumn, rfl⟩ := hp
  have hat : (Text.ofString " at ").reverse ++ t.reverse =
      Text.unit ' ' :: ((Text.ofString " at").reverse ++ t.reverse) := rfl
  have hlead : Text.after? (Text.ofString " at ").reverse ((Text.ofString " at ").reverse ++ t.reverse) =
      some t.reverse := Text.after?_eq_some.2 rfl
  obtain ⟨hcolumns, hrest⟩ := hcolumn.reverse.takeWhile (c := Text.unit ':') (by decide)
    (line.reverse ++ ((Text.ofString " at ").reverse ++ t.reverse))
  obtain ⟨hlines, hbase⟩ := hline.reverse.takeWhile (c := Text.unit ' ') (by decide)
    ((Text.ofString " at").reverse ++ t.reverse)
  rw [← hat] at hlines hbase
  unfold dropPlace
  simp only [reverse_append_place, hcolumns, hrest, hlines, hbase, hlead, hcolumn.reverse.1, hline.reverse.1, ne_eq,
    not_true_eq_false, or_self, if_false, List.reverse_reverse]

/-- What comes off a text is a place. -/
theorem dropPlace_eq_or (t : Text) : dropPlace t = t ∨ ∃ p, IsPlace p ∧ t = dropPlace t ++ p := by
  have hnumber {u : Text} (hu : ¬u.takeWhile Text.isDigit = []) : IsNumber (u.takeWhile Text.isDigit).reverse :=
    IsNumber.reverse ⟨hu, List.all_eq_true.1 List.all_takeWhile⟩
  fun_cases dropPlace t with
  | case1 => exact .inl rfl
  | case2 => exact .inl rfl
  | case3 => exact .inl rfl
  | case4 r column c back hback hcolumn hline rest hrest =>
    obtain ⟨hcolumn, hc⟩ := not_or.1 hcolumn
    rw [ne_eq, Decidable.not_not] at hc
    refine .inr ⟨_, ⟨_, _, hnumber hline, hnumber hcolumn, rfl⟩, ?_⟩
    have hwhole := List.takeWhile_append_dropWhile (p := Text.isDigit) (l := t.reverse)
    have hinner := List.takeWhile_append_dropWhile (p := Text.isDigit) (l := back)
    rw [Text.after?_eq_some.1 hrest] at hinner
    rw [hback, hc, ← hinner] at hwhole
    rw [← List.reverse_inj, reverse_append_place, List.reverse_reverse, List.reverse_reverse, List.reverse_reverse]
    exact hwhole.symm
  | case5 => exact .inl rfl

/-- A text stays as it is just when it does not end like a place. -/
theorem dropPlace_eq_self_iff (t : Text) : dropPlace t = t ↔ ¬EndsInPlace t := by
  constructor
  · rintro hsame ⟨base, p, hp, rfl⟩
    rw [dropPlace_append base hp, List.self_eq_append_right] at hsame
    exact hp.ne_nil hsame
  · intro hno
    rcases dropPlace_eq_or t with hsame | ⟨p, hp, ht⟩
    · exact hsame
    · exact absurd ⟨_, p, hp, ht⟩ hno

/-! ## The ending for a place -/

theorem placeText_eq (l : Location) :
    placeText l = " at " ++ (Double.natText l.line ++ (":" ++ Double.natText l.column)) := by
  rw [placeText, Location.text, List.append_assoc]

/-- Safe numbers are written as they are. -/
theorem placeText_safe {l : Location} (hline : l.line ≤ 2 ^ 53 - 1) (hcolumn : l.column ≤ 2 ^ 53 - 1) :
    placeText l = " at " ++ (Text.ofString l.line.repr ++ (":" ++ Text.ofString l.column.repr)) := by
  rw [placeText_eq, Double.natText_safe hline, Double.natText_safe hcolumn, Text.ofNat_eq_ofString,
    Text.ofNat_eq_ofString]

theorem isNumber_natText {n : Nat} (h : n < 10 ^ 21 - 2 ^ 16) : IsNumber (Double.natText n) := by
  obtain ⟨k, hk⟩ := Double.natText_of_lt h
  rw [hk]
  exact ⟨Text.ofNat_ne_nil k, Text.ofNat_digits k⟩

theorem isPlace_placeText {l : Location} (h : l.IsPlain) : IsPlace (placeText l) :=
  ⟨_, _, isNumber_natText h.1, isNumber_natText h.2, placeText_eq l⟩

/-- What is added for a place makes a message end like one just when it is written by digits alone. -/
theorem endsInPlace_placeText_iff (message : Text) (l : Location) :
    EndsInPlace (message ++ placeText l) ↔ l.IsPlain := by
  constructor
  · rintro ⟨base, p, ⟨line, column, hline, hcolumn, rfl⟩, h⟩
    have hcut (t u v : Text) : t ++ (" at " ++ (u ++ (":" ++ v))) =
        ((t ++ " at") ++ Text.unit ' ' :: u) ++ Text.unit ':' :: v := by
      simp only [List.append_assoc]
      rfl
    rw [placeText_eq, hcut, hcut] at h
    -- The colon is the last one of either text, and the blank the last one before it.
    obtain ⟨h, hcolumns⟩ := Text.append_cons_inj (Double.natText_units _).2 (hcolumn.notMem (by decide)) h
    obtain ⟨-, hlines⟩ := Text.append_cons_inj (Double.natText_units _).1 (hline.notMem (by decide)) h
    rw [← hlines] at hline
    rw [← hcolumns] at hcolumn
    exact ⟨(Double.natText_digits_iff _).1 hline.2, (Double.natText_digits_iff _).1 hcolumn.2⟩
  · exact fun h => ⟨message, _, isPlace_placeText h, rfl⟩

/-- The ending for a place comes off again just when it is written by digits alone. -/
theorem dropPlace_placeText_iff (message : Text) (l : Location) :
    dropPlace (message ++ placeText l) = message ↔ l.IsPlain := by
  constructor
  · intro hbase
    by_contra hplain
    have hsame := (dropPlace_eq_self_iff _).2 (mt (endsInPlace_placeText_iff message l).1 hplain)
    rw [hsame, List.append_right_eq_self, placeText_eq] at hbase
    cases hbase
  · exact fun h => dropPlace_append message (isPlace_placeText h)

end Diagnostic

/-! ## The message a diagnostic is made with -/

/-- The class reports the mistake: the mistake is of the category of the class, and that of an assertion is a
reserved import. -/
def DiagnosticClass.Reports (kind : DiagnosticClass) (id : ErrorId) : Prop :=
  (∀ c ∈ kind.category?, id.category = c) ∧ (kind = .assertion → id = .reservedImport)

namespace Diagnostic

theorem makeCode_of_reports {kind : DiagnosticClass} {id : ErrorId} (h : kind.Reports id) (message : Text)
    (location : Option Location) (context : Option MessageContext) (filename : Option Text) :
    makeCode kind id.code message location context filename = .ok (make kind id message location context filename) := by
  have hcode : (if kind = .assertion then ErrorId.reservedImport.code else id.code) = id.code := by
    split
    · rename_i hassertion
      rw [h.2 hassertion]
    · rfl
  unfold makeCode
  simp only [hcode, ErrorId.ofCode?_code]
  cases hc : kind.category? with
  | none => rfl
  | some c => exact if_pos (h.1 c hc)

/-- A diagnostic made of a mistake that its class reports keeps what it is given, and its message ends with its place,
if it has one. Its message without the place is the message it is made with just when line and column of the place are
written by digits alone, or there is no place and that message does not end like one. Otherwise the ending of the
message is missing from it, or the place is still there. -/
theorem makeCode_baseMessage {kind : DiagnosticClass} {id : ErrorId} (h : kind.Reports id) (message : Text)
    (location : Option Location) (context : Option MessageContext) (filename : Option Text) :
    ∃ d, makeCode kind id.code message location context filename = .ok d ∧
      (d.kind = kind ∧ d.id = id ∧ d.location = location ∧ d.context = context ∧ d.filename = filename) ∧
      d.message = message ++ (location.map placeText).getD [] ∧
      (∀ l, location = some l → l.line ≤ 2 ^ 53 - 1 → l.column ≤ 2 ^ 53 - 1 →
        placeText l = " at " ++ (Text.ofString l.line.repr ++ (":" ++ Text.ofString l.column.repr))) ∧
      (d.baseMessage = message ↔ match location with
        | none => ¬EndsInPlace message
        | some l => l.IsPlain) ∧
      (∀ base p, location = none → IsPlace p → message = base ++ p → d.baseMessage = base) ∧
      ∀ l, location = some l → ¬l.IsPlain → d.baseMessage = d.message := by
  refine ⟨_, makeCode_of_reports h .., ⟨rfl, rfl, rfl, rfl, rfl⟩, rfl, fun l _ => placeText_safe, ?_, ?_, ?_⟩
  · cases location with
    | none =>
      have hbase : (make kind id message none context filename).baseMessage = dropPlace message :=
        congrArg dropPlace (List.append_nil message)
      rw [hbase]
      exact dropPlace_eq_self_iff message
    | some l => exact dropPlace_placeText_iff message l
  · rintro base p rfl hp rfl
    exact (congrArg dropPlace (List.append_nil _)).trans (dropPlace_append base hp)
  · rintro l rfl hplain
    exact (dropPlace_eq_self_iff _).2 (mt (endsInPlace_placeText_iff message l).1 hplain)

theorem makeCode_baseMessage_assertion : DiagnosticClass.assertion.Reports .reservedImport ∧
    ∃ d, makeCode .assertion "KILN-P004" "private at 1:2" (some ⟨3, 5, 40⟩) none none = .ok d ∧
      d.baseMessage = "private at 1:2" := by
  have hreports : DiagnosticClass.assertion.Reports .reservedImport := by
    refine ⟨fun c hc => ?_, fun _ => rfl⟩
    cases hc
    rfl
  have hplain : Location.IsPlain ⟨3, 5, 40⟩ := by decide
  obtain ⟨d, hd, -, -, -, hbase, -⟩ :=
    makeCode_baseMessage hreports "private at 1:2" (some ⟨3, 5, 40⟩) none none
  exact ⟨hreports, d, hd, hbase.2 hplain⟩

/-- A message that itself ends like a place loses that ending when the diagnostic has no place. -/
theorem baseMessage_without_place :
    ∃ d, makeCode .general ErrorId.missingCall.code "Expected call at 3:5" none none none = .ok d ∧
      d.location = none ∧ d.message = "Expected call at 3:5" ∧ d.baseMessage = "Expected call" ∧
      d.baseMessage ≠ "Expected call at 3:5" :=
  ⟨_, rfl, rfl, by decide, by decide, by decide⟩

end Diagnostic
end Stencil
