/-
The places of tokens are those of their offsets. A place is kept up to date unit by unit while a source is
scanned; `Location.TrueIn` says what it should be, counted in the source itself, and it is that for both
ends of every token (`Layout.places_true`) and for every mistake of the scan (`tokensFrom_error_true`).
-/
import Mathlib.Data.List.Induction
import Stencil.Proofs.Layout.Basic

namespace Stencil

/-! ## Places and offsets -/

namespace Location

/-- The location is the place of its offset: the lines are counted by the line feeds before it, the
columns by the units behind the last of them. -/
def TrueIn (source : Text) (l : Location) : Prop :=
  l.offset ≤ source.length ∧ l.line = 1 + (source.take l.offset).count (Text.unit '\n') ∧
    l.column = 1 + ((source.take l.offset).reverse.takeWhile (· ≠ Text.unit '\n')).length

theorem column_origin_after (t : Text) :
    (origin.after t).column = 1 + (t.reverse.takeWhile (· ≠ Text.unit '\n')).length := by
  -- a line feed at the end begins a line, so the induction is on the units from the last one on
  induction t using List.reverseRecOn with
  | nil => rfl
  | append_singleton t c ih =>
    rw [after_append, List.reverse_append, List.reverse_singleton, List.singleton_append, List.takeWhile_cons]
    show ((origin.after t).next c).column = _
    unfold next
    by_cases hc : c = Text.unit '\n'
    · rw [if_pos hc, if_neg (by rw [decide_eq_true_eq]; exact not_not_intro hc)]
      rfl
    · rw [if_neg hc, if_pos (decide_eq_true hc), List.length_cons, ih]
      exact Nat.add_assoc ..

/-- The place behind a beginning of a source. -/
theorem trueIn_after (before rest : Text) : (origin.after before).TrueIn (before ++ rest) := by
  have hoffset : (origin.after before).offset = before.length := by rw [offset_after]; exact Nat.zero_add _
  have htake : (before ++ rest).take (origin.after before).offset = before := by
    rw [hoffset, List.take_left]
  refine ⟨?_, ?_, ?_⟩
  · rw [hoffset, List.length_append]
    exact Nat.le_add_right ..
  · rw [htake, line_after]
    rfl
  · rw [htake, column_origin_after]

end Location

/-- Both ends of the span are true. -/
def Span.TrueIn (source : Text) (s : Span) : Prop := s.start.TrueIn source ∧ s.finish.TrueIn source

/-- The mistake has a true location, and the name of the template. -/
def Diagnostic.TrueIn (source : Text) (filename : Option Text) (d : Diagnostic) : Prop :=
  (∃ l, d.location = some l ∧ l.TrueIn source) ∧ d.filename = filename

namespace Scan

/-- A place is where a text at the end of the source begins. -/
def Begins (source : Text) (l : Location) (text : Text) : Prop :=
  ∃ before, source = before ++ text ∧ l = Location.origin.after before

variable {d : Delimiters} {filename : Option Text} {source w rest text : Text} {z : Zone} {l : Location}
  {ts : List Token} {r : Step} {s s' : State}

theorem Begins.trueIn (h : Begins source l text) : l.TrueIn source := by
  obtain ⟨before, rfl, rfl⟩ := h
  exact Location.trueIn_after before text

theorem Begins.behind (h : Begins source l (w ++ rest)) : Begins source (l.after w) rest := by
  obtain ⟨before, rfl, rfl⟩ := h
  exact ⟨before ++ w, (List.append_assoc ..).symm, (Location.after_append ..).symm⟩

/-- Behind the white space at a place. -/
theorem Begins.skip (h : Begins source l text) (p : CodeUnit → Bool) :
    Begins source (l.after (text.takeWhile p)) (text.dropWhile p) := by
  rw [← List.takeWhile_append_dropWhile (p := p) (l := text)] at h
  exact h.behind

/-! ## Tokens -/

theorem Layout.places_true (h : Layout d z l text ts) (hl : Begins source l text) :
    ∀ t ∈ ts, t.span.TrueIn source := by
  induction h with
  | finish l =>
    intro t ht
    rw [List.mem_singleton.1 ht]
    exact ⟨hl.trueIn, hl.trueIn⟩
  | token _ _ _ hs _ ih =>
    refine List.forall_mem_cons.2 ⟨?_, ih hl.behind⟩
    rw [hs]
    exact ⟨hl.trueIn, hl.behind.trueIn⟩
  | spacing _ _ _ ih => exact ih hl.behind
  | comment _ _ _ _ ih => exact ih hl.behind
  | raw _ _ _ _ _ ih =>
    refine List.forall_mem_append.2 ⟨fun t ht => ?_, ih hl.behind⟩
    rw [List.append_assoc] at hl
    have hbody := hl.behind
    rw [List.append_assoc] at hbody
    rw [(mem_dataTokens.1 ht).2]
    exact ⟨hbody.trueIn, hbody.behind.trueIn⟩

/-! ## Mistakes -/

/-- The state is where its text begins, and a tag that is open was opened at a true place. -/
def State.TrueIn (source : Text) (s : State) : Prop :=
  Begins source s.place s.rest ∧
    ∀ tag opened closers afterDot, s.mode = .inside tag opened closers afterDot → opened.TrueIn source

theorem unclosed_true {construct expected : Text} (h : l.TrueIn source) :
    (unclosed filename construct expected l).TrueIn source filename := ⟨⟨l, rfl, h⟩, rfl⟩

theorem faultDiagnostic_true (f : Lexeme.Fault) (h : l.TrueIn source) :
    (faultDiagnostic filename l f).TrueIn source filename := by
  cases f <;> exact ⟨⟨l, rfl, h⟩, rfl⟩

/-- What a step comes to is true: the mistake, or the place where a tag was opened that is open behind it. -/
def Sound (source : Text) (filename : Option Text) : Except Diagnostic Step → Prop
  | .error e => e.TrueIn source filename
  | .ok r => ∀ s, r.next = some s →
      ∀ tag opened closers afterDot, s.mode = .inside tag opened closers afterDot → opened.TrueIn source

theorem lexemeStep_sound {mode : TokenKind → Mode} {afterDot : Bool} (hl : l.TrueIn source)
    (hmode : ∀ k tag opened closers dot, mode k = .inside tag opened closers dot → opened.TrueIn source) :
    Sound source filename (lexemeStep filename mode afterDot l rest) := by
  unfold lexemeStep
  split
  · rintro _ ⟨⟩
    exact hmode _
  · exact faultDiagnostic_true _ hl

theorem openerStep_sound (hl : l.TrueIn source) (o : Option Delimiters.Opener) :
    Sound source filename (openerStep d filename l rest o) := by
  have opened (tag : Tag) (k : TokenKind) (v : Text) :
      Sound source filename (.ok (take k v v (.inside tag l [] false) l rest)) := by
    rintro _ ⟨⟩ _ _ _ _ ⟨⟩
    exact hl
  cases o with
  | none => rintro _ ⟨⟩
  | some o =>
    cases o with
    | interpolation => exact opened _ _ _
    | comment =>
      simp only [openerStep]
      split
      · rintro _ ⟨⟩ _ _ _ _ ⟨⟩
      · exact unclosed_true hl
    | block =>
      simp only [openerStep]
      split
      · split
        · rintro _ ⟨⟩ _ _ _ _ ⟨⟩
        · exact unclosed_true hl
      · exact opened _ _ _

theorem step_sound (h : s.TrueIn source) : Sound source filename (s.step d filename) := by
  obtain ⟨hplace, hopened⟩ := h
  have hskip := (hplace.skip Text.isSpacing).trueIn
  unfold State.step
  split
  · have hbehind : Begins source (s.place.after (d.splitData s.rest).1) (d.splitData s.rest).2 := by
      rw [← d.splitData_append s.rest] at hplace
      exact hplace.behind
    have hsound : Sound source filename (openerStep d filename (s.place.after (d.splitData s.rest).1)
        (d.splitData s.rest).2 (d.opener? (d.splitData s.rest).2)) := openerStep_sound hbehind.trueIn _
    simp only
    revert hsound
    cases openerStep d filename (s.place.after (d.splitData s.rest).1) (d.splitData s.rest).2
        (d.opener? (d.splitData s.rest).2) <;> exact id
  · rename_i tag opened closers afterDot hm
    have htag := hopened tag opened closers afterDot hm
    simp only
    split
    · exact unclosed_true htag
    · split
      · rintro _ ⟨⟩
        nofun
      · refine lexemeStep_sound hskip ?_
        rintro k _ _ _ _ ⟨⟩
        exact htag
  · simp only
    split
    · nofun
    · exact lexemeStep_sound hskip nofun

/-- A step leads from one true state to another. -/
theorem step_true (hd : d.Sound) (h : s.TrueIn source) (hr : s.step d filename = .ok r) (hs : r.next = some s') :
    s'.TrueIn source := by
  have hsound : Sound source filename (s.step d filename) := step_sound h
  rw [hr] at hsound
  obtain ⟨w, hw, hplace⟩ := step_reads hd hr hs
  refine ⟨?_, hsound s' hs⟩
  obtain ⟨hbegins, -⟩ := h
  rw [hw] at hbegins
  rw [hplace]
  exact hbegins.behind

theorem tokensFrom_error_true (hd : d.Sound) {e : Diagnostic} (h : s.TrueIn source)
    (he : tokensFrom d hd filename s = .error e) : e.TrueIn source filename := by
  fun_induction tokensFrom d hd filename s with
  | case1 s e' hstep =>
    cases he
    have hsound : Sound source filename (s.step d filename) := step_sound h
    rwa [hstep] at hsound
  | case2 => cases he
  | case3 s r hr s' hn ih =>
    cases hrest : tokensFrom d hd filename s' with
    | ok us => rw [hrest] at he; cases he
    | error e' =>
      rw [hrest] at he
      cases he
      exact ih (step_true hd h hr hn) hrest

end Scan
end Stencil
