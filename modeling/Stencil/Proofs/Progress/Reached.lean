/-
The states that a scan comes to. What a scan gives from its start on ends with what it gives from there on, and a
mistake that it finds from there on is not in front of the place it has come to, a tag that is never closed apart.
Behind white space such a state may stand before a token of an expression (`State.AtToken`).
-/
import Stencil.Proofs.Progress.Scan

namespace Stencil.Scan

/-- A scan comes from one state to another, in any number of steps. -/
inductive Reaches (d : Delimiters) (filename : Option Text) (s : State) : State → Prop
  | here : Reaches d filename s s
  | step {s' s'' : State} {r : Step} (h : Reaches d filename s s') (hr : s'.step d filename = .ok r)
      (hn : r.next = some s'') : Reaches d filename s s''

variable {d : Delimiters} {filename : Option Text} {place l : Location} {rest : Text} {s s' s'' : State} {r : Step}
  {e : Diagnostic} {ts : List Token}

/-! ## What is read from a state on -/

theorem Reaches.tokensFrom (h : Reaches d filename s s') (hd : d.Sound) :
    ∃ us, tokensFrom d hd filename s = (tokensFrom d hd filename s').map (us ++ ·) := by
  induction h with
  | here =>
    refine ⟨[], ?_⟩
    cases Scan.tokensFrom d hd filename s <;> rfl
  | @step s' s'' r _ hr hn ih =>
    obtain ⟨us, hus⟩ := ih
    refine ⟨us ++ r.tokens, ?_⟩
    rw [hus, tokensFrom_eq hd s', hr]
    simp only [hn]
    cases Scan.tokensFrom d hd filename s'' with
    | error e => rfl
    | ok vs => exact congrArg Except.ok (List.append_assoc ..).symm

/-- A step that fails where a scan comes is what the scan fails with. -/
theorem Reaches.error (h : Reaches d filename s s') (hd : d.Sound) (he : s'.step d filename = .error e) :
    Scan.tokensFrom d hd filename s = .error e := by
  obtain ⟨us, hus⟩ := h.tokensFrom hd
  rw [hus, tokensFrom_eq, he]
  rfl

/-- The tokens of a step where a scan comes are among those of the scan. -/
theorem Reaches.tokens (h : Reaches d filename s s') (hd : d.Sound) (hr : s'.step d filename = .ok r)
    (ht : Scan.tokensFrom d hd filename s = .ok ts) : r.tokens <:+: ts := by
  obtain ⟨us, hus⟩ := h.tokensFrom hd
  rw [hus, tokensFrom_eq, hr] at ht
  cases hn : r.next with
  | none =>
    simp only [hn] at ht
    cases ht
    exact ⟨us, [], List.append_nil _⟩
  | some s'' =>
    simp only [hn] at ht
    cases hvs : Scan.tokensFrom d hd filename s'' with
    | error e => rw [hvs] at ht; cases ht
    | ok vs =>
      rw [hvs] at ht
      cases ht
      exact ⟨us, vs, List.append_assoc ..⟩

/-! ## Where mistakes are found -/

/-- The place where the tag was opened that is read. -/
def Mode.opened? : Mode → Option Location
  | .inside _ opened _ _ => some opened
  | _ => none

/-- The mistake is at the place of the state or behind it, or it is that the tag that is read is not closed. -/
def State.Finds (s : State) (e : Diagnostic) : Prop :=
  ∃ l, e.location = some l ∧ (s.place.offset ≤ l.offset ∨ e.id = .unclosedTag ∧ s.mode.opened? = some l)

theorem faultDiagnostic_location (f : Lexeme.Fault) : (faultDiagnostic filename l f).location = some l := by
  cases f <;> rfl

theorem lexemeStep_location {mode : TokenKind → Mode} {afterDot : Bool}
    (h : lexemeStep filename mode afterDot place rest = .error e) : e.location = some place := by
  unfold lexemeStep at h
  split at h
  · cases h
  · cases h
    exact faultDiagnostic_location _

theorem openerStep_location {o : Option Delimiters.Opener} (h : openerStep d filename place rest o = .error e) :
    e.location = some place := by
  rcases o with - | - | - | -
  · cases h
  · cases h
  · simp only [openerStep] at h
    split at h
    · split at h
      · cases h
      · cases h; rfl
    · cases h
  · simp only [openerStep] at h
    split at h
    · cases h
    · cases h; rfl

theorem step_finds (h : s.step d filename = .error e) : s.Finds e := by
  obtain ⟨mode, place, rest⟩ := s
  cases mode with
  | outside =>
    simp only [State.step] at h
    cases ho : openerStep d filename (place.after (d.splitData rest).1) (d.splitData rest).2
        (d.opener? (d.splitData rest).2) with
    | ok r => rw [ho] at h; cases h
    | error e' =>
      rw [ho] at h
      cases h
      exact ⟨_, openerStep_location ho, .inl (Location.offset_le_after ..)⟩
  | inside tag opened closers afterDot =>
    simp only [State.step] at h
    split at h
    · cases h
      exact ⟨opened, rfl, .inr ⟨rfl, rfl⟩⟩
    · split at h
      · cases h
      · exact ⟨_, lexemeStep_location h, .inl (Location.offset_le_after ..)⟩
  | bare afterDot =>
    simp only [State.step] at h
    split at h
    · cases h
    · exact ⟨_, lexemeStep_location h, .inl (Location.offset_le_after ..)⟩

theorem openerStep_opened {o : Option Delimiters.Opener} (h : openerStep d filename place rest o = .ok r)
    (hn : r.next = some s) (hl : s.mode.opened? = some l) : l = place := by
  rcases o with - | - | - | -
  · cases h; cases hn
  · cases h; cases hn; cases hl; rfl
  · simp only [openerStep] at h
    split at h
    · split at h
      · cases h; cases hn; cases hl
      · cases h
    · cases h; cases hn; cases hl; rfl
  · simp only [openerStep] at h
    split at h
    · cases h; cases hn; cases hl
    · cases h

theorem lexemeStep_mode {mode : TokenKind → Mode} {afterDot : Bool}
    (h : lexemeStep filename mode afterDot place rest = .ok r) (hn : r.next = some s) : ∃ k, s.mode = mode k := by
  unfold lexemeStep at h
  split at h
  · cases h; cases hn; exact ⟨_, rfl⟩
  · cases h

/-- The tag that is read behind a step is the one that was read, or the step has opened it. -/
theorem step_opened (h : s.step d filename = .ok r) (hn : r.next = some s') (hl : s'.mode.opened? = some l) :
    s.mode.opened? = some l ∨ s.place.offset ≤ l.offset := by
  obtain ⟨mode, place, rest⟩ := s
  cases mode with
  | outside =>
    simp only [State.step] at h
    cases ho : openerStep d filename (place.after (d.splitData rest).1) (d.splitData rest).2
        (d.opener? (d.splitData rest).2) with
    | error e => rw [ho] at h; cases h
    | ok r' =>
      rw [ho] at h
      cases h
      rw [openerStep_opened ho hn hl]
      exact .inr (Location.offset_le_after ..)
  | inside tag opened closers afterDot =>
    simp only [State.step] at h
    split at h
    · cases h
    · split at h
      · cases h; cases hn; cases hl
      · obtain ⟨k, hk⟩ := lexemeStep_mode h hn
        rw [hk] at hl
        exact .inl hl
  | bare afterDot =>
    simp only [State.step] at h
    split at h
    · cases h; cases hn
    · obtain ⟨k, hk⟩ := lexemeStep_mode h hn
      rw [hk] at hl
      cases hl

theorem tokensFrom_finds (hd : d.Sound) (h : tokensFrom d hd filename s = .error e) : s.Finds e := by
  fun_induction tokensFrom d hd filename s with
  | case1 s e' he' =>
    cases h
    exact step_finds he'
  | case2 => cases h
  | case3 s r hr s' hn ih =>
    cases hrest : tokensFrom d hd filename s' with
    | ok us => rw [hrest] at h; cases h
    | error e' =>
      rw [hrest] at h
      cases h
      obtain ⟨l, hloc, hbehind | ⟨hid, hopened⟩⟩ := ih hrest
      · exact ⟨l, hloc, .inl (Nat.le_trans (Nat.le_of_lt (step_forward hd hr hn).1) hbehind)⟩
      · exact ⟨l, hloc, (step_opened hr hn hopened).symm.imp_right (⟨hid, ·⟩)⟩

/-- Behind a step that succeeds, a scan finds mistakes from the next state on only. -/
theorem Reaches.finds (h : Reaches d filename s s') (hd : d.Sound) (hr : s'.step d filename = .ok r)
    (hn : r.next = some s'') (he : Scan.tokensFrom d hd filename s = .error e) : s''.Finds e := by
  obtain ⟨us, hus⟩ := (Reaches.step h hr hn).tokensFrom hd
  rw [hus] at he
  cases hrest : Scan.tokensFrom d hd filename s'' with
  | ok ts => rw [hrest] at he; cases he
  | error e' =>
    rw [hrest] at he
    cases he
    exact tokensFrom_finds hd hrest

/-! ## Before a token -/

/-- What is read behind a token of an expression. -/
def Mode.behind : Mode → TokenKind → Mode
  | .outside, _ => .outside
  | .inside tag opened closers _, k => .inside tag opened (trackBrackets closers k) (isDot k)
  | .bare _, k => .bare (isDot k)

/-- The token before is a dot. -/
def Mode.afterDot : Mode → Bool
  | .outside => false
  | .inside _ _ _ afterDot => afterDot
  | .bare afterDot => afterDot

/-- The closing delimiter at the head of a text ends what is read. -/
def Mode.EndsAt (d : Delimiters) (text : Text) : Mode → Prop
  | .inside tag _ closers _ => closers = [] ∧ Text.startsWith text (tag.close d) = true
  | _ => False

/-- The text behind the white space. -/
def State.ahead (s : State) : Text := s.rest.dropWhile Text.isSpacing

/-- The place behind the white space. -/
def State.aheadPlace (s : State) : Location := s.place.after (s.rest.takeWhile Text.isSpacing)

/-- Behind white space stands a token of an expression, or a mistake in its place: a tag or an expression is read,
its text is not over, and no closing delimiter ends it here. -/
structure State.AtToken (d : Delimiters) (s : State) : Prop where
  mode_ne : s.mode ≠ .outside
  ahead_ne : s.ahead ≠ []
  not_endsAt : ¬s.mode.EndsAt d s.ahead

/-- The token that a lexeme is at a place. -/
def tokenAt (x : Lexeme) (l : Location) : Token := ⟨x.kind, x.value, ⟨l, l.after x.written⟩⟩

/-- The state behind a lexeme, when it is read behind the white space. -/
def State.past (s : State) (x : Lexeme) : State :=
  ⟨s.mode.behind x.kind, s.aheadPlace.after x.written, s.ahead.drop x.written.length⟩

theorem State.AtToken.step_eq (h : s.AtToken d) (filename : Option Text) :
    s.step d filename = lexemeStep filename s.mode.behind s.mode.afterDot s.aheadPlace s.ahead := by
  obtain ⟨mode, place, rest⟩ := s
  obtain ⟨hmode, hahead, hend⟩ := h
  cases mode with
  | outside => exact absurd rfl hmode
  | inside tag opened closers afterDot =>
    simp only [State.step]
    exact (if_neg hahead).trans (if_neg hend)
  | bare afterDot =>
    simp only [State.step]
    exact if_neg hahead

theorem State.AtToken.step_ok (h : s.AtToken d) {x : Lexeme} (hx : Lexeme.read s.mode.afterDot s.ahead = .ok x) :
    s.step d filename = .ok ⟨[tokenAt x s.aheadPlace], some (s.past x)⟩ := by
  rw [h.step_eq, lexemeStep, hx]
  rfl

theorem State.AtToken.read_of_step (h : s.AtToken d) (hr : s.step d filename = .ok r) :
    ∃ x, Lexeme.read s.mode.afterDot s.ahead = .ok x ∧ r = ⟨[tokenAt x s.aheadPlace], some (s.past x)⟩ := by
  rw [h.step_eq, lexemeStep] at hr
  cases hx : Lexeme.read s.mode.afterDot s.ahead with
  | error f => rw [hx] at hr; cases hr
  | ok x =>
    rw [hx] at hr
    cases hr
    exact ⟨x, rfl, rfl⟩

/-- In an expression that stands alone a token is ahead, or the end of the source. -/
theorem step_bare (d : Delimiters) (filename : Option Text) {afterDot : Bool} (hs : s.mode = .bare afterDot) :
    s.AtToken d ∨ s.ahead = [] ∧ s.step d filename = .ok ⟨[Token.atEnd s.aheadPlace], none⟩ := by
  by_cases hahead : s.ahead = []
  · refine .inr ⟨hahead, ?_⟩
    obtain ⟨mode, place, rest⟩ := s
    obtain rfl : mode = .bare afterDot := hs
    simp only [State.step]
    exact if_pos hahead
  · exact .inl ⟨by rw [hs]; nofun, hahead, by rw [hs]; exact id⟩

/-- Inside of a tag a token is ahead, or the end of the tag, or the tag is not closed. -/
theorem step_inside (d : Delimiters) (filename : Option Text) {tag : Tag} {opened : Location} {closers : List Symbol}
    {afterDot : Bool} (hs : s.mode = .inside tag opened closers afterDot) :
    s.AtToken d ∨
    (closers = [] ∧ Text.startsWith s.ahead (tag.close d) = true ∧ s.ahead ≠ [] ∧
      s.step d filename = .ok (take tag.endKind (tag.close d) (tag.close d) .outside s.aheadPlace s.ahead)) ∨
    s.ahead = [] ∧ ∃ e, s.step d filename = .error e := by
  by_cases hahead : s.ahead = []
  · refine .inr (.inr ⟨hahead, unclosed filename tag.construct (tag.close d) opened, ?_⟩)
    obtain ⟨mode, place, rest⟩ := s
    obtain rfl : mode = .inside tag opened closers afterDot := hs
    simp only [State.step]
    exact if_pos hahead
  · by_cases hend : closers = [] ∧ Text.startsWith s.ahead (tag.close d) = true
    · refine .inr (.inl ⟨hend.1, hend.2, hahead, ?_⟩)
      obtain ⟨mode, place, rest⟩ := s
      obtain rfl : mode = .inside tag opened closers afterDot := hs
      simp only [State.step]
      exact (if_neg hahead).trans (if_pos hend)
    · exact .inl ⟨by rw [hs]; nofun, hahead, by rw [hs]; exact hend⟩

end Stencil.Scan
