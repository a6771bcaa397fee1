/-
A scan does not look at places. If places are moved in a way that goes along with reading on (`Location.Shift`), a
scan that begins at the moved place gives the tokens at their moved places, or the same mistake at its moved place
(`tokensFrom_moves`). Such a move is that of a source behind another text (`Location.behind`).
-/
import Stencil.Proofs.Layout.Place
import Stencil.Proofs.Moved.Basic

namespace Stencil

/-! ## Shifts -/

namespace Location

/-- A way to move places of which the next place is moved to the next one. -/
def Shift (f : Location → Location) : Prop := ∀ l c, 0 < l.line → f (l.next c) = (f l).next c

theorem line_after_pos {l : Location} (hl : 0 < l.line) (t : Text) : 0 < (l.after t).line := by
  rw [line_after]
  omega

variable {f : Location → Location} {l : Location}

theorem Shift.after (h : Shift f) (hl : 0 < l.line) (t : Text) : f (l.after t) = (f l).after t := by
  induction t generalizing l with
  | nil => rfl
  | cons c t ih =>
    have hnext : 0 < (l.next c).line := line_after_pos hl [c]
    show f ((l.next c).after t) = ((f l).next c).after t
    rw [ih hnext, h l c hl]

theorem Shift.upTo (h : Shift f) (hl : 0 < l.line) (t rest : Text) : f (l.upTo t rest) = (f l).upTo t rest :=
  h.after hl _

/-- The place in a source when another text stands before the source: lines and offsets count on, columns do so on
the first line only. -/
def behind (before : Text) (l : Location) : Location where
  line := before.count (Text.unit '\n') + l.line
  column := if l.line = 1 then (before.reverse.takeWhile (· ≠ Text.unit '\n')).length + l.column else l.column
  offset := before.length + l.offset

theorem behind_shift (before : Text) : Shift (behind before) := by
  intro l c hl
  unfold behind next
  by_cases hc : c = Text.unit '\n'
  · -- the next line is not the first one, so its columns are not moved
    have hline : l.line + 1 ≠ 1 := by omega
    simp only [if_pos hc, if_neg hline, Nat.add_assoc]
  · by_cases hfirst : l.line = 1 <;> simp only [if_neg hc, hfirst, if_true, if_false, Nat.add_assoc]

theorem behind_origin (before : Text) : origin.behind before = origin.after before := by
  have hline := line_after origin before
  have hoffset := offset_after origin before
  have hcolumn := column_origin_after before
  generalize origin.after before = l at hline hoffset hcolumn
  obtain ⟨line, column, offset⟩ := l
  obtain rfl : line = 1 + before.count (Text.unit '\n') := hline
  obtain rfl : column = 1 + _ := hcolumn
  obtain rfl : offset = 0 + before.length := hoffset
  rw [Nat.add_comm 1, Nat.add_comm 1, Nat.add_comm 0]
  rfl

end Location

namespace Scan

section

variable (f : Location → Location)

def Mode.mapPlaces : Mode → Mode
  | .inside tag opened closers afterDot => .inside tag (f opened) closers afterDot
  | m => m

/-- The state at its moved place. -/
def State.mapPlaces (s : State) : State := ⟨s.mode.mapPlaces f, f s.place, s.rest⟩

/-- The step at its moved place. -/
def Step.mapPlaces (r : Step) : Step := ⟨r.tokens.map (Token.mapPlaces f), r.next.map (State.mapPlaces f)⟩

/-- The second outcome is the first one at its moved place. -/
def Moves {α : Type} (filename : Option Text) (mv : α → α) : Except Diagnostic α → Except Diagnostic α → Prop
  | .ok a, x => x = .ok (mv a)
  | .error e, x => ∃ e', x = .error e' ∧ e.Moves f filename filename e'

end

variable {f : Location → Location} {d : Delimiters} {filename : Option Text} {l : Location} {rest : Text}

theorem Moves.map {α β : Type} {mv : α → α} {mv' : β → β} {x y : Except Diagnostic α} {g g' : α → β}
    (h : Moves f filename mv x y) (hg : ∀ a, g' (mv a) = mv' (g a)) : Moves f filename mv' (x.map g) (y.map g') := by
  cases x with
  | ok a =>
    obtain rfl : y = .ok (mv a) := h
    exact congrArg Except.ok (hg a)
  | error e =>
    obtain ⟨e', rfl, he⟩ := h
    exact ⟨e', rfl, he⟩

theorem Moves.ite {α : Type} {mv : α → α} {b : Prop} [Decidable b] {x y z w : Except Diagnostic α}
    (ht : Moves f filename mv x y) (he : Moves f filename mv z w) :
    Moves f filename mv (if b then x else z) (if b then y else w) := by
  split
  · exact ht
  · exact he

/-! ## One step -/

theorem dataTokens_mapPlaces (h : Location.Shift f) (hl : 0 < l.line) (text : Text) :
    (dataTokens l text).map (Token.mapPlaces f) = dataTokens (f l) text := by
  unfold dataTokens
  split
  · rfl
  · rw [← h.after hl]
    rfl

theorem take_mapPlaces (h : Location.Shift f) (hl : 0 < l.line) (kind : TokenKind) (value written : Text) (mode : Mode) :
    (take kind value written mode l rest).mapPlaces f = take kind value written (mode.mapPlaces f) (f l) rest := by
  unfold take
  simp only
  rw [← h.after hl]
  rfl

theorem unclosed_moves (construct expected : Text) :
    (unclosed filename construct expected l).Moves f filename filename (unclosed filename construct expected (f l)) :=
  Diagnostic.report_moves ..

theorem lexemeStep_moves (h : Location.Shift f) (hl : 0 < l.line) {mode mode' : TokenKind → Mode}
    (hmode : ∀ k, mode' k = (mode k).mapPlaces f) (afterDot : Bool) :
    Moves f filename (Step.mapPlaces f) (lexemeStep filename mode afterDot l rest)
      (lexemeStep filename mode' afterDot (f l) rest) := by
  unfold lexemeStep
  cases Lexeme.read afterDot rest with
  | ok x =>
    refine congrArg Except.ok ?_
    rw [hmode, take_mapPlaces h hl]
  | error e =>
    refine ⟨_, rfl, ?_⟩
    cases e <;> exact Diagnostic.report_moves ..

theorem openerStep_moves (h : Location.Shift f) (hl : 0 < l.line) (o : Option Delimiters.Opener) :
    Moves f filename (Step.mapPlaces f) (openerStep d filename l rest o) (openerStep d filename (f l) rest o) := by
  have opened (tag : Tag) (kind : TokenKind) (written : Text) :
      Moves f filename (Step.mapPlaces f) (.ok (take kind written written (.inside tag l [] false) l rest))
        (.ok (take kind written written (.inside tag (f l) [] false) (f l) rest)) := by
    refine congrArg Except.ok ?_
    rw [take_mapPlaces h hl]
    rfl
  cases o with
  | none => exact rfl
  | some o =>
    cases o with
    | interpolation => exact opened ..
    | comment =>
      simp only [openerStep]
      split
      · refine congrArg Except.ok ?_
        rw [← h.upTo hl]
        rfl
      · exact ⟨_, rfl, unclosed_moves ..⟩
    | block =>
      simp only [openerStep]
      split
      · rename_i inner _
        split
        · have hinner : 0 < (l.upTo rest inner).line := Location.line_after_pos hl _
          refine congrArg Except.ok ?_
          rw [← h.upTo hl, ← h.upTo hl, ← dataTokens_mapPlaces h hinner]
          rfl
        · exact ⟨_, rfl, unclosed_moves ..⟩
      · exact opened ..

theorem step_moves (h : Location.Shift f) {s : State} (hs : 0 < s.place.line) :
    Moves f filename (Step.mapPlaces f) (s.step d filename) ((s.mapPlaces f).step d filename) := by
  obtain ⟨mode, place, rest⟩ := s
  have hskip : 0 < (place.after (rest.takeWhile Text.isSpacing)).line := Location.line_after_pos hs _
  cases mode with
  | outside =>
    simp only [State.step, State.mapPlaces, Mode.mapPlaces]
    rw [← h.after hs, ← dataTokens_mapPlaces h hs]
    refine (openerStep_moves h (Location.line_after_pos hs _) _).map fun r => ?_
    simp only [Step.mapPlaces, List.map_append]
  | inside tag opened closers afterDot =>
    simp only [State.step, State.mapPlaces, Mode.mapPlaces]
    rw [← h.after hs]
    refine .ite ⟨_, rfl, unclosed_moves ..⟩ (.ite (congrArg Except.ok ?_) ?_)
    · rw [take_mapPlaces h hskip]
      rfl
    · exact lexemeStep_moves h hskip (fun _ => rfl) afterDot
  | bare afterDot =>
    simp only [State.step, State.mapPlaces, Mode.mapPlaces]
    rw [← h.after hs]
    exact .ite rfl (lexemeStep_moves h hskip (fun _ => rfl) afterDot)

/-! ## All steps -/

/-- A scan from the moved place on gives what the scan gives, at its moved place. -/
theorem tokensFrom_moves (hd : d.Sound) (h : Location.Shift f) {s : State} (hs : 0 < s.place.line) :
    Moves f filename (List.map (Token.mapPlaces f)) (tokensFrom d hd filename s)
      (tokensFrom d hd filename (s.mapPlaces f)) := by
  have hstep : Moves f filename (Step.mapPlaces f) (s.step d filename) ((s.mapPlaces f).step d filename) :=
    step_moves h hs
  rw [tokensFrom_eq hd (s.mapPlaces f)]
  -- along the scan on the left; that lines are counted from one is what a shift asks of every place on the way
  fun_induction tokensFrom d hd filename s with
  | case1 s e he =>
    rw [he] at hstep
    obtain ⟨e', he', hmoves⟩ := hstep
    rw [he']
    exact ⟨e', rfl, hmoves⟩
  | case2 s r hr hn =>
    rw [hr, Moves] at hstep
    rw [hstep]
    simp only [Step.mapPlaces, hn, Option.map_none]
    exact rfl
  | case3 s r hr s' hn ih =>
    rw [hr, Moves] at hstep
    rw [hstep]
    obtain ⟨w, -, hplace⟩ := step_reads hd hr hn
    have hs' : 0 < s'.place.line := by
      rw [hplace]
      exact Location.line_after_pos hs w
    have hrest := ih hs' (step_moves h hs')
    rw [← tokensFrom_eq] at hrest
    simp only [Step.mapPlaces, hn, Option.map_some]
    exact hrest.map fun us => List.map_append.symm

end Scan
end Stencil
