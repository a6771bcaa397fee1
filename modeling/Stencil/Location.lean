/-
Places in a source text. A location carries line and column, both from 1, and the offset, from 0;
only a line feed begins a new line. `Location.after` says where a text ends that begins at a location,
and the lemmas say that it counts units and line feeds.
-/
import Stencil.Number.Layout

namespace Stencil

/-- A place in a source text. -/
structure Location where
  line : Nat
  column : Nat
  offset : Nat
deriving DecidableEq, Repr

namespace Location

/-- The place before the first unit. -/
def origin : Location := ⟨1, 1, 0⟩

/-- The place behind one unit. -/
def next (l : Location) (c : CodeUnit) : Location :=
  if c = Text.unit '\n' then ⟨l.line + 1, 1, l.offset + 1⟩ else ⟨l.line, l.column + 1, l.offset + 1⟩

/-- The place behind a text that begins at `l`. -/
def after (l : Location) (t : Text) : Location := t.foldl next l

/-- The place at which `rest` begins, when `rest` ends the text `t` that begins at `l`. -/
def upTo (l : Location) (t rest : Text) : Location := l.after (t.take (t.length - rest.length))

/-- The location as `line:column`. -/
def text (l : Location) : Text := Double.natText l.line ++ ":" ++ Double.natText l.column

theorem after_append (l : Location) (s t : Text) : l.after (s ++ t) = (l.after s).after t := by
  simp [after]

theorem upTo_append (l : Location) (s rest : Text) : l.upTo (s ++ rest) rest = l.after s := by
  simp [upTo]

theorem offset_next (l : Location) (c : CodeUnit) : (l.next c).offset = l.offset + 1 := by
  unfold next; split <;> rfl

theorem offset_after (l : Location) (t : Text) : (l.after t).offset = l.offset + t.length := by
  induction t generalizing l with
  | nil => rfl
  | cons c t ih =>
    have := ih (l.next c)
    rw [offset_next] at this
    simp only [after, List.foldl_cons, List.length_cons] at this ⊢
    omega

theorem line_after (l : Location) (t : Text) :
    (l.after t).line = l.line + t.count (Text.unit '\n') := by
  induction t generalizing l with
  | nil => rfl
  | cons c t ih =>
    have := ih (l.next c)
    simp only [after, List.foldl_cons] at this ⊢
    rw [this, List.count_cons]
    unfold next
    split <;> simp_all; omega

end Location

/-- The stretch of source between two places. -/
structure Span where
  start : Location
  finish : Location
deriving DecidableEq, Repr

end Stencil
