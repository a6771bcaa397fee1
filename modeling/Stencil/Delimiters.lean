/-
The six delimiters of a template language. `Delimiters.fault?` names the first defect that makes a
choice of delimiters unusable; without one, every delimiter is a text of one unit at least and the
three start delimiters differ, which `Delimiters.Sound` states.
-/
import Stencil.Text.Search

namespace Stencil

/-- The names of the delimiters, in the order in which they are checked. -/
inductive DelimiterName
  | blockStart | blockEnd | variableStart | variableEnd | commentStart | commentEnd
deriving DecidableEq, Repr

namespace DelimiterName

def all : List DelimiterName :=
  [blockStart, blockEnd, variableStart, variableEnd, commentStart, commentEnd]

theorem mem_all (k : DelimiterName) : k ∈ all := by cases k <;> decide

def text : DelimiterName → Text
  | blockStart => "blockStart" | blockEnd => "blockEnd"
  | variableStart => "variableStart" | variableEnd => "variableEnd"
  | commentStart => "commentStart" | commentEnd => "commentEnd"

def ofText? (t : Text) : Option DelimiterName := all.find? (·.text == t)

end DelimiterName

structure Delimiters where
  blockStart : Text
  blockEnd : Text
  variableStart : Text
  variableEnd : Text
  commentStart : Text
  commentEnd : Text
deriving DecidableEq, Repr

namespace Delimiters

def get (d : Delimiters) : DelimiterName → Text
  | .blockStart => d.blockStart | .blockEnd => d.blockEnd
  | .variableStart => d.variableStart | .variableEnd => d.variableEnd
  | .commentStart => d.commentStart | .commentEnd => d.commentEnd

/-- The delimiters given by name. -/
def ofFun (f : DelimiterName → Text) : Delimiters :=
  ⟨f .blockStart, f .blockEnd, f .variableStart, f .variableEnd, f .commentStart, f .commentEnd⟩

/-- The delimiters used when nothing else is asked for. -/
def standard : Delimiters := ⟨"\x7b%", "%\x7d", "\x7b\x7b", "\x7d\x7d", "\x7b#", "#\x7d"⟩

/-- What makes a choice of delimiters unusable. -/
inductive Fault
  | empty (name : DelimiterName)
  | equalStarts
deriving DecidableEq, Repr

/-- The start delimiters differ from each other. -/
def startsDiffer (d : Delimiters) : Bool :=
  d.blockStart != d.variableStart && d.blockStart != d.commentStart
    && d.variableStart != d.commentStart

/-- The first defect of a choice of delimiters. -/
def fault? (d : Delimiters) : Option Fault :=
  match DelimiterName.all.find? fun k => d.get k == [] with
  | some k => some (.empty k)
  | none => if d.startsDiffer then none else some .equalStarts

/-- Every delimiter has a unit, and the start delimiters differ. -/
structure Sound (d : Delimiters) : Prop where
  ne_nil : ∀ k, d.get k ≠ []
  block_ne_variable : d.blockStart ≠ d.variableStart
  block_ne_comment : d.blockStart ≠ d.commentStart
  variable_ne_comment : d.variableStart ≠ d.commentStart

theorem fault?_eq_none_iff {d : Delimiters} : d.fault? = none ↔ d.Sound := by
  constructor
  · intro h
    unfold fault? at h
    split at h
    · cases h
    · rename_i hf
      rw [List.find?_eq_none] at hf
      split at h
      · rename_i hs
        simp only [startsDiffer, Bool.and_eq_true, bne_iff_ne, ne_eq] at hs
        exact ⟨fun k => by simpa using hf k k.mem_all, hs.1.1, hs.1.2, hs.2⟩
      · cases h
  · intro h
    unfold fault?
    have hf : DelimiterName.all.find? (fun k => d.get k == []) = none := by
      rw [List.find?_eq_none]; intro k _; simpa using h.ne_nil k
    rw [hf]
    simp [startsDiffer, h.block_ne_variable, h.block_ne_comment, h.variable_ne_comment]

theorem standard_fault : standard.fault? = none := by decide

/-! ## Openers -/

/-- What a start delimiter begins. -/
inductive Opener
  | interpolation | block | comment
deriving DecidableEq, Repr

def start (d : Delimiters) : Opener → Text
  | .interpolation => d.variableStart
  | .block => d.blockStart
  | .comment => d.commentStart

/-- The one of two openers with the longer delimiter. -/
def longer (d : Delimiters) (a b : Opener) : Opener :=
  if (d.start a).length < (d.start b).length then b else a

/-- What begins at the head of a text: of several start delimiters that stand there the longest
counts. -/
def opener? (d : Delimiters) (t : Text) : Option Opener :=
  match [Opener.interpolation, .block, .comment].filter fun o => t.startsWith (d.start o) with
  | [] => none
  | o :: os => some (os.foldl d.longer o)

/-- The text before the first start delimiter, and the text from there on. -/
def splitData (d : Delimiters) : Text → Text × Text
  | [] => ([], [])
  | c :: t =>
    if (d.opener? (c :: t)).isSome then ([], c :: t)
    else ((c :: (d.splitData t).1), (d.splitData t).2)

theorem splitData_append (d : Delimiters) (t : Text) : (d.splitData t).1 ++ (d.splitData t).2 = t := by
  induction t with
  | nil => rfl
  | cons c t ih => rw [splitData]; split <;> simp [ih]

theorem longer_eq_or (d : Delimiters) (a b : Opener) : d.longer a b = a ∨ d.longer a b = b := by
  unfold longer; split <;> simp

theorem foldl_longer_mem (d : Delimiters) (o : Opener) (os : List Opener) :
    os.foldl d.longer o ∈ o :: os := by
  induction os generalizing o with
  | nil => simp
  | cons b os ih =>
    rw [List.foldl_cons]
    have := ih (d.longer o b)
    simp only [List.mem_cons] at this ⊢
    rcases d.longer_eq_or o b with h | h <;> rw [h] at this ⊢
    · exact this.imp_right .inr
    · exact .inr this

theorem startsWith_of_opener? {d : Delimiters} {t : Text} {o : Opener} (h : d.opener? t = some o) :
    t.startsWith (d.start o) = true := by
  unfold opener? at h
  split at h
  · cases h
  · rename_i a as hf
    cases h
    have := d.foldl_longer_mem a as
    rw [← hf, List.mem_filter] at this
    exact this.2

theorem start_ne_nil {d : Delimiters} (h : d.Sound) (o : Opener) : d.start o ≠ [] := by
  cases o
  · exact h.ne_nil .variableStart
  · exact h.ne_nil .blockStart
  · exact h.ne_nil .commentStart

end Delimiters
end Stencil
