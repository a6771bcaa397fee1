/-
Derivations go forward: what a rule reads ends no earlier than it begins (`Derives.le`).
-/
import Stencil.Proofs.Derivation.Basic

namespace Stencil

variable {s : Stream} {pos q : Nat}

theorem Stream.Compares.lt {op : CompareOp} (h : s.Compares pos op q) : pos < q := by
  cases h with
  | one => exact Nat.lt_succ_self pos
  | notIn => exact Nat.lt_add_of_pos_right Nat.two_pos

theorem Stream.Tests.lt {negated : Bool} (h : s.Tests pos negated q) : pos < q := by
  cases h with
  | plain => exact Nat.lt_succ_self pos
  | negated => exact Nat.lt_add_of_pos_right Nat.two_pos

theorem Stream.Enters.le {first : Bool} (h : s.Enters first pos q) : pos ≤ q := by
  unfold Enters at h
  split at h
  · exact Nat.le_of_eq h
  · exact Nat.le_of_lt (Nat.lt_of_lt_of_eq (Nat.lt_succ_self pos) h.2)

/-- A part that may be missing ends where it begins, or behind. -/
theorem le_of_option {α : Type} {o : Option α} (h : ∀ a, o = some a → pos ≤ q) (h' : o = none → q = pos) : pos ≤ q := by
  cases o with
  | none => exact Nat.le_of_eq (h' rfl).symm
  | some a => exact h a rfl

/-- A rule ends where it begins, or behind. -/
theorem Derives.le {p : Phrase} {r : Rule p} {t : p.Tree} (h : Derives s r pos t q) : pos ≤ q := by
  induction h with
  | operandMore ho | testPlain ho | testParens ho | testArgument ho =>
    have := ho.lt
    omega
  | listEnd hp | dictEnd hp =>
    rcases hp with rfl | hp
    · exact Nat.le_refl _
    · exact hp.le
  | argumentEnd hp =>
    rcases hp with rfl | ⟨-, hp⟩
    · exact Nat.le_refl _
    · exact hp.le
  | listMore hp | dictMore hp | printMore _ hp | indexMore _ hp | positional hp | keyword hp | spread hp
  | keywordSpread hp =>
    have := hp.le
    omega
  | slice _ hstart' _ _ hstop' hr _ hstep' ihstart ihstop ihstep =>
    have hstart := le_of_option ihstart hstart'
    have hstop := le_of_option ihstop hstop'
    have hstep := le_of_option ihstep hstep'
    omega
  | @singleFilter _ pos _ _ hk h h' ih =>
    by_cases hopen : (s.get (pos + 1)).kind = .symbol .openParen
    · have := ih hopen
      omega
    · have := (h' hopen).2
      omega
  | _ => omega

end Stencil
