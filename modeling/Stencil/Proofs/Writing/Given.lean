/-
Rules that are read at every depth that suffices. Rules for expressions are what the grammar says of them;
a rule for statements is taken apart into the rules inside it (`Gives.of_step`), so that extensions which
take no part need not be known.
-/
import Stencil.Proofs.Writing.Whole

namespace Stencil

open Stencil.Parser

namespace Stream

variable {s : Stream} {pos : Nat} {t : Token} {ts : List Token}

theorem At.size (h : s.At pos (t :: ts)) : pos + (t :: ts).length = s.tokens.size := by
  have hlength := congrArg List.length h
  rw [List.length_drop, Array.length_toList] at hlength
  rw [List.length_cons] at hlength ⊢
  omega

/-- Before further tokens a position is not the last one. -/
theorem At.lt (h : s.At pos (t :: ts)) (hts : ts ≠ []) : pos < s.tokens.size - 1 := by
  have hsize := h.size
  have hpositive := List.length_pos_iff.2 hts
  rw [List.length_cons] at hsize
  omega

/-- A position at which the stream does not end is not the last one. -/
theorem lt_last (hlast : s.last.kind = .eof) (hk : (s.get pos).kind ≠ .eof) : pos < s.tokens.size - 1 := by
  refine Nat.lt_of_not_le fun hle => hk ?_
  by_cases hpos : pos < s.tokens.size
  · rw [show pos = s.tokens.size - 1 by omega, s.get_last, hlast]
  · rw [s.get_of_size_le (by omega), hlast]

end Stream

namespace Grammar

variable {find : Text → Option Extension} {s : Stream} {p : Phrase} {r : Rule p} {pos stop : Nat} {t : p.Tree}

section

variable (find s)

/-- At every depth above its weight the rule gives the tree and ends at the position. -/
def Gives (r : Rule p) (pos : Nat) (t : p.Tree) (stop : Nat) : Prop :=
  ∀ n, 32 * (s.tokens.size - 1 - pos) + r.rank < n → run find n r s pos = .ok t stop

/-- The grammar gives what rules give further on, and rules of lower rank at the position. -/
def Inherits (g : Grammar) (pos rank : Nat) : Prop :=
  ∀ ⦃q : Phrase⦄ {r : Rule q} {pos' : Nat} {t : q.Tree} {stop : Nat}, Gives find s r pos' t stop →
    pos < pos' ∨ pos' = pos ∧ r.rank < rank → g r s pos' = .ok t stop

end

theorem Gives.grammar (h : Gives find s r pos t stop) : ofExtensions find r s pos = .ok t stop := by
  have := Frame.rank_lt r
  refine h (depth s) ?_
  unfold depth
  omega

/-- What a grammar inherits further on does not depend on the rule at the position. -/
theorem Inherits.behind {g : Grammar} {rank : Nat} (h : Inherits find s g pos rank) : Inherits find s g pos 0 :=
  fun _ _ _ _ _ hgives hr => h hgives (hr.imp_right fun hlt => absurd hlt.2 (Nat.not_lt_zero _))

/-- A rule that a grammar reads in one step is given, if the grammar inherits the rules inside it. -/
theorem Gives.of_step (hpos : pos < s.tokens.size - 1)
    (h : ∀ g, Inherits find s g pos r.rank → step find g r s pos = .ok t stop) : Gives find s r pos t stop := by
  intro n hn
  obtain ⟨n, rfl⟩ : ∃ k, n = k + 1 := ⟨n - 1, by omega⟩
  refine h (run find n) ?_
  intro q r' pos' t' stop' hgives hr
  have := Frame.rank_lt r'
  refine hgives n ?_
  rcases hr with hr | ⟨rfl, hr⟩ <;> omega

/-- A rule for expressions gives what the grammar reads. -/
theorem Gives.of_grammar (hlast : s.last.kind = .eof) (hr : r.isStatement = false)
    (h : ofExtensions find r s pos = .ok t stop) : Gives find s r pos t stop := by
  intro n hn
  have hweight : (s.frame hlast pos True False).weight r pos < n := by
    show 32 * (max pos (s.tokens.size - 1) - pos) + r.rank < n
    omega
  have hknows : (s.frame hlast pos True False).Knows find := nofun
  have hreads := ofExtensions_reads hknows (s.frame_shallow hlast pos True False) r
    ⟨Nat.le_refl _, Nat.le_max_left ..⟩ hweight fun hs => by rw [hr] at hs; cases hs
  exact hreads.1.symm.trans h

end Grammar
end Stencil
