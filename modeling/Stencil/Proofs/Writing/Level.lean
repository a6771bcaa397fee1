/-
Levels and the rules that read them. A token that may continue an expression has the rank of the level
it continues (`looseness`); an expression of a level ends before every looser token. An operator between
operands and what follows a primary expression are read in a loop, so such a level is read up to its
expression and handed to the rest of the loop (`Level.tail`).
-/
import Stencil.Proofs.Tree.Bare
import Stencil.Proofs.Writing.Expression
import Stencil.Proofs.Writing.Position

namespace Stencil

open Stencil.Parser

/-! ## Levels and tokens -/

/-- The rank of the level at which a token continues an expression; other tokens are looser than all
levels. -/
def TokenKind.looseness : TokenKind → Nat
  | .symbol .dot | .symbol .openBracket | .symbol .openParen | .symbol .pipe | .keyword .isOp => 1
  | .symbol .doubleStar => 3 | .symbol .percent => 4 | .symbol .doubleSlash => 5 | .symbol .slash => 6
  | .symbol .star => 7 | .symbol .tilde => 8 | .symbol .minus => 9 | .symbol .plus => 10
  | .symbol .equal | .symbol .notEqual | .symbol .less | .symbol .lessEqual | .symbol .greater
  | .symbol .greaterEqual | .keyword .inOp | .keyword .notOp => 11
  | .keyword .andOp => 12 | .keyword .orOp => 13 | .keyword .ifTag => 14
  | _ => 15

namespace Level

/-- The rule that reads a level. -/
def rule : Level → Rule .expr
  | cond => .cond
  | binary op => .binary op
  | compare => .compare
  | unary => .unary
  | primary => .primary true

def rank (l : Level) : Nat := l.rule.rank

theorem rule_tighter_binary (op : BinaryOp) : (binary op).tighter.rule = Grammar.operandRule op := by
  cases op <;> rfl

theorem rank_tighter_binary (op : BinaryOp) : (binary op).tighter.rank < op.rank := by
  cases op <;> decide

theorem looseness_kind (op : BinaryOp) : op.kind.looseness = op.rank := by cases op <;> rfl

theorem operatorKind_eq_kind (op : BinaryOp) : Grammar.operatorKind op = op.kind := by cases op <;> rfl

/-- The reader of what a level may go on with behind an expression. -/
def tail (g : Grammar) : Level → Expr → Parser Expr
  | binary op, e => g (.binaryRest op e)
  | primary, e => g (.suffixes e)
  | _, e => pure e

/-- The token may follow an expression of the level or continue it there. -/
def Follows (k : TokenKind) : Level → Prop
  | binary op => (binary op).tighter.rank < k.looseness
  | primary => True
  | l => l.rank < k.looseness

theorem Follows.of_lt {l : Level} {k : TokenKind} (h : l.rank < k.looseness) : l.Follows k := by
  cases l with
  | binary op => exact Nat.lt_trans (rank_tighter_binary op) h
  | primary => trivial
  | cond | compare | unary => exact h

end Level

/-! ## The ends of expressions -/

variable {g : Grammar} {find : Text → Option Extension} {s : Stream} {statements : Prop} {pos : Nat}

theorem Grammar.Solves.binaryRest_eq_ok (hg : g.Solves find s statements) {op : BinaryOp} {e : Expr}
    (h : op.rank < (s.get pos).kind.looseness) : g (.binaryRest op e) s pos = .ok e pos := by
  rw [hg (.binaryRest op e) pos nofun]
  refine check_no ?_ _ _
  rw [List.mem_singleton, Level.operatorKind_eq_kind]
  intro hk
  rw [hk, Level.looseness_kind] at h
  exact absurd h (Nat.lt_irrefl _)

theorem Grammar.Solves.suffixes_eq_ok (hg : g.Solves find s statements) {e : Expr}
    (h : 1 < (s.get pos).kind.looseness) : g (.suffixes e) s pos = .ok e pos := by
  rw [hg (.suffixes e) pos nofun]
  show (current >>= fun t => _) s pos = _
  rw [current_bind]
  cases hk : (s.get pos).kind with
  | symbol x => cases x <;> first | rfl | (rw [hk] at h; exact absurd h (by decide))
  | keyword x => cases x <;> first | rfl | (rw [hk] at h; exact absurd h (by decide))
  | _ => rfl

theorem Grammar.Solves.tail_eq_ok (hg : g.Solves find s statements) {l : Level} {e : Expr}
    (h : l.rank < (s.get pos).kind.looseness) : l.tail g e s pos = .ok e pos := by
  cases l with
  | binary op => exact hg.binaryRest_eq_ok h
  | primary => exact hg.suffixes_eq_ok h
  | cond | compare | unary => rfl

end Stencil
