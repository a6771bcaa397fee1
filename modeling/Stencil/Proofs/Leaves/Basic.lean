/-
The leaves of expressions: names, constants, and the names of filters, tests and keyword arguments, in the
order in which a source writes them. `Stream.Becomes` says which leaf the token at a place is, by the token
itself and those beside it; `Stream.Bears` says of a stretch of tokens that it bears a list of leaves, one for
each name and literal in it.
-/
import Mathlib.Data.List.Forall2
import Stencil.Grammar.Rule
import Stencil.Proofs.Derivation.Places
import Stencil.Proofs.Layout.Written
import Stencil.Proofs.Writing.Expression

namespace Stencil

/-! ## Leaves -/

/-- What one name or literal of an expression becomes. -/
inductive Leaf
  | name (name : Text) (span : Span)
  | const (value : Constant) (span : Span)
  | filter (name : Text)
  | test (name : Text)
  /-- The name of a keyword argument. -/
  | key (name : Text)
deriving DecidableEq, Repr

mutual

/-- The leaves in source order: the value of a conditional stands before its test, and the name of a filter or
test behind its subject. -/
def Expr.leaves : Expr → List Leaf
  | .const value span => [.const value span]
  | .name name _ span => [.name name span]
  | .tuple items _ _ => Expr.allLeaves items
  | .list items _ => Expr.allLeaves items
  | .dict items _ => Pair.allLeaves items
  | .binary _ left right _ => left.leaves ++ right.leaves
  | .unary _ operand _ => operand.leaves
  | .compare first operands _ => first.leaves ++ Operand.allLeaves operands
  | .cond test whenTrue whenFalse _ => whenTrue.leaves ++ test.leaves ++ whenFalse.leaves
  | .subscript object index _ _ => object.leaves ++ index.leaves
  | .slice start stop step _ => Expr.optionLeaves start ++ Expr.optionLeaves stop ++ Expr.optionLeaves step
  | .call callee args _ => callee.leaves ++ args.leaves
  | .filter input name args _ => Expr.optionLeaves input ++ [.filter name] ++ args.leaves
  | .test subject name args _ => subject.leaves ++ [.test name] ++ args.leaves

def Expr.allLeaves : List Expr → List Leaf
  | [] => []
  | e :: es => e.leaves ++ Expr.allLeaves es

def Expr.optionLeaves : Option Expr → List Leaf
  | none => []
  | some e => e.leaves

def Pair.allLeaves : List Pair → List Leaf
  | [] => []
  | .mk key value _ :: ps => key.leaves ++ value.leaves ++ Pair.allLeaves ps

def Operand.allLeaves : List Operand → List Leaf
  | [] => []
  | .mk _ e _ :: os => e.leaves ++ Operand.allLeaves os

def KeywordArg.allLeaves : List KeywordArg → List Leaf
  | [] => []
  | .mk name value _ :: ks => .key name :: value.leaves ++ KeywordArg.allLeaves ks

/-- Arguments come by position, by name, as `*expr` and as `**expr`. -/
def Arguments.leaves : Arguments → List Leaf
  | .mk positional keywords spread keywordSpread =>
    Expr.allLeaves positional ++ KeywordArg.allLeaves keywords ++ Expr.optionLeaves spread
      ++ Expr.optionLeaves keywordSpread

end

/-- The leaves of a tree of some sort; only expressions and their parts have leaves. -/
def Phrase.leaves : (p : Phrase) → p.Tree → List Leaf
  | .expr, (e : Expr) => e.leaves
  | .exprs, (es : List Expr) => Expr.allLeaves es
  | .pairs, (ps : List Pair) => Pair.allLeaves ps
  | .operands, (os : List Operand) => Operand.allLeaves os
  | .arguments, (args : Arguments) => args.leaves
  | _, _ => []

namespace Expr

theorem allLeaves_append (es fs : List Expr) : allLeaves (es ++ fs) = allLeaves es ++ allLeaves fs := by
  induction es with
  | nil => rw [allLeaves, List.nil_append, List.nil_append]
  | cons e es ih => rw [List.cons_append, allLeaves, allLeaves, ih, List.append_assoc]

theorem allLeaves_one (e : Expr) : allLeaves [e] = e.leaves := by
  rw [allLeaves, allLeaves, List.append_nil]

end Expr

theorem KeywordArg.allLeaves_append (ks ls : List KeywordArg) : allLeaves (ks ++ ls) = allLeaves ks ++ allLeaves ls := by
  induction ks with
  | nil => rw [allLeaves, List.nil_append, List.nil_append]
  | cons k ks ih =>
    obtain ⟨name, value, span⟩ := k
    rw [List.cons_append, allLeaves, allLeaves, ih, List.append_assoc]

/-! ### Arguments, which grow at their end -/

namespace Arguments

variable (es : List Expr) (ks : List KeywordArg) (o : Option Expr) (e : Expr)

theorem leaves_positional : (mk (es ++ [e]) [] none none).leaves = (mk es [] none none).leaves ++ e.leaves := by
  simp [leaves, Expr.allLeaves_append, Expr.allLeaves_one, KeywordArg.allLeaves, Expr.optionLeaves]

theorem leaves_keyword (name : Text) (span : Span) :
    (mk es (ks ++ [.mk name e span]) none none).leaves = (mk es ks none none).leaves ++ .key name :: e.leaves := by
  simp [leaves, KeywordArg.allLeaves_append, KeywordArg.allLeaves, Expr.optionLeaves]

theorem leaves_spread : (mk es ks (some e) none).leaves = (mk es ks none none).leaves ++ e.leaves := by
  simp [leaves, Expr.optionLeaves]

theorem leaves_keywordSpread : (mk es ks o (some e)).leaves = (mk es ks o none).leaves ++ e.leaves := by
  simp [leaves, Expr.optionLeaves]

end Arguments

/-! ## Tokens -/

/-- The kinds of names and literals. -/
def TokenKind.isOperand : TokenKind → Bool
  | name | string | integer | float => true
  | _ => false

namespace Stream

variable (s : Stream)

/-- A token of a kind stands before a position. -/
def Behind (pos : Nat) (k : TokenKind) : Prop := ∃ i, pos = i + 1 ∧ (s.get i).kind = k

/-- The name of a test stands at the position: behind `is`, or behind `is not`. -/
def NamesTest (pos : Nat) : Prop :=
  s.Behind pos (.keyword .isOp) ∨ ∃ i, pos = i + 1 ∧ (s.get i).kind = .keyword .notOp ∧ s.Behind i (.keyword .isOp)

/-- The name of a filter stands at the position: behind a bar, or at the head of a filter block. -/
def NamesFilter (pos : Nat) : Prop := s.Behind pos (.symbol .pipe) ∨ s.Behind pos (.keyword .filterTag)

/-- An operand may stand at the position, and neither an attribute nor the name of a filter or test. -/
def Opens (pos : Nat) : Prop := ¬s.Behind pos (.symbol .dot) ∧ ¬s.NamesFilter pos ∧ ¬s.NamesTest pos

/-- The token at a position becomes a leaf with its value. -/
inductive Becomes (i : Nat) : Leaf → Prop
  | name (ho : s.Opens i) (hk : (s.get i).kind = .name) (hn : Constant.ofName? (s.get i).value = none) :
      Becomes i (.name (s.get i).value (s.get i).span)
  /-- A literal, or the name of a constant. -/
  | const {c : Constant} (ho : s.Opens i) (h : (s.get i).Denotes c) : Becomes i (.const c (s.get i).span)
  /-- The name behind a dot. -/
  | attribute (hd : s.Behind i (.symbol .dot)) (hk : (s.get i).kind = .name) :
      Becomes i (.const (.text (s.get i).value) (s.get i).span)
  /-- The number behind a dot. -/
  | index {c : Constant} (hd : s.Behind i (.symbol .dot)) (hk : (s.get i).kind = .integer)
      (h : (s.get i).Denotes c) : Becomes i (.const c (s.get i).span)
  | filter (hf : s.NamesFilter i) (hk : (s.get i).kind = .name) : Becomes i (.filter (s.get i).value)
  | test (ht : s.NamesTest i) (hk : (s.get i).kind = .name) : Becomes i (.test (s.get i).value)
  | key (ho : s.Opens i) (hk : (s.get i).kind = .name) (ha : (s.get (i + 1)).kind = .symbol .assign) :
      Becomes i (.key (s.get i).value)

/-- The stretch from one position up to another stands inside of tags, and its names and literals become the
leaves, each of them one leaf, in their order. -/
structure Bears (a b : Nat) (ls : List Leaf) : Prop where
  le : a ≤ b
  inside : ∀ i, a ≤ i → i < b → (s.get i).kind.inExpression = true
  leaves : List.Forall₂ s.Becomes (s.places TokenKind.isOperand a b) ls

variable {s} {a b c pos : Nat} {ls ms : List Leaf}

namespace Bears

theorem nil : s.Bears a a [] where
  le := Nat.le_refl a
  inside i h h' := by omega
  leaves := by rw [places_self]; exact .nil

theorem append (h : s.Bears a b ls) (h' : s.Bears b c ms) : s.Bears a c (ls ++ ms) where
  le := Nat.le_trans h.le h'.le
  inside i hi hi' := by
    by_cases hb : i < b
    · exact h.inside i hi hb
    · exact h'.inside i (by omega) hi'
  leaves := by
    rw [← places_append h.le h'.le]
    exact List.rel_append h.leaves h'.leaves

/-- A symbol or a keyword bears nothing. -/
theorem mark {k : TokenKind} (h : s.Bears a pos ls) (hk : (s.get pos).kind = k)
    (hmark : (k.inExpression && !k.isOperand) = true) : s.Bears a (pos + 1) ls := by
  rw [Bool.and_eq_true, Bool.not_eq_true'] at hmark
  have hone : s.Bears pos (pos + 1) [] := by
    refine ⟨Nat.le_succ pos, fun i hi hi' => ?_, ?_⟩
    · rw [show i = pos by omega, hk]
      exact hmark.1
    · rw [places_succ, hk, hmark.2]
      exact .nil
  simpa using h.append hone

/-- A name or a literal bears a leaf. -/
theorem operand {l : Leaf} (hk : (s.get pos).kind.isOperand = true) (h : s.Becomes pos l) :
    s.Bears pos (pos + 1) [l] := by
  refine ⟨Nat.le_succ pos, fun i hi hi' => ?_, ?_⟩
  · rw [show i = pos by omega]
    generalize (s.get pos).kind = k at hk ⊢
    cases k <;> first | rfl | cases hk
  · rw [places_succ, if_pos hk]
    exact .cons h .nil

/-- Each name and literal of the stretch becomes one of the leaves. -/
theorem exists_leaf (h : s.Bears a b ls) {i : Nat} (hi : a ≤ i) (hi' : i < b)
    (hk : (s.get i).kind.isOperand = true) : ∃ l ∈ ls, s.Becomes i l := by
  obtain ⟨-, -, hleaves⟩ := h
  have hmem : i ∈ s.places TokenKind.isOperand a b := mem_places.2 ⟨hi, hi', hk⟩
  generalize s.places TokenKind.isOperand a b = is at hleaves hmem
  induction hleaves with
  | nil => cases hmem
  | cons hl _ ih =>
    rcases List.mem_cons.1 hmem with rfl | hmem
    · exact ⟨_, List.mem_cons_self, hl⟩
    · obtain ⟨l, hl, hbecomes⟩ := ih hmem
      exact ⟨l, List.mem_cons_of_mem _ hl, hbecomes⟩

end Bears

/-! ## Where operands stand -/

theorem behind_succ {k : TokenKind} : s.Behind (pos + 1) k ↔ (s.get pos).kind = k := by
  constructor
  · rintro ⟨i, hi, hk⟩
    rw [Nat.succ.inj hi]
    exact hk
  · exact fun hk => ⟨pos, rfl, hk⟩

theorem opens_zero : s.Opens 0 := by
  have hbehind (k : TokenKind) : ¬s.Behind 0 k := by rintro ⟨i, hi, -⟩; cases hi
  refine ⟨hbehind _, ?_, ?_⟩
  · rintro (h | h) <;> exact hbehind _ h
  · rintro (h | ⟨i, hi, -⟩)
    · exact hbehind _ h
    · cases hi

/-- The kinds behind which no operand stands, or only under some condition. -/
def binding : List TokenKind :=
  [.symbol .dot, .symbol .pipe, .keyword .filterTag, .keyword .isOp, .keyword .notOp]

/-- An operand may stand behind a token that does not bind what follows it. -/
theorem opens_succ {k : TokenKind} (hk : (s.get pos).kind = k) (hb : k ∉ binding) : s.Opens (pos + 1) := by
  simp only [binding, List.mem_cons, List.not_mem_nil, or_false, not_or] at hb
  obtain ⟨hdot, hpipe, hfilter, his, hnot⟩ := hb
  refine ⟨?_, ?_, ?_⟩
  · rw [behind_succ, hk]
    exact hdot
  · rintro (h | h) <;> rw [behind_succ, hk] at h
    · exact hpipe h
    · exact hfilter h
  · rintro (h | ⟨i, hi, h, -⟩)
    · rw [behind_succ, hk] at h
      exact his h
    · rw [← Nat.succ.inj hi, hk] at h
      exact hnot h

/-- An operand may stand behind a `not` at which an operand may stand. -/
theorem opens_succ_not (hk : (s.get pos).kind = .keyword .notOp) (ho : s.Opens pos) : s.Opens (pos + 1) := by
  obtain ⟨-, -, htest⟩ := ho
  refine ⟨?_, ?_, ?_⟩
  · rw [behind_succ, hk]
    nofun
  · rintro (h | h) <;> rw [behind_succ, hk] at h <;> cases h
  · rintro (h | ⟨i, hi, -, h⟩)
    · rw [behind_succ, hk] at h
      cases h
    · rw [← Nat.succ.inj hi] at h
      exact htest (.inl h)

end Stream
end Stencil
