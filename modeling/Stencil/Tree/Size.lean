/-
The number of nodes of a tree. A child is always smaller than its node (`size_child`), so a walk from
node to child comes to an end.
-/
import Stencil.Tree.Node

namespace Stencil

/-! ## Sizes -/

mutual

/-- The number of nodes of an expression. -/
def Expr.size : Expr → Nat
  | .const .. => 1
  | .name .. => 1
  | .tuple items _ _ => Expr.sizes items + 1
  | .list items _ => Expr.sizes items + 1
  | .dict items _ => Pair.sizes items + 1
  | .binary _ left right _ => left.size + right.size + 1
  | .unary _ argument _ => argument.size + 1
  | .compare first rest _ => first.size + Operand.sizes rest + 1
  | .cond test whenTrue whenFalse _ => test.size + whenTrue.size + whenFalse.size + 1
  | .subscript object index _ _ => object.size + index.size + 1
  | .slice start stop step _ => Expr.sizeOption start + Expr.sizeOption stop + Expr.sizeOption step + 1
  | .call callee args _ => callee.size + args.size + 1
  | .filter input _ args _ => Expr.sizeOption input + args.size + 1
  | .test subject _ args _ => subject.size + args.size + 1

def Expr.sizes : List Expr → Nat
  | [] => 0
  | e :: es => e.size + Expr.sizes es

def Expr.sizeOption : Option Expr → Nat
  | none => 0
  | some e => e.size

def Pair.size : Pair → Nat
  | .mk key value _ => key.size + value.size + 1

def Pair.sizes : List Pair → Nat
  | [] => 0
  | p :: ps => p.size + Pair.sizes ps

def Operand.size : Operand → Nat
  | .mk _ e _ => e.size + 1

def Operand.sizes : List Operand → Nat
  | [] => 0
  | o :: os => o.size + Operand.sizes os

def KeywordArg.size : KeywordArg → Nat
  | .mk _ value _ => value.size + 1

def KeywordArg.sizes : List KeywordArg → Nat
  | [] => 0
  | k :: ks => k.size + KeywordArg.sizes ks

/-- The number of nodes of arguments. -/
def Arguments.size : Arguments → Nat
  | .mk positional keywords spread keywordSpread =>
    Expr.sizes positional + KeywordArg.sizes keywords + Expr.sizeOption spread
      + Expr.sizeOption keywordSpread

end

/-- The number of nodes of a signature. -/
def Signature.size (s : Signature) : Nat := s.params.length + Expr.sizes s.defaults

mutual

/-- The number of nodes of a statement. -/
def Stmt.size : Stmt → Nat
  | .output nodes _ => Expr.sizes nodes + 1
  | .assign target value _ => target.size + value.size + 1
  | .loop target iter body elseBody test _ =>
    target.size + iter.size + Expr.sizeOption test + Stmt.sizes body + Stmt.sizes elseBody + 1
  | .branch test body elseBody _ => test.size + Stmt.sizes body + Stmt.sizes elseBody + 1
  | .block _ body _ => Stmt.sizes body + 1
  | .extend source _ => source.size + 1
  | .embed source _ => source.size + 1
  | .importAs source _ _ => source.size + 1
  | .importNames source _ _ => source.size + 1
  | .define _ signature body _ => signature.size + Stmt.sizes body + 1
  | .callBlock signature call body _ => signature.size + call.size + Stmt.sizes body + 1
  | .filterBlock filter body _ => filter.size + Stmt.sizes body + 1
  | .expr node _ => node.size + 1
  | .breakLoop _ => 1
  | .continueLoop _ => 1

def Stmt.sizes : List Stmt → Nat
  | [] => 0
  | s :: ss => s.size + Stmt.sizes ss

end

theorem Expr.size_le_sizes {e : Expr} {es : List Expr} (h : e ∈ es) : e.size ≤ Expr.sizes es := by
  induction es with
  | nil => cases h
  | cons a es ih =>
    rw [Expr.sizes]
    rcases List.mem_cons.1 h with rfl | h
    · omega
    · have := ih h; omega

theorem Pair.size_le_sizes {p : Pair} {ps : List Pair} (h : p ∈ ps) : p.size ≤ Pair.sizes ps := by
  induction ps with
  | nil => cases h
  | cons a ps ih =>
    rw [Pair.sizes]
    rcases List.mem_cons.1 h with rfl | h
    · omega
    · have := ih h; omega

theorem Operand.size_le_sizes {o : Operand} {os : List Operand} (h : o ∈ os) :
    o.size ≤ Operand.sizes os := by
  induction os with
  | nil => cases h
  | cons a os ih =>
    rw [Operand.sizes]
    rcases List.mem_cons.1 h with rfl | h
    · omega
    · have := ih h; omega

theorem KeywordArg.size_le_sizes {k : KeywordArg} {ks : List KeywordArg} (h : k ∈ ks) :
    k.size ≤ KeywordArg.sizes ks := by
  induction ks with
  | nil => cases h
  | cons a ks ih =>
    rw [KeywordArg.sizes]
    rcases List.mem_cons.1 h with rfl | h
    · omega
    · have := ih h; omega

theorem Stmt.size_le_sizes {s : Stmt} {ss : List Stmt} (h : s ∈ ss) : s.size ≤ Stmt.sizes ss := by
  induction ss with
  | nil => cases h
  | cons a ss ih =>
    rw [Stmt.sizes]
    rcases List.mem_cons.1 h with rfl | h
    · omega
    · have := ih h; omega

namespace Node

/-- The number of nodes of a tree. -/
def size : Node → Nat
  | template t => Stmt.sizes t.body + 1
  | stmt s => s.size
  | expr e => e.size
  | pair p => p.size
  | operand o => o.size
  | keyword k => k.size

theorem size_of_mem_ofExprs {n : Node} {es : List Expr} (h : n ∈ ofExprs es) :
    n.size ≤ Expr.sizes es := by
  obtain ⟨e, he, rfl⟩ := List.mem_map.1 h
  exact Expr.size_le_sizes he

theorem size_of_mem_ofStmts {n : Node} {ss : List Stmt} (h : n ∈ ofStmts ss) :
    n.size ≤ Stmt.sizes ss := by
  obtain ⟨s, hs, rfl⟩ := List.mem_map.1 h
  exact Stmt.size_le_sizes hs

theorem size_of_mem_ofOption {n : Node} {e : Option Expr} (h : n ∈ ofOption e) :
    n.size ≤ Expr.sizeOption e := by
  cases e with
  | none => cases h
  | some e =>
    obtain ⟨a, ha, rfl⟩ := List.mem_map.1 h
    cases List.mem_singleton.1 ha
    exact Nat.le_refl _

theorem size_of_mem_ofArguments {n : Node} {a : Arguments} (h : n ∈ ofArguments a) :
    n.size ≤ a.size := by
  obtain ⟨p, k, s, t⟩ := a
  simp only [ofArguments, List.mem_append, Arguments.positional, Arguments.keywords,
    Arguments.spread, Arguments.keywordSpread] at h
  rw [Arguments.size]
  rcases h with ((h | h) | h) | h
  · have := size_of_mem_ofExprs h; omega
  · obtain ⟨a, ha, rfl⟩ := List.mem_map.1 h
    have := KeywordArg.size_le_sizes ha
    simp only [size]; omega
  · have := size_of_mem_ofOption h; omega
  · have := size_of_mem_ofOption h; omega

theorem size_of_mem_ofSignature {n : Node} {s : Signature} (h : n ∈ ofSignature s) :
    n.size ≤ s.size := by
  simp only [ofSignature, List.mem_append] at h
  unfold Signature.size
  rcases h with h | h
  · obtain ⟨e, he, rfl⟩ := List.mem_map.1 h
    obtain ⟨p, hp, rfl⟩ := List.mem_map.1 he
    have := List.length_pos_of_mem hp
    simp only [size, Param.expr, Expr.size]; omega
  · have := size_of_mem_ofExprs h; omega

theorem size_exprChild {n : Node} {e : Expr} (h : n ∈ exprChildren e) : n.size < e.size := by
  cases e with
  | const | name => cases h
  | tuple | list => have := size_of_mem_ofExprs h; rw [Expr.size]; omega
  | dict items =>
    obtain ⟨p, hp, rfl⟩ := List.mem_map.1 h
    have := Pair.size_le_sizes hp
    simp only [size, Expr.size]; omega
  | binary | unary | cond | subscript =>
    simp only [exprChildren, List.mem_cons, List.not_mem_nil, or_false] at h
    rcases h with rfl | h <;> (try rcases h with rfl | h) <;> (try subst h) <;>
      simp only [size, Expr.size] <;> omega
  | compare first rest =>
    rcases List.mem_cons.1 h with rfl | h
    · simp only [size, Expr.size]; omega
    · obtain ⟨o, ho, rfl⟩ := List.mem_map.1 h
      have := Operand.size_le_sizes ho
      simp only [size, Expr.size]; omega
  | slice =>
    simp only [exprChildren, List.mem_append] at h
    rw [Expr.size]
    rcases h with (h | h) | h <;> have := size_of_mem_ofOption h <;> omega
  | call | test =>
    rw [Expr.size]
    rcases List.mem_cons.1 h with rfl | h
    · simp only [size]; omega
    · have := size_of_mem_ofArguments h; omega
  | filter =>
    rw [Expr.size]
    rcases List.mem_append.1 h with h | h
    · have := size_of_mem_ofOption h; omega
    · have := size_of_mem_ofArguments h; omega

theorem size_stmtChild {n : Node} {s : Stmt} (h : n ∈ stmtChildren s) : n.size < s.size := by
  cases s with
  | output => have := size_of_mem_ofExprs h; rw [Stmt.size]; omega
  | assign =>
    simp only [stmtChildren, List.mem_cons, List.not_mem_nil, or_false] at h
    rcases h with rfl | rfl <;> simp only [size, Stmt.size] <;> omega
  | loop =>
    simp only [stmtChildren, List.mem_cons, List.mem_append] at h
    rw [Stmt.size]
    rcases h with rfl | rfl | (h | h) | h
    · simp only [size]; omega
    · simp only [size]; omega
    · have := size_of_mem_ofOption h; omega
    · have := size_of_mem_ofStmts h; omega
    · have := size_of_mem_ofStmts h; omega
  | branch =>
    simp only [stmtChildren, List.mem_cons, List.mem_append] at h
    rw [Stmt.size]
    rcases h with rfl | h | h
    · simp only [size]; omega
    · have := size_of_mem_ofStmts h; omega
    · have := size_of_mem_ofStmts h; omega
  | block => have := size_of_mem_ofStmts h; rw [Stmt.size]; omega
  | extend | embed | importAs | importNames | expr =>
    cases List.mem_singleton.1 h; simp only [size, Stmt.size]; omega
  | define =>
    rw [Stmt.size]
    rcases List.mem_append.1 h with h | h
    · have := size_of_mem_ofSignature h; omega
    · have := size_of_mem_ofStmts h; omega
  | callBlock =>
    rw [Stmt.size]
    rcases List.mem_append.1 h with h | h
    · have := size_of_mem_ofSignature h; omega
    · rcases List.mem_cons.1 h with rfl | h
      · simp only [size]; omega
      · have := size_of_mem_ofStmts h; omega
  | filterBlock =>
    rw [Stmt.size]
    rcases List.mem_cons.1 h with rfl | h
    · simp only [size]; omega
    · have := size_of_mem_ofStmts h; omega
  | breakLoop | continueLoop => cases h

theorem size_child {n c : Node} (h : c ∈ n.children) : c.size < n.size := by
  cases n with
  | template t => exact Nat.lt_succ_of_le (size_of_mem_ofStmts h)
  | stmt s => exact size_stmtChild h
  | expr e => exact size_exprChild h
  | pair p =>
    obtain ⟨k, v, s⟩ := p
    simp only [children, List.mem_cons, List.not_mem_nil, or_false] at h
    rcases h with rfl | rfl <;> simp only [size, Pair.size] <;> omega
  | operand o =>
    obtain ⟨op, e, s⟩ := o
    cases List.mem_singleton.1 h; simp only [size, Operand.size]; omega
  | keyword k =>
    obtain ⟨name, v, s⟩ := k
    cases List.mem_singleton.1 h; simp only [size, KeywordArg.size]; omega

end Node
end Stencil
