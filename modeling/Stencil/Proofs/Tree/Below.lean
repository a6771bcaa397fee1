/-
What stands below a node of a tree: its children, what stands below them, and nothing else. Below an expression
stand parts of expressions only.
-/
import Stencil.Tree.Walk

namespace Stencil.Node

variable {root n c : Node}

theorem mem_descendants : n ∈ root.descendants ↔ n = root ∨ ∃ c ∈ root.children, n ∈ c.descendants := by
  rw [descendants_eq, List.mem_cons, List.mem_flatMap]

/-- What is directly below a node that is below a root is below the root. -/
theorem child_mem_descendants (hc : c ∈ n.children) (hn : n ∈ root.descendants) : c ∈ root.descendants := by
  induction root using descendants.induct with
  | case1 root ih =>
    rcases mem_descendants.1 hn with rfl | ⟨d, hd, hn⟩
    · exact mem_descendants.2 (.inr ⟨c, hc, mem_descendants.2 (.inl rfl)⟩)
    · exact mem_descendants.2 (.inr ⟨d, hd, ih ⟨d, hd⟩ hn⟩)

/-- The node is an expression or a part of one. -/
def IsInner : Node → Prop
  | template _ | stmt _ => False
  | _ => True

section

variable {ns ms : List Node}

theorem inner_cons {e : Expr} (h : ∀ c ∈ ns, c.IsInner) : ∀ c ∈ expr e :: ns, c.IsInner :=
  List.forall_mem_cons.2 ⟨trivial, h⟩

theorem inner_append (h : ∀ c ∈ ns, c.IsInner) (h' : ∀ c ∈ ms, c.IsInner) : ∀ c ∈ ns ++ ms, c.IsInner :=
  List.forall_mem_append.2 ⟨h, h'⟩

end

theorem ofExprs_inner {es : List Expr} : ∀ c ∈ ofExprs es, c.IsInner := List.forall_mem_map.2 fun _ _ => trivial

theorem ofArguments_inner {args : Arguments} : ∀ c ∈ ofArguments args, c.IsInner := by
  have hkeywords : ∀ c ∈ args.keywords.map keyword, c.IsInner := List.forall_mem_map.2 fun _ _ => trivial
  exact inner_append (inner_append (inner_append ofExprs_inner hkeywords) ofExprs_inner) ofExprs_inner

theorem exprChildren_inner (e : Expr) : ∀ c ∈ exprChildren e, c.IsInner := by
  cases e with
  | const => nofun
  | name => nofun
  | tuple => exact ofExprs_inner
  | list => exact ofExprs_inner
  | dict => exact List.forall_mem_map.2 fun _ _ => trivial
  | binary => exact inner_cons (inner_cons nofun)
  | unary => exact inner_cons nofun
  | compare => exact inner_cons (List.forall_mem_map.2 fun _ _ => trivial)
  | cond => exact inner_cons (inner_cons (inner_cons nofun))
  | subscript => exact inner_cons (inner_cons nofun)
  | slice => exact inner_append (inner_append ofExprs_inner ofExprs_inner) ofExprs_inner
  | call => exact inner_cons ofArguments_inner
  | filter => exact inner_append ofExprs_inner ofArguments_inner
  | test => exact inner_cons ofArguments_inner

theorem IsInner.children (h : n.IsInner) : ∀ c ∈ n.children, c.IsInner := by
  cases n with
  | template => cases h
  | stmt => cases h
  | expr e => exact exprChildren_inner e
  | pair p =>
    obtain ⟨key, value, s⟩ := p
    exact inner_cons (inner_cons nofun)
  | operand o =>
    obtain ⟨op, e, s⟩ := o
    exact inner_cons nofun
  | keyword k =>
    obtain ⟨key, value, s⟩ := k
    exact inner_cons nofun

end Stencil.Node
