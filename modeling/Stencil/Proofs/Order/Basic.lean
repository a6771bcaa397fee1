/-
The order of the source in a tree. `Node.sourceChildren` lists the children of a node as the source has them: the value
of a conditional expression before its test, and each default behind its parameter. `Node.Ordered` says of a whole tree
that the nodes stand in that order, each in a range of edges that follows the one before it.
-/
import Stencil.Proofs.Span.Edge
import Stencil.Proofs.Writing.Expression

namespace Stencil

/-! ## Children as the source has them -/

/-- Parameters and defaults, both from the last one on, with each default before its parameter. -/
def Signature.weave : List Param → List Expr → List Node
  | [], defaults => Node.ofExprs defaults
  | params, [] => Node.ofExprs (params.map Param.expr)
  | p :: params, e :: defaults => .expr e :: .expr p.expr :: weave params defaults

/-- The parameters, each with its default behind it. -/
def Signature.sourceNodes (g : Signature) : List Node := (weave g.params.reverse g.defaults.reverse).reverse

namespace Node

/-- The direct children of a node, as the source has them. -/
def sourceChildren : Node → List Node
  | expr (.cond test whenTrue whenFalse _) => [expr whenTrue, expr test, expr whenFalse]
  | stmt (.define _ signature body _) => signature.sourceNodes ++ ofStmts body
  | stmt (.callBlock signature call body _) => signature.sourceNodes ++ expr call :: ofStmts body
  | n => n.children

/-- The node yields its children in another order than the source has them: the test of a conditional expression comes
before its value, and parameters come before the defaults of those before them. -/
def Reorders : Node → Prop
  | expr (.cond ..) => True
  | stmt (.define _ signature _ _) | stmt (.callBlock signature _ _ _) => 2 ≤ signature.defaults.length
  | _ => False

end Node

theorem Signature.weave_nil (params : List Param) : weave params [] = Node.ofExprs (params.map Param.expr) := by
  cases params <;> rfl

theorem Signature.weave_perm (params : List Param) (defaults : List Expr) :
    (weave params defaults).Perm (Node.ofExprs (params.map Param.expr) ++ Node.ofExprs defaults) := by
  induction params generalizing defaults with
  | nil => exact .refl _
  | cons p params ih =>
    cases defaults with
    | nil => rw [weave_nil, Node.ofExprs, Node.ofExprs, List.map_nil, List.append_nil]
    | cons e defaults =>
      refine (List.Perm.swap _ _ _).trans (.cons _ ?_)
      exact ((ih defaults).cons _).trans List.perm_middle.symm

theorem Signature.sourceNodes_perm (g : Signature) : g.sourceNodes.Perm (Node.ofSignature g) := by
  refine (List.reverse_perm _).trans ((weave_perm _ _).trans ?_)
  unfold Node.ofSignature Node.ofExprs
  rw [List.map_reverse, List.map_reverse, List.map_reverse]
  exact (List.reverse_perm _).append (List.reverse_perm _)

/-- A signature of which one default is given at most. -/
theorem Signature.sourceNodes_eq {g : Signature} (h : g.defaults.length < 2) : g.sourceNodes = Node.ofSignature g := by
  obtain ⟨params, defaults⟩ := g
  have hplain (ps : List Param) : (weave ps.reverse []).reverse = Node.ofExprs (ps.map Param.expr) := by
    unfold Node.ofExprs
    rw [weave_nil, List.map_reverse, Node.ofExprs, List.map_reverse, List.reverse_reverse]
  unfold sourceNodes Node.ofSignature
  rcases defaults with _ | ⟨e, _ | ⟨_, _⟩⟩
  · simp [hplain, Node.ofExprs]
  · rcases params.eq_nil_or_concat with rfl | ⟨ps, p, rfl⟩
    · rfl
    · have hrest := hplain ps
      simp_all [weave, Node.ofExprs]
  · exact absurd h (by simp)

/-- A parameter behind those that have been read. -/
theorem Signature.sourceNodes_required (params : List Param) (p : Param) :
    sourceNodes ⟨params ++ [p], []⟩ = sourceNodes ⟨params, []⟩ ++ [.expr p.expr] := by
  simp [sourceNodes, weave_nil, Node.ofExprs]

/-- A parameter with its default, behind those that have been read. -/
theorem Signature.sourceNodes_optional (params : List Param) (defaults : List Expr) (p : Param) (e : Expr) :
    sourceNodes ⟨params ++ [p], defaults ++ [e]⟩ = sourceNodes ⟨params, defaults⟩ ++ [.expr p.expr] ++ [.expr e] := by
  simp [sourceNodes, weave]

namespace Node

theorem sourceChildren_perm (n : Node) : n.sourceChildren.Perm n.children := by
  unfold sourceChildren
  split
  · exact .swap ..
  · exact (Signature.sourceNodes_perm _).append_right _
  · exact (Signature.sourceNodes_perm _).append_right _
  · exact .refl _

/-- Most nodes yield their children in the order of the source. -/
theorem sourceChildren_eq {n : Node} (h : ¬n.Reorders) : n.sourceChildren = n.children := by
  unfold sourceChildren
  split
  · exact absurd trivial h
  · rw [Signature.sourceNodes_eq (Nat.lt_of_not_le h)]
    rfl
  · rw [Signature.sourceNodes_eq (Nat.lt_of_not_le h)]
    rfl
  · rfl

end Node

/-! ## Trees in order -/

/-- The constant of a node is written by a token: a text, or what the token denotes. -/
def Node.Written (s : Stream) : Node → Prop
  | .expr (.const c _) => (∃ v, c = .text v) ∨ ∃ i, (s.get i).Denotes c
  | _ => True

mutual

/-- The node begins in a range of edges, and behind it its children stand there in the order of the source. Only the
test that a `not` negates begins before the `not`. -/
inductive Node.Ordered (s : Stream) : (a b : Nat) → Node → Prop
  | mk {a b x : Nat} {n : Node} (hw : n.Written s) (hstart : n.span.start = s.edge x) (ha : a ≤ x)
      (h : Node.Row s x b n.sourceChildren) : Node.Ordered s a b n
  | negated {subject : Expr} {name : Text} {args : Arguments} {span span' : Span} {a b x y : Nat}
      (hstart : span'.start = s.edge x) (ha : a ≤ x) (hb : x ≤ b)
      (h : Node.Ordered s y b (.expr (.test subject name args span))) :
      Node.Ordered s a b (.expr (.unary .not (.test subject name args span) span'))

/-- The nodes stand in a range of edges, one behind the other. -/
inductive Node.Row (s : Stream) : (a b : Nat) → List Node → Prop
  | nil {a b : Nat} (h : a ≤ b) : Node.Row s a b []
  | cons {a m b : Nat} {n : Node} {ns : List Node} (hn : Node.Ordered s a m n) (h : Node.Row s m b ns) :
      Node.Row s a b (n :: ns)

end

/-- The node begins at one of the edges of a range. -/
def Node.Begins (s : Stream) (a b : Nat) (n : Node) : Prop := ∃ x, n.span.start = s.edge x ∧ a ≤ x ∧ x ≤ b

/-- The node begins in the source no further on than the other one. -/
def Node.Precedes (n n' : Node) : Prop := n.span.start.offset ≤ n'.span.start.offset

/-- The node is the `not` of a negated test. -/
def Node.IsNegatedTest (n : Node) : Prop :=
  ∃ subject name args span span', n = .expr (.unary .not (.test subject name args span) span')

variable {s : Stream}

namespace Node

theorem Begins.mono {n : Node} {a b a' b' : Nat} (h : n.Begins s a b) (ha : a' ≤ a) (hb : b ≤ b') :
    n.Begins s a' b' := by
  obtain ⟨x, hstart, hx, hx'⟩ := h
  exact ⟨x, hstart, Nat.le_trans ha hx, Nat.le_trans hx' hb⟩

mutual

theorem Ordered.begins {n : Node} {a b : Nat} (h : n.Ordered s a b) : n.Begins s a b :=
  match h with
  | .mk _ hstart ha h => ⟨_, hstart, ha, h.le⟩
  | .negated hstart ha hb _ => ⟨_, hstart, ha, hb⟩

theorem Row.le {ns : List Node} {a b : Nat} (h : Row s a b ns) : a ≤ b :=
  match h with
  | .nil h => h
  | .cons hn h => Nat.le_trans (hn.begins.elim fun _ hx => Nat.le_trans hx.2.1 hx.2.2) h.le

end

theorem Ordered.written {n : Node} {a b : Nat} (h : n.Ordered s a b) : n.Written s := by
  cases h with
  | mk hw => exact hw
  | negated => trivial

theorem Ordered.le {n : Node} {a b : Nat} (h : n.Ordered s a b) : a ≤ b := by
  obtain ⟨x, -, ha, hb⟩ := h.begins
  exact Nat.le_trans ha hb

mutual

theorem Ordered.mono {n : Node} {a b a' b' : Nat} (h : n.Ordered s a b) (ha : a' ≤ a) (hb : b ≤ b') :
    n.Ordered s a' b' :=
  match h with
  | .mk hw hstart hx h => .mk hw hstart (Nat.le_trans ha hx) (h.mono (Nat.le_refl _) hb)
  | .negated hstart hx hx' h =>
    .negated hstart (Nat.le_trans ha hx) (Nat.le_trans hx' hb) (h.mono (Nat.le_refl _) hb)

theorem Row.mono {ns : List Node} {a b a' b' : Nat} (h : Row s a b ns) (ha : a' ≤ a) (hb : b ≤ b') :
    Row s a' b' ns :=
  match h with
  | .nil h => .nil (Nat.le_trans ha (Nat.le_trans h hb))
  | .cons hn h => .cons (hn.mono ha (Nat.le_refl _)) (h.mono (Nat.le_refl _) hb)

end

/-- What stands in a range from a node's start on may begin there. -/
theorem Ordered.start {n : Node} {a b : Nat} (h : n.Ordered s a b) :
    ∃ x, n.span.start = s.edge x ∧ a ≤ x ∧ n.Ordered s x b := by
  cases h with
  | mk hw hstart ha h => exact ⟨_, hstart, ha, .mk hw hstart (Nat.le_refl _) h⟩
  | negated hstart ha hb h => exact ⟨_, hstart, ha, .negated hstart (Nat.le_refl _) hb h⟩

namespace Row

theorem single {n : Node} {a b : Nat} (h : n.Ordered s a b) : Row s a b [n] := .cons h (.nil (Nat.le_refl b))

theorem append {ns ms : List Node} {a m b : Nat} (h : Row s a m ns) (h' : Row s m b ms) : Row s a b (ns ++ ms) :=
  match h with
  | .nil hle => h'.mono hle (Nat.le_refl b)
  | .cons hn h => .cons hn (h.append h')

theorem snoc {n : Node} {ns : List Node} {a m b : Nat} (h : Row s a m ns) (hn : n.Ordered s m b) :
    Row s a b (ns ++ [n]) := h.append (.single hn)

theorem ordered {n : Node} {a b : Nat} (h : Row s a b [n]) : n.Ordered s a b := by
  cases h with
  | cons hn h => exact hn.mono (Nat.le_refl a) h.le

/-- A part that may be missing, and then nothing is read. -/
theorem option {o : Option Expr} {p q : Nat} (hnone : o = none → q = p)
    (h : ∀ e, o = some e → (expr e).Ordered s (2 * p) (2 * q)) : Row s (2 * p) (2 * q) (ofOption o) := by
  cases o with
  | none => exact .nil (Nat.le_of_eq (by rw [hnone rfl]))
  | some e => exact .single (h e rfl)

theorem begins {ns : List Node} {a b : Nat} (h : Row s a b ns) : ∀ n ∈ ns, n.Begins s a b :=
  match h with
  | .nil _ => nofun
  | .cons hn h => List.forall_mem_cons.2
      ⟨hn.begins.mono (Nat.le_refl _) h.le, fun n hmem => (h.begins n hmem).mono hn.le (Nat.le_refl _)⟩

end Row

/-! ## Nodes that are put together -/

/-- A node that begins with its first child. -/
theorem Ordered.of_first {n c : Node} {ns : List Node} {a m b : Nat} (hc : c.Ordered s a m)
    (hstart : n.span.start = c.span.start) (hchildren : n.sourceChildren = c :: ns) (h : Row s m b ns) :
    n.Ordered s a b := by
  obtain ⟨x, hx, ha, hc⟩ := hc.start
  have hw : n.Written s := by
    unfold Written
    split
    · cases hchildren
    · trivial
  refine .mk hw (hstart.trans hx) ha ?_
  rw [hchildren]
  exact .cons hc h

/-- A node that begins with a token. -/
theorem Ordered.of_token {n : Node} {pos b : Nat} (hw : n.Written s) (hstart : n.span.start = (s.get pos).span.start)
    (h : Row s (2 * pos) b n.sourceChildren) : n.Ordered s (2 * pos) b :=
  .mk hw (hstart.trans (s.edge_start pos).symm) (Nat.le_refl _) h

theorem Ordered.of_token_from {n : Node} {a pos b : Nat} (ha : a ≤ 2 * pos) (hw : n.Written s)
    (hstart : n.span.start = (s.get pos).span.start) (h : Row s (2 * pos) b n.sourceChildren) : n.Ordered s a b :=
  (of_token hw hstart h).mono ha (Nat.le_refl b)

mutual

theorem Ordered.of_mem_descendants {n d : Node} {a b : Nat} (h : n.Ordered s a b) (hd : d ∈ n.descendants) :
    ∃ x y, d.Ordered s x y := by
  rw [descendants_eq, List.mem_cons] at hd
  rcases hd with rfl | hd
  · exact ⟨_, _, h⟩
  · match h with
    | .mk _ _ _ h =>
      refine h.of_mem_descendants ?_
      obtain ⟨c, hc, hd⟩ := List.mem_flatMap.1 hd
      exact List.mem_flatMap.2 ⟨c, (sourceChildren_perm n).mem_iff.2 hc, hd⟩
    | .negated _ _ _ h =>
      obtain ⟨c, hc, hd⟩ := List.mem_flatMap.1 hd
      rw [List.mem_singleton.1 hc] at hd
      exact h.of_mem_descendants hd

theorem Row.of_mem_descendants {ns : List Node} {d : Node} {a b : Nat} (h : Row s a b ns)
    (hd : d ∈ ns.flatMap descendants) : ∃ x y, d.Ordered s x y := by
  match h with
  | .nil _ => cases hd
  | .cons hn h =>
    rw [List.flatMap_cons, List.mem_append] at hd
    exact hd.elim hn.of_mem_descendants h.of_mem_descendants

end

/-! ## The order of walks -/

section

variable (hedge : ∀ m n, m ≤ n → (s.edge m).offset ≤ (s.edge n).offset)
include hedge

theorem Begins.precedes {n n' : Node} {a m b : Nat} (h : n.Begins s a m) (h' : n'.Begins s m b) : n.Precedes n' := by
  obtain ⟨x, hstart, -, hx⟩ := h
  obtain ⟨y, hstart', hy, -⟩ := h'
  unfold Precedes
  rw [hstart, hstart']
  exact hedge x y (Nat.le_trans hx hy)

/-- Nodes in a row begin one behind the other. -/
theorem Row.pairwise {ns : List Node} {a b : Nat} (h : Row s a b ns) : ns.Pairwise Precedes :=
  match h with
  | .nil _ => .nil
  | .cons hn h => .cons (fun n hmem => hn.begins.precedes hedge (h.begins n hmem)) h.pairwise

mutual

/-- Where nodes have their children in the order of the source and begin before them, a walk meets nodes one behind the
other. -/
theorem Ordered.walk {n : Node} {a b : Nat} (h : n.Ordered s a b)
    (hplain : ∀ d ∈ n.descendants, ¬d.Reorders ∧ ¬d.IsNegatedTest) :
    n.descendants.Pairwise Precedes ∧ ∀ d ∈ n.descendants, d.Begins s a b :=
  match h with
  | .negated .. => by
    rw [descendants_eq] at hplain
    exact ((hplain _ (List.mem_cons_self ..)).2 ⟨_, _, _, _, _, rfl⟩).elim
  | .mk _ hstart ha h => by
    rw [descendants_eq] at hplain ⊢
    obtain ⟨hn, hchildren⟩ := List.forall_mem_cons.1 hplain
    rw [← sourceChildren_eq hn.1] at hchildren ⊢
    obtain ⟨hpairwise, hbegins⟩ := h.walk hchildren
    have hhere : n.Begins s a _ := ⟨_, hstart, ha, Nat.le_refl _⟩
    refine ⟨.cons (fun d hd => hhere.precedes hedge (hbegins d hd)) hpairwise, List.forall_mem_cons.2 ⟨?_, ?_⟩⟩
    · exact hhere.mono (Nat.le_refl _) h.le
    · exact fun d hd => (hbegins d hd).mono ha (Nat.le_refl _)

theorem Row.walk {ns : List Node} {a b : Nat} (h : Row s a b ns)
    (hplain : ∀ d ∈ ns.flatMap descendants, ¬d.Reorders ∧ ¬d.IsNegatedTest) :
    (ns.flatMap descendants).Pairwise Precedes ∧ ∀ d ∈ ns.flatMap descendants, d.Begins s a b :=
  match h with
  | .nil _ => ⟨.nil, nofun⟩
  | .cons hn h => by
    rw [List.flatMap_cons] at hplain ⊢
    obtain ⟨hfirst, hothers⟩ := List.forall_mem_append.1 hplain
    obtain ⟨hpairwise, hbegins⟩ := hn.walk hfirst
    obtain ⟨hpairwise', hbegins'⟩ := h.walk hothers
    refine ⟨List.pairwise_append.2 ⟨hpairwise, hpairwise', fun d hd d' hd' => ?_⟩, List.forall_mem_append.2 ⟨?_, ?_⟩⟩
    · exact (hbegins d hd).precedes hedge (hbegins' d' hd')
    · exact fun d hd => (hbegins d hd).mono (Nat.le_refl _) h.le
    · exact fun d hd => (hbegins' d hd).mono hn.le (Nat.le_refl _)

end

end

end Node
end Stencil
