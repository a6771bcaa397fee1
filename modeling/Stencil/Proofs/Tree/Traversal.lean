/-
A walk meets every node of a tree once on the way down and once on the way up. Between the two it meets what is below
the node, one child after the other, so the nodes that are open at an event are the parent given with it and those above
(`Event.Nests`); the nodes entered are those that are stored in the fields of the tree (`walk_traverses`).
-/
import Stencil.Proofs.Tree.Fields

namespace Stencil.Node

/-! ## Events -/

def Event.parent : Event → Option Node
  | .enter _ p => p
  | .leave _ p => p

/-- The nodes that are open behind an event, the innermost first. -/
def Event.openBehind (stack : List Node) : Event → List Node
  | .enter n _ => n :: stack
  | .leave .. => stack.tail

/-- The nodes that are open behind some events, the innermost first. -/
def opened (stack : List Node) (events : List Event) : List Node := events.foldl Event.openBehind stack

/-- An event stands among others as one of a walk. A node is entered below the innermost node that is open, as a child
of it, and its whole walk begins there. It is left as the innermost one, below the next one, and its whole walk ends
there. -/
def Event.Nests (stack : List Node) (before after : List Event) : Event → Prop
  | .enter n p => p = (opened stack before).head? ∧ (∀ q ∈ p, n ∈ q.children) ∧
      ∃ rest, .enter n p :: after = n.walk p ++ rest
  | .leave n p => (∃ outer, opened stack before = n :: outer ∧ p = outer.head?) ∧
      ∃ start, before ++ [.leave n p] = start ++ n.walk p

theorem opened_append (stack : List Node) (es es' : List Event) :
    opened stack (es ++ es') = opened (opened stack es) es' := List.foldl_append

/-! ## Walks -/

/-- A walk enters the nodes of a tree, each before its children. -/
theorem walk_entered (n : Node) (parent : Option Node) :
    (n.walk parent).filterMap Event.entered? = n.descendants := by
  rw [walk_eq, descendants_eq, List.filterMap_cons, List.filterMap_append, List.filterMap_flatMap]
  have hchildren : n.children.flatMap (fun c => (c.walk (some n)).filterMap Event.entered?) =
      n.children.flatMap descendants := by
    rw [List.flatMap_def, List.flatMap_def, List.map_congr_left fun c hc => walk_entered c (some n)]
  rw [hchildren]
  simp [Event.entered?]
termination_by n.size
decreasing_by exact size_child hc

/-- All events of a walk but its first and its last one are below a node. -/
theorem parent_of_mem_walk {n : Node} {p : Option Node} {e : Event} (h : e ∈ n.walk p) :
    e.parent = p ∨ e.parent.isSome := by
  induction n using descendants.induct generalizing p with
  | case1 n ih =>
    rw [walk_eq, List.mem_cons, List.mem_append, List.mem_singleton] at h
    rcases h with rfl | h | rfl
    · exact .inl rfl
    · obtain ⟨c, hc, he⟩ := List.mem_flatMap.1 h
      refine .inr ?_
      rcases ih ⟨c, hc⟩ he with hparent | hparent
      · rw [hparent]
        rfl
      · exact hparent
    · exact .inl rfl

theorem opened_flatMap {cs : List Node} {p : Option Node} (h : ∀ c ∈ cs, ∀ stack, opened stack (c.walk p) = stack)
    (stack : List Node) : opened stack (cs.flatMap (walk · p)) = stack := by
  induction cs with
  | nil => rfl
  | cons c cs ih =>
    obtain ⟨hc, hcs⟩ := List.forall_mem_cons.1 h
    rw [List.flatMap_cons, opened_append, hc, ih hcs]

/-- Behind a walk the same nodes are open as before it. -/
theorem opened_walk (n : Node) (p : Option Node) (stack : List Node) : opened stack (n.walk p) = stack := by
  induction n using descendants.induct generalizing p stack with
  | case1 n ih =>
    rw [walk_eq]
    show opened (n :: stack) _ = stack
    rw [opened_append, opened_flatMap fun c hc stack => ih ⟨c, hc⟩ (some n) stack]
    rfl

/-- An event of a walk within other events, behind which the nodes are open that the walk is below. -/
theorem Event.Nests.within {stack : List Node} {before after : List Event} {e : Event} {first : List Event}
    (h : e.Nests (opened stack first) before after) (last : List Event) :
    e.Nests stack (first ++ before) (after ++ last) := by
  cases e with
  | enter n p =>
    obtain ⟨hp, hchild, rest, hwalk⟩ := h
    refine ⟨by rwa [opened_append], hchild, rest ++ last, ?_⟩
    rw [← List.cons_append, hwalk, List.append_assoc]
  | leave n p =>
    obtain ⟨hopen, start, hwalk⟩ := h
    refine ⟨by rwa [opened_append], first ++ start, ?_⟩
    rw [List.append_assoc, hwalk, List.append_assoc]

/-! ## Splitting walks -/

/-- An item of joined lists is in one of them. -/
theorem exists_of_flatMap_eq {α β : Type} {f : α → List β} {cs : List α} {before after : List β} {e : β}
    (h : cs.flatMap f = before ++ e :: after) :
    ∃ cs₁ c cs₂ b a, cs = cs₁ ++ c :: cs₂ ∧ f c = b ++ e :: a ∧ before = cs₁.flatMap f ++ b ∧
      after = a ++ cs₂.flatMap f := by
  induction cs generalizing before with
  | nil => exact absurd h.symm (List.append_ne_nil_of_right_ne_nil _ (List.cons_ne_nil _ _))
  | cons c cs ih =>
    have further (before' : List β) (hbefore : before = f c ++ before') (h : cs.flatMap f = before' ++ e :: after) :
        ∃ cs₁ d cs₂ b a, c :: cs = cs₁ ++ d :: cs₂ ∧ f d = b ++ e :: a ∧ before = cs₁.flatMap f ++ b ∧
          after = a ++ cs₂.flatMap f := by
      obtain ⟨cs₁, d, cs₂, b, a, rfl, hd, rfl, rfl⟩ := ih h
      exact ⟨c :: cs₁, d, cs₂, b, a, rfl, hd, by rw [hbefore, List.flatMap_cons, List.append_assoc], rfl⟩
    rw [List.flatMap_cons] at h
    rcases List.append_eq_append_iff.1 h with ⟨before', hbefore, hrest⟩ | ⟨inner, hc, hrest⟩
    · exact further before' hbefore hrest
    · cases inner with
      | nil => exact further [] (by simpa using hc.symm) hrest.symm
      | cons d inner =>
        obtain ⟨rfl, rfl⟩ := List.cons.inj hrest
        exact ⟨[], c, cs, before, inner, rfl, hc, rfl, rfl⟩

/-- Every event of a walk stands among the others as it should. -/
theorem walk_nests (n : Node) (stack : List Node) (hchild : ∀ q ∈ stack.head?, n ∈ q.children) (before : List Event)
    (e : Event) (after : List Event) (h : n.walk stack.head? = before ++ e :: after) : e.Nests stack before after := by
  induction n using descendants.induct generalizing stack before e after with
  | case1 n ih =>
    have hwhole := h
    rw [walk_eq] at h
    cases before with
    | nil =>
      obtain ⟨rfl, -⟩ := List.cons.inj h
      refine ⟨rfl, hchild, [], ?_⟩
      rw [List.append_nil]
      exact hwhole.symm
    | cons first before =>
      rw [List.cons_append, List.cons.injEq] at h
      obtain ⟨rfl, h⟩ := h
      rcases after.eq_nil_or_concat with rfl | ⟨after, last, rfl⟩
      · -- the node is left: its children have been walked, so it is the innermost one again
        obtain ⟨rfl, hlast⟩ := List.append_inj' h rfl
        obtain rfl := List.singleton_inj.1 hlast
        refine ⟨⟨stack, opened_flatMap (fun c _ => opened_walk c (some n)) (n :: stack), rfl⟩, [], hwhole.symm⟩
      · -- the event is one of the walk of a child
        rw [List.concat_eq_append, ← List.cons_append, ← List.append_assoc] at h
        obtain ⟨h, -⟩ := List.append_inj' h rfl
        obtain ⟨cs₁, c, cs₂, b, a, hcs, hc, rfl, rfl⟩ := exists_of_flatMap_eq h
        have hmem : c ∈ n.children := hcs ▸ List.mem_append_right _ (List.mem_cons_self ..)
        have hfirst : opened stack (.enter n stack.head? :: cs₁.flatMap (walk · (some n))) = n :: stack :=
          opened_flatMap (fun c _ => opened_walk c (some n)) (n :: stack)
        have hnests := ih ⟨c, hmem⟩ (n :: stack) (fun q hq => Option.some.inj hq ▸ hmem) b e a hc
        rw [← hfirst] at hnests
        rw [List.concat_eq_append, List.append_assoc]
        exact hnests.within _

/-! ## Whole trees -/

/-- The walk of a tree from its root. -/
structure Traversed (root : Node) : Prop where
  /-- The fields of a node are those of its record. -/
  fields : ∀ n ∈ root.descendants,
    (Leaves.document.node n).fields = Json.framed (n.fields.map fun f => (f.1, f.2.map Leaves.document.node))
  /-- The nodes are entered in pre-order, which is the order of `descendants`. -/
  preorder : (root.walk none).filterMap Event.entered? = root.descendants
  /-- What is stored in the tree is entered, as often as it is stored. -/
  once : ((root.walk none).filterMap Event.entered?).Perm root.stored
  /-- All events between the first and the last one are below a node. -/
  below : ∃ inner, root.walk none = .enter root none :: (inner ++ [.leave root none]) ∧ ∀ e ∈ inner, e.parent.isSome
  /-- Children are walked one after the other. -/
  blocks : ∀ n ∈ root.descendants, ∀ p,
    n.walk p = .enter n p :: (n.children.flatMap (walk · (some n)) ++ [.leave n p])
  nests : ∀ before e after, root.walk none = before ++ e :: after → e.Nests [] before after
  closes : opened [] (root.walk none) = []
  found : ∀ typeName, root.findAll typeName =
    ((root.walk none).filterMap Event.entered?).filter fun n => n.typeName == typeName

theorem walk_traverses (root : Node) : root.Traversed where
  fields n _ := fields_recorded Leaves.document_plain n
  preorder := root.walk_entered none
  once := by
    rw [walk_entered]
    exact root.descendants_perm_stored
  below := by
    refine ⟨_, root.walk_eq none, fun e he => ?_⟩
    obtain ⟨c, -, he⟩ := List.mem_flatMap.1 he
    rcases parent_of_mem_walk he with hparent | hparent
    · rw [hparent]
      rfl
    · exact hparent
  blocks n _ p := n.walk_eq p
  nests := root.walk_nests [] nofun
  closes := root.opened_walk none []
  found typeName := by rw [walk_entered, findAll]

end Stencil.Node
