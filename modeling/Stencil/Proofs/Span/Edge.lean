/-
Where the nodes of a tree stand in the tokens they were read from. The edges of a stream are the starts
and finishes of its tokens, one behind the other, and every span that is read runs from one edge to
another. `Node.Placed` says of a whole tree that each node contains its children; the one exception is
the `not` of a negated test, which stands at the word `is` while the test begins with its subject.
-/
import Stencil.Grammar.Rule
import Stencil.Grammar.Stream
import Stencil.Tree.Walk

namespace Stencil

/-! ## Edges -/

namespace Stream

/-- The starts and finishes of the tokens: the start of the token at `i` has the number `2 * i`, its
finish the number behind. -/
def edge (s : Stream) (n : Nat) : Location :=
  if n % 2 = 0 then (s.get (n / 2)).span.start else (s.get (n / 2)).span.finish

/-- A token begins at the place. -/
def Starts (s : Stream) (l : Location) : Prop := ∃ i, l = (s.get i).span.start

variable {s : Stream}

theorem edge_start (i : Nat) : s.edge (2 * i) = (s.get i).span.start := by
  rw [edge, if_pos (by omega), Nat.mul_div_cancel_left i Nat.two_pos]

theorem edge_finish (i : Nat) : s.edge (2 * i + 1) = (s.get i).span.finish := by
  have hhalf : (2 * i + 1) / 2 = i := by omega
  rw [edge, if_neg (by omega), hhalf]

theorem span_get (i : Nat) : (s.get i).span = ⟨s.edge (2 * i), s.edge (2 * i + 1)⟩ := by
  rw [edge_start, edge_finish]

/-- The token read last is the one before the position. -/
theorem endBefore_eq {pos : Nat} (h : 0 < pos) : s.endBefore pos = s.edge (2 * pos - 1) := by
  obtain ⟨i, rfl⟩ : ∃ i, pos = i + 1 := ⟨pos - 1, by omega⟩
  have hnumber : 2 * (i + 1) - 1 = 2 * i + 1 := by omega
  rw [hnumber, edge_finish, endBefore, if_neg (Nat.succ_ne_zero i), Nat.add_sub_cancel]
  unfold get
  by_cases hi : i < s.tokens.size
  · rw [Array.getElem?_eq_getElem hi, Option.getD_some, Option.getD_some]
  · have hnone (j : Nat) (hj : i ≤ j) : s.tokens[j]? = none := Array.getElem?_eq_none (by omega)
    rw [hnone i (Nat.le_refl i), hnone (i + 1) (Nat.le_succ i)]
    rfl

end Stream

/-! ## Nodes -/

/-- The node stands in a range of edges, and every node below it stands in the node above; only the
`not` of a negated test begins behind the test, at the word `is`. -/
inductive Node.Placed (s : Stream) : (a b : Nat) → Node → Prop
  | contains {n : Node} {a b x y : Nat} (hspan : n.span = ⟨s.edge x, s.edge y⟩) (ha : a ≤ x) (hxy : x ≤ y)
      (hb : y < b) (h : ∀ c ∈ n.children, Placed s x (y + 1) c) : Placed s a b n
  | negated {subject : Expr} {name : Text} {args : Arguments} {span : Span} {a b x i y : Nat}
      (hk : (s.get i).kind = .keyword .isOp) (ha : a ≤ 2 * i) (hy : 2 * i ≤ y) (hb : y < b)
      (h : Placed s x (y + 1) (.expr (.test subject name args span))) :
      Placed s a b (.expr (.unary .not (.test subject name args span) ⟨s.edge (2 * i), s.edge y⟩))

/-- All nodes stand in a range of edges. -/
def Node.AllPlaced (s : Stream) (a b : Nat) (ns : List Node) : Prop := ∀ n ∈ ns, n.Placed s a b

/-- The expression stands in a range of edges, and begins where a token begins. -/
def Expr.Placed (s : Stream) (a b : Nat) (e : Expr) : Prop :=
  (Node.expr e).Placed s a b ∧ s.Starts e.span.start

/-- The expressions stand in a range of edges, one behind the other. -/
inductive Expr.Row (s : Stream) : (a b : Nat) → List Expr → Prop
  | nil {a b : Nat} (h : a ≤ b) : Row s a b []
  | cons {a m b : Nat} {e : Expr} {es : List Expr} (he : e.Placed s a m) (hes : Row s m b es) :
      Row s a b (e :: es)

variable {s : Stream} {a a' b b' m x y : Nat} {n : Node} {ns ms : List Node} {e : Expr} {es : List Expr}

namespace Node

namespace Placed

theorem mono (h : n.Placed s a b) (ha : a' ≤ a) (hb : b ≤ b') : n.Placed s a' b' := by
  cases h with
  | contains hspan ha' hxy hb' h => exact .contains hspan (Nat.le_trans ha ha') hxy (Nat.lt_of_lt_of_le hb' hb) h
  | negated hk ha' hy hb' h => exact .negated hk (Nat.le_trans ha ha') hy (Nat.lt_of_lt_of_le hb' hb) h

/-- The edges of a node, which it also stands between. -/
theorem edges (h : n.Placed s a b) : ∃ x y, a ≤ x ∧ x ≤ y ∧ y < b ∧ n.span = ⟨s.edge x, s.edge y⟩ ∧
    n.Placed s x (y + 1) := by
  cases h with
  | @contains _ _ _ x y hspan ha hxy hb h =>
    exact ⟨x, y, ha, hxy, hb, hspan, .contains hspan (Nat.le_refl x) hxy (Nat.lt_succ_self y) h⟩
  | @negated _ _ _ _ _ _ _ i y hk ha hy hb h =>
    exact ⟨2 * i, y, ha, hy, hb, rfl, .negated hk (Nat.le_refl _) hy (Nat.lt_succ_self y) h⟩

theorem of_mem_descendants (h : n.Placed s a b) {d : Node} (hd : d ∈ n.descendants) : ∃ x y, d.Placed s x y := by
  rw [descendants_eq, List.mem_cons] at hd
  induction h with
  | contains hspan ha hxy hb h ih =>
    rcases hd with rfl | hd
    · exact ⟨_, _, .contains hspan ha hxy hb h⟩
    · obtain ⟨c, hc, hd⟩ := List.mem_flatMap.1 hd
      rw [descendants_eq, List.mem_cons] at hd
      exact ih c hc hd
  | negated hk ha hy hb h ih =>
    rcases hd with rfl | hd
    · exact ⟨_, _, .negated hk ha hy hb h⟩
    · obtain ⟨c, hc, hd⟩ := List.mem_flatMap.1 hd
      rw [List.mem_singleton.1 hc, descendants_eq, List.mem_cons] at hd
      exact ih hd

end Placed

namespace AllPlaced

theorem nil : AllPlaced s a b [] := nofun

theorem cons (hn : n.Placed s a b) (h : AllPlaced s a b ns) : AllPlaced s a b (n :: ns) :=
  List.forall_mem_cons.2 ⟨hn, h⟩

theorem append (h : AllPlaced s a b ns) (h' : AllPlaced s a b ms) : AllPlaced s a b (ns ++ ms) :=
  List.forall_mem_append.2 ⟨h, h'⟩

theorem mono (h : AllPlaced s a b ns) (ha : a' ≤ a) (hb : b ≤ b') : AllPlaced s a' b' ns :=
  fun c hc => (h c hc).mono ha hb

theorem ofOption {o : Option Expr} (h : ∀ e, o = some e → e.Placed s a b) : AllPlaced s a b (ofOption o) := by
  cases o with
  | none => exact .nil
  | some e => exact .cons (h e rfl).1 .nil

/-- The nodes of arguments are placed if those of each sort are. -/
theorem ofArguments_iff {positional : List Expr} {keywords : List KeywordArg} {spread keywordSpread : Option Expr} :
    AllPlaced s a b (Node.ofArguments (.mk positional keywords spread keywordSpread)) ↔
      AllPlaced s a b (ofExprs positional) ∧ AllPlaced s a b (keywords.map keyword) ∧
        AllPlaced s a b (Node.ofOption spread) ∧ AllPlaced s a b (Node.ofOption keywordSpread) := by
  constructor
  · intro h
    obtain ⟨h, hkeywordSpread⟩ := List.forall_mem_append.1 h
    obtain ⟨h, hspread⟩ := List.forall_mem_append.1 h
    obtain ⟨hpositional, hkeywords⟩ := List.forall_mem_append.1 h
    exact ⟨hpositional, hkeywords, hspread, hkeywordSpread⟩
  · rintro ⟨hpositional, hkeywords, hspread, hkeywordSpread⟩
    exact ((hpositional.append hkeywords).append hspread).append hkeywordSpread

end AllPlaced
end Node

/-! ## Expressions -/

namespace Expr

namespace Placed

theorem mono (h : e.Placed s a b) (ha : a' ≤ a) (hb : b ≤ b') : e.Placed s a' b' := ⟨h.1.mono ha hb, h.2⟩

theorem lt (h : e.Placed s a b) : a < b := by
  obtain ⟨x, y, hx, hxy, hy, -⟩ := h.1.edges
  omega

theorem edges (h : e.Placed s a b) : ∃ x y, a ≤ x ∧ x ≤ y ∧ y < b ∧ e.span = ⟨s.edge x, s.edge y⟩ ∧
    (Node.expr e).Placed s x (y + 1) := h.1.edges

end Placed

theorem placed_of (hspan : e.span = ⟨s.edge x, s.edge y⟩) (ha : a ≤ x) (hxy : x ≤ y) (hb : y < b)
    (hstart : s.Starts e.span.start) (h : Node.AllPlaced s x (y + 1) (Node.expr e).children) : e.Placed s a b :=
  ⟨.contains hspan ha hxy hb h, hstart⟩

/-- An expression without children that spans one token. -/
theorem placed_token {i : Nat} (hspan : e.span = (s.get i).span) (hc : (Node.expr e).children = []) :
    e.Placed s (2 * i) (2 * i + 2) := by
  refine placed_of (hspan.trans (s.span_get i)) (Nat.le_refl _) (Nat.le_succ _) (Nat.lt_succ_self _) ?_ ?_
  · exact ⟨i, by rw [hspan]⟩
  · rw [hc]
    exact .nil

namespace Row

theorem le (h : Row s a b es) : a ≤ b := by
  induction h with
  | nil h => exact h
  | cons he _ ih => exact Nat.le_trans (Nat.le_of_lt he.lt) ih

theorem mono (h : Row s a b es) (ha : a' ≤ a) (hb : b ≤ b') : Row s a' b' es := by
  induction h generalizing a' with
  | nil h => exact .nil (by omega)
  | cons he _ ih => exact .cons (he.mono ha (Nat.le_refl _)) (ih (Nat.le_refl _) hb)

theorem of_mem (h : Row s a b es) (he : e ∈ es) : e.Placed s a b := by
  induction h with
  | nil => cases he
  | cons he' hes ih =>
    rcases List.mem_cons.1 he with rfl | he
    · exact he'.mono (Nat.le_refl _) hes.le
    · exact (ih he).mono (Nat.le_of_lt he'.lt) (Nat.le_refl _)

theorem nodes (h : Row s a b es) : Node.AllPlaced s a b (Node.ofExprs es) := by
  intro c hc
  obtain ⟨e, he, rfl⟩ := List.mem_map.1 hc
  exact (h.of_mem he).1

theorem snoc (h : Row s a m es) (he : e.Placed s m b) : Row s a b (es ++ [e]) := by
  induction h with
  | nil h => exact .cons (he.mono h (Nat.le_refl _)) (.nil (Nat.le_refl _))
  | cons he' _ ih => exact .cons he' (ih he)

/-- The last expression ends behind all others. -/
theorem last (h : Row s a b es) (hne : es ≠ []) : ∃ y, y < b ∧ (es.getLast hne).span.finish = s.edge y ∧
    Row s a (y + 1) es := by
  induction h with
  | nil => exact absurd rfl hne
  | @cons a m b e es he hes ih =>
    cases es with
    | nil =>
      obtain ⟨x, y, hx, hxy, hy, hspan, hnode⟩ := he.edges
      have := hes.le
      refine ⟨y, by omega, by rw [List.getLast_singleton, hspan], ?_⟩
      exact .cons ⟨hnode.mono hx (Nat.le_refl _), he.2⟩ (.nil (Nat.le_refl _))
    | cons e' es =>
      obtain ⟨y, hlt, hfinish, hrow⟩ := ih (List.cons_ne_nil _ _)
      exact ⟨y, hlt, by rw [List.getLast_cons (List.cons_ne_nil _ _), hfinish], .cons he hrow⟩

end Row

/-! ## Targets -/

theorem toTarget_span {usage : Usage} {t : Expr} (h : e.toTarget usage = some t) : t.span = e.span := by
  cases e with
  | name n u sp =>
    simp only [toTarget] at h
    split at h <;> cases h
    rfl
  | tuple items u sp =>
    simp only [toTarget, Option.map_eq_some_iff] at h
    obtain ⟨ts, -, rfl⟩ := h
    rfl
  | subscript o i u sp => cases h; rfl
  | _ => cases h

mutual

theorem toTarget_placed {usage : Usage} (e : Expr) {t : Expr} (h : e.toTarget usage = some t) {a b : Nat}
    (he : (Node.expr e).Placed s a b) : (Node.expr t).Placed s a b := by
  cases e with
  | name n u sp =>
    simp only [toTarget] at h
    split at h <;> cases h
    cases he with
    | contains hspan ha hxy hb hc => exact .contains hspan ha hxy hb hc
  | tuple items u sp =>
    simp only [toTarget, Option.map_eq_some_iff] at h
    obtain ⟨ts, hts, rfl⟩ := h
    cases he with
    | contains hspan ha hxy hb hc => exact .contains hspan ha hxy hb (toTargets_placed items hts hc)
  | subscript o i u sp =>
    cases h
    cases he with
    | contains hspan ha hxy hb hc => exact .contains hspan ha hxy hb hc
  | _ => cases h

theorem toTargets_placed {usage : Usage} (es : List Expr) {ts : List Expr} (h : toTargets usage es = some ts)
    {a b : Nat} (hes : Node.AllPlaced s a b (Node.ofExprs es)) : Node.AllPlaced s a b (Node.ofExprs ts) := by
  cases es with
  | nil => cases h; exact hes
  | cons e es =>
    simp only [toTargets] at h
    split at h
    · cases h
    · rename_i t ht
      simp only [Option.map_eq_some_iff] at h
      obtain ⟨ts, hts, rfl⟩ := h
      obtain ⟨he, hes⟩ := List.forall_mem_cons.1 hes
      exact .cons (toTarget_placed e ht he) (toTargets_placed es hts hes)

end

/-- A target stands where its expression stands. -/
theorem Placed.toTarget {usage : Usage} {t : Expr} (he : e.Placed s a b) (h : e.toTarget usage = some t) :
    t.Placed s a b :=
  ⟨toTarget_placed e h he.1, by rw [toTarget_span h]; exact he.2⟩

end Expr
end Stencil
