/-
The outputs of a template. An output holds the data and the interpolations that stand together between two tags,
or what one `print` prints. `Stream.Gathers` says of a stretch of tokens that its pieces are gathered in a list of
outputs: in their order, each of them once, and two of them in one output if and only if no tag begins between
them. Stretches are put together where a tag has begun behind the last piece of the first one (`Stream.Sealed`).
-/
import Mathlib.Data.List.Forall2
import Stencil.Grammar.Statement
import Stencil.Proofs.Derivation.Basic
import Stencil.Proofs.Derivation.Places
import Stencil.Proofs.Derivation.Statement
import Stencil.Proofs.Leaves.Basic
import Stencil.Proofs.Span.Edge
import Stencil.Proofs.Tree.Below

namespace Stencil

open Stencil.Grammar

/-! ## Outputs of trees -/

/-- The statements that stand directly in a statement. -/
def Stmt.inner : Stmt → List Stmt
  | loop _ _ body elseBody _ _ | branch _ body elseBody _ => body ++ elseBody
  | block _ body _ | define _ _ body _ | callBlock _ _ body _ | filterBlock _ body _ => body
  | _ => []

namespace Node

/-- What an output holds. -/
def output? : Node → Option (List Expr)
  | stmt (.output nodes _) => some nodes
  | _ => none

/-- The outputs of a tree, in pre-order. -/
def outputs (n : Node) : List (List Expr) := n.descendants.filterMap output?

/-- The outputs of statements that stand one behind the other. -/
def bodyOutputs (ss : List Stmt) : List (List Expr) := (ofStmts ss).flatMap outputs

theorem outputs_eq (n : Node) : n.outputs = n.output?.toList ++ n.children.flatMap outputs := by
  unfold outputs
  rw [descendants_eq, List.filterMap_cons, List.filterMap_flatMap]
  cases n.output? <;> rfl

theorem IsInner.output? {n : Node} (h : n.IsInner) : n.output? = none := by
  cases n with
  | template => cases h
  | stmt => cases h
  | _ => rfl

/-- There are no outputs in expressions. -/
theorem IsInner.outputs {n : Node} (h : n.IsInner) : n.outputs = [] := by
  induction n using descendants.induct with
  | case1 n ih =>
    rw [outputs_eq, h.output?, Option.toList_none, List.nil_append, List.flatMap_eq_nil_iff]
    exact fun c hc => ih ⟨c, hc⟩ (h.children c hc)

theorem inner_outputs {ns : List Node} (h : ∀ n ∈ ns, n.IsInner) : ns.flatMap outputs = [] :=
  List.flatMap_eq_nil_iff.2 fun n hn => (h n hn).outputs

@[simp] theorem bodyOutputs_nil : bodyOutputs [] = [] := rfl

@[simp] theorem bodyOutputs_append (ss ss' : List Stmt) :
    bodyOutputs (ss ++ ss') = bodyOutputs ss ++ bodyOutputs ss' := by
  rw [bodyOutputs, ofStmts, List.map_append, List.flatMap_append]
  rfl

@[simp] theorem bodyOutputs_one (st : Stmt) : bodyOutputs [st] = (stmt st).outputs := List.flatMap_singleton ..

/-- The outputs of a statement are what it is itself, and those of the statements in it. -/
theorem stmt_outputs (st : Stmt) : (stmt st).outputs = (stmt st).output?.toList ++ bodyOutputs st.inner := by
  have hexprs (es : List Expr) : (ofExprs es).flatMap outputs = [] := inner_outputs ofExprs_inner
  have hexpr (e : Expr) : (expr e).outputs = [] := IsInner.outputs trivial
  have hstmts (ss : List Stmt) : (ofStmts ss).flatMap outputs = bodyOutputs ss := rfl
  rw [outputs_eq]
  refine congrArg _ ?_
  cases st <;> simp only [children, stmtChildren, ofSignature, ofOption, Stmt.inner, List.flatMap_append,
    List.flatMap_cons, List.flatMap_nil, hexprs, hexpr, hstmts, bodyOutputs_append, bodyOutputs_nil, List.nil_append,
    List.append_nil]

theorem output_outputs (es : List Expr) (span : Span) : (stmt (.output es span)).outputs = [es] := by
  rw [stmt_outputs]
  rfl

theorem bodyOutputs_output {es : List Expr} (hne : es ≠ []) : bodyOutputs (output es) = [es] := by
  cases es with
  | nil => exact absurd rfl hne
  | cons e es => rw [output, bodyOutputs_one, output_outputs]

theorem template_outputs (t : Template) : (template t).outputs = bodyOutputs t.body := by
  rw [outputs_eq]
  rfl

end Node

/-! ## Outputs of tokens -/

namespace TokenKind

/-- The kinds of tokens with which the pieces of outputs begin. -/
def isPiece : TokenKind → Bool
  | data | variableBegin => true
  | _ => false

theorem not_isPiece_of_inExpression {k : TokenKind} (h : k.inExpression = true) : k.isPiece = false := by
  cases k <;> first | rfl | cases h

end TokenKind

namespace Stream

variable (s : Stream)

/-- The token at a position becomes a piece of an output: data becomes a text, and what begins an interpolation
the expression that is derived from the tokens of the interpolation and stands there. -/
inductive Piece (i : Nat) : Expr → Prop
  | data (hk : (s.get i).kind = .data) : Piece i (.const (.text (s.get i).value) (s.get i).span)
  | interpolation {e : Expr} {q : Nat} (hk : (s.get i).kind = .variableBegin)
      (h : Derives s (.tuple (.expression true)) (i + 1) e q) (hp : e.Placed s (2 * (i + 1)) (2 * q + 1))
      (hq : (s.get q).kind = .variableEnd) : Piece i e

/-- Expressions are printed by a tag. -/
structure Prints (es : List Expr) (b q : Nat) : Prop where
  word : (s.get b).kind = .keyword .printTag
  opened : s.Behind b .blockBegin
  derives : Derives s (.printItems true) (b + 1) es q
  row : Expr.Row s (2 * (b + 1)) (2 * q) es

/-- An output holds the pieces at some positions, or without any pieces what is printed. -/
inductive Fills : List Nat → List Expr → Prop
  | pieces {g : List Nat} {es : List Expr} (hne : g ≠ []) (h : List.Forall₂ s.Piece g es) : Fills g es
  | print {es : List Expr} {b q : Nat} (h : s.Prints es b q) : Fills [] es

/-- No statement tag begins between two positions. -/
def Together (i j : Nat) : Prop := ∀ k, i < k → k < j → (s.get k).kind ≠ .blockBegin

/-- The pieces of a stretch are grouped in outputs, by the tags between them. -/
structure Grouped (a b : Nat) (groups : List (List Nat)) (outs : List (List Expr)) : Prop where
  le : a ≤ b
  fills : List.Forall₂ s.Fills groups outs
  places : groups.flatten = s.places TokenKind.isPiece a b
  together : ∀ g ∈ groups, ∀ i ∈ g, ∀ j ∈ g, s.Together i j
  apart : groups.Pairwise fun g h => ∀ i ∈ g, ∀ j ∈ h, ¬s.Together i j

def Gathers (a b : Nat) (outs : List (List Expr)) : Prop := ∃ groups, s.Grouped a b groups outs

/-- Behind each piece of a stretch a tag begins in the stretch. -/
def Sealed (a b : Nat) : Prop := ∀ i ∈ s.places TokenKind.isPiece a b, ¬s.Together i b

/-- The outputs of a stretch have no pieces in common with those around it. -/
structure Encloses (a b : Nat) (outs : List (List Expr)) : Prop where
  gathers : s.Gathers a b outs
  isSealed : s.Sealed a b

/-- The pieces since a position stand together. -/
structure Pending (a b : Nat) (es : List Expr) : Prop where
  le : a ≤ b
  pieces : List.Forall₂ s.Piece (s.places TokenKind.isPiece a b) es
  unbroken : ∀ k, a ≤ k → k < b → (s.get k).kind ≠ .blockBegin

variable {s} {a b c i j : Nat} {outs outs' : List (List Expr)} {es : List Expr}

theorem Together.mono (h : s.Together i c) (hb : b ≤ c) : s.Together i b :=
  fun k hi hk => h k hi (Nat.lt_of_lt_of_le hk hb)

/-! ## Stretches -/

/-- Two pieces are in one group if and only if no tag begins between them. -/
theorem Grouped.same_iff {groups : List (List Nat)} (h : s.Grouped a b groups outs) {m n : Nat} {g g' : List Nat}
    (hm : groups[m]? = some g) (hn : groups[n]? = some g') (hi : i ∈ g) (hj : j ∈ g') (hij : i ≤ j) :
    m = n ↔ s.Together i j := by
  obtain ⟨hlt, rfl⟩ := List.getElem?_eq_some_iff.1 hm
  obtain ⟨hlt', rfl⟩ := List.getElem?_eq_some_iff.1 hn
  clear hm hn
  constructor
  · rintro rfl
    exact h.together _ (List.getElem_mem hlt) i hi j hj
  · intro htogether
    have hsorted : groups.flatten.Pairwise (· < ·) := h.places ▸ places_pairwise
    rcases Nat.lt_trichotomy m n with hmn | heq | hnm
    · exact absurd htogether (List.pairwise_iff_getElem.1 h.apart m n hlt hlt' hmn i hi j hj)
    · exact heq
    · have hback := List.pairwise_iff_getElem.1 (List.pairwise_flatten.1 hsorted).2 n m hlt' hlt hnm j hj i hi
      exact absurd hij (Nat.not_le.2 hback)

namespace Gathers

theorem le (h : s.Gathers a b outs) : a ≤ b := by
  obtain ⟨_, h⟩ := h
  exact h.le

theorem append (h : s.Gathers a b outs) (hs : s.Sealed a b) (h' : s.Gathers b c outs') :
    s.Gathers a c (outs ++ outs') := by
  obtain ⟨groups, h⟩ := h
  obtain ⟨groups', h'⟩ := h'
  refine ⟨groups ++ groups', Nat.le_trans h.le h'.le, List.rel_append h.fills h'.fills, ?_, ?_, ?_⟩
  · rw [List.flatten_append, h.places, h'.places, places_append h.le h'.le]
  · exact List.forall_mem_append.2 ⟨h.together, h'.together⟩
  · refine List.pairwise_append.2 ⟨h.apart, h'.apart, fun g hg g' hg' i hi j hj hij => ?_⟩
    have hi : i ∈ s.places TokenKind.isPiece a b := h.places ▸ List.mem_flatten_of_mem hg hi
    have hj : j ∈ s.places TokenKind.isPiece b c := h'.places ▸ List.mem_flatten_of_mem hg' hj
    exact hs i hi (hij.mono (mem_places.1 hj).1)

theorem snoc {k : TokenKind} (h : s.Gathers a b outs) (hk : (s.get b).kind = k) (hp : k.isPiece = false) :
    s.Gathers a (b + 1) outs := by
  obtain ⟨groups, h⟩ := h
  have hplaces : s.places TokenKind.isPiece a (b + 1) = s.places TokenKind.isPiece a b := by
    rw [places_snoc h.le, hk, hp]
    exact List.append_nil _
  exact ⟨groups, Nat.le_succ_of_le h.le, h.fills, h.places.trans hplaces.symm, h.together, h.apart⟩

end Gathers

theorem Sealed.append (h : s.Sealed a b) (h' : s.Sealed b c) (hab : a ≤ b) (hbc : b ≤ c) : s.Sealed a c := by
  intro i hi hic
  rw [← places_append hab hbc, List.mem_append] at hi
  rcases hi with hi | hi
  · exact h i hi (hic.mono hbc)
  · exact h' i hi hic

namespace Encloses

theorem le (h : s.Encloses a b outs) : a ≤ b := h.gathers.le

theorem append (h : s.Encloses a b outs) (h' : s.Encloses b c outs') : s.Encloses a c (outs ++ outs') :=
  ⟨h.gathers.append h.isSealed h'.gathers, h.isSealed.append h'.isSealed h.le h'.le⟩

/-- A stretch without pieces. -/
theorem quiet (hab : a ≤ b) (h : ∀ i, a ≤ i → i < b → (s.get i).kind.isPiece = false) : s.Encloses a b [] := by
  have hplaces : s.places TokenKind.isPiece a b = [] := places_eq_nil h
  refine ⟨⟨[], hab, .nil, hplaces.symm, List.forall_mem_nil _, List.Pairwise.nil⟩, ?_⟩
  unfold Sealed
  rw [hplaces]
  exact List.forall_mem_nil _

theorem nil : s.Encloses a a [] := quiet (Nat.le_refl a) fun _ hi hi' => absurd hi (Nat.not_le.2 hi')

/-- A token that is no piece. -/
theorem one {k : TokenKind} (hk : (s.get a).kind = k) (hp : k.isPiece = false) : s.Encloses a (a + 1) [] := by
  refine quiet (Nat.le_succ a) fun _ hi hi' => ?_
  rw [Nat.le_antisymm (Nat.le_of_lt_succ hi') hi, hk, hp]

theorem snoc {k : TokenKind} (h : s.Encloses a b outs) (hk : (s.get b).kind = k) (hp : k.isPiece = false) :
    s.Encloses a (b + 1) outs :=
  List.append_nil outs ▸ h.append (one hk hp)

theorem cons {k : TokenKind} (hk : (s.get a).kind = k) (hp : k.isPiece = false) (h : s.Encloses (a + 1) b outs) :
    s.Encloses a b outs :=
  (one hk hp).append h

/-- A stretch without pieces behind another one. -/
theorem further (h : s.Encloses a b outs) (h' : s.Encloses b c []) : s.Encloses a c outs :=
  List.append_nil outs ▸ h.append h'

/-- What is printed in a stretch without pieces is an output. -/
theorem print (h : s.Encloses a b []) (hes : s.Fills [] es) : s.Encloses a b [es] := by
  obtain ⟨⟨groups, h⟩, hs⟩ := h
  obtain rfl : groups = [] := List.forall₂_nil_right_iff.1 h.fills
  refine ⟨⟨[[]], h.le, .cons hes .nil, h.places, ?_, List.pairwise_singleton ..⟩, hs⟩
  exact List.forall_mem_singleton.2 (List.forall_mem_nil _)

end Encloses

/-! ## Pending pieces -/

namespace Pending

theorem nil : s.Pending a a [] where
  le := Nat.le_refl a
  pieces := by
    rw [places_self]
    exact .nil
  unbroken := fun _ hk hk' => absurd hk (Nat.not_le.2 hk')

/-- A stretch inside of tags leaves what is pending as it is. -/
theorem inside (h : s.Pending a b es) (hbc : b ≤ c)
    (hin : ∀ i, b ≤ i → i < c → (s.get i).kind.inExpression = true) : s.Pending a c es where
  le := Nat.le_trans h.le hbc
  pieces := by
    have hnone : s.places TokenKind.isPiece b c = [] :=
      places_eq_nil fun i hi hi' => TokenKind.not_isPiece_of_inExpression (hin i hi hi')
    rw [← places_append h.le hbc, hnone, List.append_nil]
    exact h.pieces
  unbroken := fun k hk hlt hkind => by
    by_cases hb : k < b
    · exact h.unbroken k hk hb hkind
    · have htag := hin k (Nat.not_lt.1 hb) hlt
      rw [hkind] at htag
      cases htag

/-- One more token, which is no begin of a tag. -/
theorem snoc {k : TokenKind} (h : s.Pending a b es) (hk : (s.get b).kind = k) (hb : k ≠ .blockBegin)
    {es' : List Expr} (hes : List.Forall₂ s.Piece (if k.isPiece then [b] else []) es') :
    s.Pending a (b + 1) (es ++ es') where
  le := Nat.le_succ_of_le h.le
  pieces := by
    rw [places_snoc h.le, hk]
    exact List.rel_append h.pieces hes
  unbroken := fun i hi hlt => by
    rcases Nat.lt_or_eq_of_le (Nat.le_of_lt_succ hlt) with hlt | rfl
    · exact h.unbroken i hi hlt
    · rwa [hk]

theorem data (h : s.Pending a b es) (hk : (s.get b).kind = .data) (hv : (s.get b).value ≠ []) :
    s.Pending a (b + 1) (es ++ (s.get b).pieces) := by
  refine h.snoc hk (by decide) ?_
  rw [Token.pieces, if_neg hv]
  exact .cons (.data hk) .nil

theorem interpolation {e : Expr} (h : s.Pending a b es) (hk : (s.get b).kind = .variableBegin)
    (he : Derives s (.tuple (.expression true)) (b + 1) e c) (hp : e.Placed s (2 * (b + 1)) (2 * c + 1))
    (hc : (s.get c).kind = .variableEnd) (hbc : b + 1 ≤ c)
    (hin : ∀ i, b + 1 ≤ i → i < c → (s.get i).kind.inExpression = true) : s.Pending a (c + 1) (es ++ [e]) := by
  have hpiece : s.Piece b e := .interpolation hk he hp hc
  have hbegin : s.Pending a (b + 1) (es ++ [e]) := h.snoc hk (by decide) (.cons hpiece .nil)
  exact List.append_nil (es ++ [e]) ▸ (hbegin.inside hbc hin).snoc hc (by decide) .nil

/-- What is pending becomes an output, unless there is nothing. -/
theorem gathers (h : s.Pending a b es) : s.Gathers a b (Node.bodyOutputs (output es)) := by
  cases es with
  | nil =>
    have hplaces : s.places TokenKind.isPiece a b = [] := List.forall₂_nil_right_iff.1 h.pieces
    exact ⟨[], h.le, .nil, hplaces.symm, List.forall_mem_nil _, List.Pairwise.nil⟩
  | cons e es =>
    have hne : s.places TokenKind.isPiece a b ≠ [] := fun hnil => by
      have hpieces := h.pieces
      rw [hnil] at hpieces
      cases hpieces
    rw [Node.bodyOutputs_output (List.cons_ne_nil e es)]
    refine ⟨[s.places TokenKind.isPiece a b], h.le, .cons (Fills.pieces hne h.pieces) .nil, List.append_nil _, ?_,
      List.pairwise_singleton ..⟩
    refine List.forall_mem_singleton.2 fun i hi j hj k hik hkj => ?_
    exact h.unbroken k (Nat.le_of_lt (Nat.lt_of_le_of_lt (mem_places.1 hi).1 hik))
      (Nat.lt_trans hkj (mem_places.1 hj).2.1)

/-- Where a tag begins, what is pending becomes an output that is complete. -/
theorem encloses (h : s.Pending a b es) (hb : (s.get b).kind = .blockBegin) :
    s.Encloses a (b + 1) (Node.bodyOutputs (output es)) := by
  have hsealed : s.Sealed a (b + 1) := by
    intro i hi hib
    obtain ⟨-, hlt, hpiece⟩ := mem_places.1 hi
    rcases Nat.lt_or_eq_of_le (Nat.le_of_lt_succ hlt) with hlt | rfl
    · exact hib b hlt (Nat.lt_succ_self b) hb
    · rw [hb] at hpiece
      cases hpiece
  exact ⟨h.gathers.snoc hb rfl, hsealed⟩

end Pending

end Stream
end Stencil
