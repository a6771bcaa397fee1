/-
The rules for statements place the trees that they read, if the rules inside them do and extensions do
too (`Extension.Places`).
-/
import Stencil.Grammar.Builtin
import Stencil.Grammar.Statement
import Stencil.Proofs.Span.Expression

namespace Stencil

/-- The statements that an extension reads, begun at its name, stand where they were read. -/
def Extension.Places (s : Stream) (x : Extension) : Prop :=
  ∀ ⦃g : Grammar⦄, g.Places s → ∀ ⦃a pos : Nat⦄, a ≤ 2 * pos → (s.get pos).kind = .name →
    (x.parse g).Yields s pos (Rule.statement.Result s a pos)

namespace Grammar

open Stencil.Parser

variable {s : Stream} {g : Grammar} {a b pos : Nat}

/-! ## One statement -/

theorem slack_stmt (r : Rule .stmt) : r.slack = 1 := by cases r <;> rfl

/-- A statement from its first token on up to the token read last. -/
theorem stmt_placed {st : Stmt} {q : Nat} (hspan : st.span = ⟨(s.get pos).span.start, s.edge (2 * q - 1)⟩)
    (ha : a ≤ 2 * pos) (hq : pos < q) (h : Node.AllPlaced s (2 * pos) (2 * q) (Node.stmt st).children) :
    (Node.stmt st).Placed s a (2 * q + 1) := by
  have hfinish : 2 * q - 1 + 1 = 2 * q := by omega
  rw [← s.edge_start] at hspan
  exact .contains hspan ha (by omega : 2 * pos ≤ 2 * q - 1) (by omega) (hfinish ▸ h)

/-- A statement from its first token on up to the end of the expression it holds. -/
theorem stmt_placed_of_expr {st : Stmt} {e : Expr} (hspan : st.span = ⟨(s.get pos).span.start, e.span.finish⟩)
    (hchildren : (Node.stmt st).children = [.expr e]) (ha : a ≤ 2 * pos) (he : e.Placed s (2 * pos) b) :
    (Node.stmt st).Placed s a b := by
  obtain ⟨x, y, hx, hxy, hy, hspan', hnode⟩ := he.edges
  rw [← s.edge_start, hspan'] at hspan
  refine .contains hspan ha (by omega) hy ?_
  rw [hchildren]
  exact Node.AllPlaced.cons (hnode.mono hx (Nat.le_refl _)) .nil

theorem simpleStatement_yields (h : g.Places s) (ha : a ≤ 2 * pos) :
    (simpleStatement g).Yields s pos (Rule.statement.Result s a pos) := by
  unfold simpleStatement
  refine (h (.tuple (.expression true)) ha trivial).bind ?_
  rintro e p ⟨hp, (he : e.Placed s a (2 * p + 1))⟩
  refine .check (fun _ => ?_) fun _ => ?_
  · refine (h (.assign e) (by omega) he).bind ?_
    rintro st q ⟨hq, hst⟩
    exact .pure ⟨by omega, .cons hst .nil⟩
  · obtain ⟨x, y, hx, hxy, hy, hspan, hnode⟩ := he.edges
    exact .pure ⟨hp, .cons (.contains hspan hx hxy hy (Node.AllPlaced.cons hnode .nil)) .nil⟩

theorem given_of_statementRule? {k : Keyword} {r : Rule .stmt} (h : statementRule? k = some r) :
    r.Given s a pos := by
  cases k <;> simp only [statementRule?, Option.some.injEq, reduceCtorEq] at h <;> subst h <;> trivial

theorem statement_yields (h : g.Places s) {find : Text → Option Extension}
    (hx : ∀ ⦃name x⦄, find name = some x → x.Places s) (ha : a ≤ 2 * pos) :
    (statement g find).Yields s pos (Rule.statement.Result s a pos) := by
  unfold statement
  refine .current ?_
  split
  · split
    · rename_i r hr
      refine (h r ha (given_of_statementRule? hr)).bind ?_
      rintro st p ⟨hp, hst⟩
      rw [slack_stmt] at hst
      exact .pure ⟨hp.le, .cons hst .nil⟩
    · exact simpleStatement_yields h ha
  · rename_i hk
    split
    · rename_i x hf
      exact hx hf h ha hk
    · exact simpleStatement_yields h ha
  · exact simpleStatement_yields h ha

/-! ## Bodies -/

theorem statements_yields (h : g.Places s) (ha : a ≤ 2 * pos) (ends : List TokenKind) (dropEnd : Bool) :
    (statements g ends dropEnd).Yields s pos ((Rule.statements ends dropEnd).Result s a pos) := by
  unfold statements
  refine .checked fun b hb => ?_
  extract_lets rest
  have hrest {p : Nat} (hp : pos ≤ p) :
      (rest ()).Yields s p ((Rule.statements ends dropEnd).Result s a pos) := by
    refine .expect nofun fun _ => ?_
    refine (h (.content (some ends) []) (by omega : a ≤ 2 * (p + 1)) (.nil (by omega))).bind ?_
    rintro body q ⟨hq, (hbody : Node.AllPlaced s a (2 * q) (Node.ofStmts body))⟩
    refine .check (fun _ => ?_) fun _ => .unexpected
    extract_lets done
    refine .ite (fun _ => Yields.move.bind ?_) fun _ => .pure ⟨by omega, hbody⟩
    rintro _ r ⟨-, hr, -⟩
    exact .pure ⟨by omega, hbody.mono (Nat.le_refl _) (by omega)⟩
  refine .ite (fun hk => ?_) fun _ => hrest (Nat.le_refl _)
  exact .advance_of_mem (hb.1 hk) rfl (hrest (Nat.le_succ _))

/-- Data and interpolations that stand one behind the other are one statement over all of them. -/
theorem output_placed {pending : List Expr} (h : Expr.Row s a b pending) :
    Node.AllPlaced s a b (Node.ofStmts (output pending)) := by
  cases pending with
  | nil => exact .nil
  | cons e es =>
    obtain ⟨y, hy, hfinish, hrow⟩ := h.last (List.cons_ne_nil _ _)
    cases hrow with
    | cons he hes =>
      obtain ⟨x, z, hx, hxz, hz, hspan, hnode⟩ := he.edges
      have hrow : Expr.Row s x (y + 1) (e :: es) := .cons ⟨hnode.mono (Nat.le_refl x) hz, he.2⟩ hes
      have hle := hes.le
      refine .cons (.contains ?_ hx (by omega : x ≤ y) hy hrow.nodes) .nil
      rw [← hfinish]
      show (⟨e.span.start, _⟩ : Span) = _
      rw [hspan]

theorem content_yields (h : g.Places s) (ha : a ≤ 2 * pos) (ends : Option (List TokenKind)) {pending : List Expr}
    (hpending : Expr.Row s a (2 * pos) pending) :
    (content g ends pending).Yields s pos ((Rule.content ends pending).Result s a pos) := by
  unfold content
  refine .current ?_
  split <;> rename_i hk
  · refine .advance (by rw [hk]; nofun) (h.further (.content ends _) (Nat.le_succ pos) ha ?_ rfl fun _ => rfl)
    split
    · rw [List.append_nil]
      exact hpending.mono (Nat.le_refl _) (by omega)
    · exact hpending.snoc (Expr.placed_token rfl rfl)
  · refine .advance (by rw [hk]; nofun) ((h (.tuple (.expression true)) (Nat.le_refl _) trivial).bind ?_)
    rintro e p ⟨hp, (he : e.Placed s (2 * (pos + 1)) (2 * p + 1))⟩
    refine .expect nofun fun _ => h.further (.content ends _) (by omega) ha ?_ rfl fun _ => rfl
    exact hpending.snoc (he.mono (by omega) (by omega))
  · have hbefore {q : Nat} (hq : pos ≤ q) : Node.AllPlaced s a (2 * q) (Node.ofStmts (output pending)) :=
      output_placed (hpending.mono (Nat.le_refl _) (by omega))
    refine .advance (by rw [hk]; nofun) (.check (fun _ => ?_) fun _ => ?_)
    · exact .pure ⟨Nat.le_succ _, hbefore (Nat.le_succ _)⟩
    · refine (h .statement (by omega : a ≤ 2 * (pos + 1)) trivial).bind ?_
      rintro splice p ⟨hp, (hsplice : Node.AllPlaced s a (2 * p + 1) (Node.ofStmts splice.toList))⟩
      refine .expect nofun fun _ => ?_
      refine (h (.content ends []) (by omega : a ≤ 2 * (p + 1)) (.nil (by omega))).bind ?_
      rintro rest q ⟨hq, (hrest : Node.AllPlaced s a (2 * q) (Node.ofStmts rest))⟩
      refine .pure ⟨by omega, ?_⟩
      show Node.AllPlaced s a (2 * q) (Node.ofStmts (output pending ++ splice.toList ++ rest))
      rw [Node.ofStmts, List.map_append, List.map_append]
      exact ((hbefore (by omega)).append (hsplice.mono (Nat.le_refl _) (by omega))).append hrest
  · exact .pure ⟨Nat.le_refl _, output_placed hpending⟩
  · exact .fault

theorem template_yields (h : g.Places s) (ha : a ≤ 2 * pos) :
    (template g).Yields s pos (Rule.template.Result s a pos) := by
  unfold template
  refine (h (.content none []) ha (.nil ha)).bind ?_
  rintro body p ⟨hp, hbody⟩
  exact .current (.pure ⟨hp, hbody, by rw [← s.edge_finish]; rfl⟩)

/-! ## Assignment -/

theorem storeTarget_yields {e : Expr} (he : e.Placed s a b) : (storeTarget e).Yields s pos fun t q =>
    q = pos ∧ t.Placed s a b := by
  unfold storeTarget
  split
  · rename_i t ht
    exact .pure ⟨rfl, he.toTarget ht⟩
  · exact .report he.2

theorem assign_yields (h : g.Places s) {target : Expr} (htarget : target.Placed s a (2 * pos + 1)) :
    (assign g target).Yields s pos ((Rule.assign target).Result s a pos) := by
  unfold assign
  obtain ⟨x, y, hx, hxy, hy, hspan, hnode⟩ := htarget.edges
  refine .expect nofun fun _ => (storeTarget_yields ⟨hnode, htarget.2⟩).bind ?_
  rintro stored _ ⟨rfl, hstored⟩
  refine (h (.tuple (.expression true)) (Nat.le_refl _) trivial).bind ?_
  rintro value p ⟨hp, (hvalue : value.Placed s (2 * (pos + 1)) (2 * p + 1))⟩
  obtain ⟨x', y', hx', hxy', hy', hspan', hnode'⟩ := hvalue.edges
  refine .pure ⟨by omega, .contains (by rw [hspan, hspan']; rfl) hx (by omega : x ≤ y') hy' ?_⟩
  exact Node.AllPlaced.cons (hstored.1.mono (Nat.le_refl _) (by omega))
    (.cons (hnode'.mono (by omega) (Nat.le_refl _)) .nil)

/-! ## Loops and conditionals -/

theorem loopTest_yields (h : g.Places s) (ha : a ≤ 2 * pos) : (loopTest g).Yields s pos fun o q =>
    pos ≤ q ∧ ∀ e, o = some e → e.Placed s a (2 * q) := by
  unfold loopTest
  refine .check (fun hk => .advance_of_mem hk rfl ?_) fun _ => .pure ⟨Nat.le_refl _, nofun⟩
  refine (h (.expression true) (by omega : a ≤ 2 * (pos + 1)) trivial).bind ?_
  rintro e q ⟨hq, he⟩
  refine .pure ⟨by omega, ?_⟩
  rintro _ ⟨⟩
  exact he

theorem loop_yields (h : g.Places s) (ha : a ≤ 2 * pos) : (loop g).Yields s pos (Rule.loop.Result s a pos) := by
  unfold loop
  refine .expect nofun fun _ => ?_
  refine (h (.tuple .primary) (by omega : 2 * pos ≤ 2 * (pos + 1)) trivial).bind ?_
  rintro target p ⟨hp, (htarget : target.Placed s (2 * pos) (2 * p + 1))⟩
  refine (storeTarget_yields htarget).bind ?_
  rintro stored p ⟨rfl, hstored⟩
  refine .expect nofun fun _ => ?_
  refine (h (.tuple (.expression false)) (by omega : 2 * pos ≤ 2 * (p + 1)) trivial).bind ?_
  rintro iter q ⟨hq, (hiter : iter.Placed s (2 * pos) (2 * q + 1))⟩
  refine (loopTest_yields h (by omega : 2 * pos ≤ 2 * q)).bind ?_
  rintro test r ⟨hr, htest⟩
  refine (h (.statements [.keyword .endFor, .keyword .elseTag] false) (by omega : 2 * pos ≤ 2 * r) trivial).bind ?_
  rintro body t ⟨ht, (hbody : Node.AllPlaced s (2 * pos) (2 * t) (Node.ofStmts body))⟩
  refine Yields.move.bind ?_
  rintro _ u ⟨rfl, hu, -⟩
  extract_lets rest
  have hrest {elseBody : List Stmt} {v : Nat} (hv : u ≤ v)
      (helse : Node.AllPlaced s (2 * pos) (2 * v) (Node.ofStmts elseBody)) :
      (rest elseBody).Yields s v (Rule.loop.Result s a pos) := by
    refine .previousEnd (by omega) (.pure ⟨by omega, stmt_placed rfl ha (by omega) ?_⟩)
    refine .cons (hstored.1.mono (Nat.le_refl _) (by omega)) (.cons (hiter.1.mono (Nat.le_refl _) (by omega)) ?_)
    refine (Node.AllPlaced.append (.ofOption fun e he => ?_) (hbody.mono (Nat.le_refl _) (by omega))).append helse
    exact (htest e he).mono (Nat.le_refl _) (by omega)
  refine .ite (fun _ => hrest (Nat.le_refl _) .nil) fun _ => ?_
  refine (h (.statements [.keyword .endFor] true) (by omega : 2 * pos ≤ 2 * u) trivial).bind ?_
  rintro elseBody v ⟨hv, helse⟩
  exact hrest (Nat.le_of_lt hv) helse

/-- The condition and the body of a branch stand behind the word that begins it. -/
theorem branch_yields (h : g.Places s) {start : Location} (ha : a ≤ 2 * pos) :
    (branch g start).Yields s pos fun br q => pos < q ∧ br.start = start ∧ br.test.Placed s a (2 * q) ∧
      Node.AllPlaced s a (2 * q) (Node.ofStmts br.body) := by
  unfold branch
  refine (h (.tuple (.expression true)) ha trivial).bind ?_
  rintro test p ⟨hp, (htest : test.Placed s a (2 * p + 1))⟩
  refine (h (.statements branchEnds false) (by omega : a ≤ 2 * p) trivial).bind ?_
  rintro body q ⟨hq, (hbody : Node.AllPlaced s a (2 * q) (Node.ofStmts body))⟩
  exact .pure ⟨by omega, rfl, htest.mono (Nat.le_refl _) (by omega), hbody⟩

theorem branches_yields (h : g.Places s) (ha : a ≤ 2 * pos) :
    (branches g).Yields s pos (Rule.branches.Result s a pos) := by
  unfold branches
  refine Yields.move.bind ?_
  rintro _ p ⟨rfl, hp, -⟩
  refine .ite (fun _ => ?_) fun _ => .ite (fun _ => ?_) fun _ => .pure ⟨hp, .nil⟩
  · refine (branch_yields h (by omega : 2 * pos ≤ 2 * p)).bind ?_
    rintro br q ⟨hq, hstart, htest, hbody⟩
    refine (h .branches (by omega : 2 * pos ≤ 2 * q) trivial).bind ?_
    rintro rest r ⟨hr, hrest⟩
    refine .pure ⟨by omega, 2 * pos, ha, hstart.trans (s.edge_start pos).symm, ?_, ?_, hrest⟩
    · exact htest.mono (Nat.le_refl _) (by omega)
    · exact hbody.mono (Nat.le_refl _) (by omega)
  · refine (h (.statements [.keyword .endIf] true) (by omega : a ≤ 2 * p) trivial).bind ?_
    rintro body q ⟨hq, hbody⟩
    exact .pure ⟨by omega, hbody⟩

/-- Further branches stand in the else body of the one before, all of them up to where they stop. -/
theorem nestBranches_placed {elseBody : List Stmt} {x y : Nat} (elifs : List Branch)
    (h : Branches.Placed s (y + 1) elseBody x elifs) :
    Node.AllPlaced s x (y + 1) (Node.ofStmts (nestBranches (s.edge y) ⟨elifs, elseBody⟩)) := by
  induction elifs generalizing x with
  | nil => exact h
  | cons br brs ih =>
    obtain ⟨z, hz, hstart, htest, hbody, hrest⟩ := h
    have hle := htest.lt
    refine .cons (.contains ?_ hz (by omega : z ≤ y) (Nat.lt_succ_self y) ?_) .nil
    · show (⟨br.start, s.edge y⟩ : Span) = _
      rw [hstart]
    · exact Node.AllPlaced.cons htest.1 (.append hbody (ih hrest))

theorem conditional_yields (h : g.Places s) (ha : a ≤ 2 * pos) :
    (conditional g).Yields s pos (Rule.conditional.Result s a pos) := by
  unfold conditional
  refine .expect nofun fun _ => (branch_yields h (by omega : 2 * pos ≤ 2 * (pos + 1))).bind ?_
  rintro first p ⟨hp, hstart, htest, hbody⟩
  refine (h .branches (by omega : 2 * pos ≤ 2 * p) trivial).bind ?_
  rintro rest q ⟨hq, hrest⟩
  have hfinish : 2 * q - 1 + 1 = 2 * q := by omega
  have hrest : Branches.Placed s (2 * q - 1 + 1) rest.elseBody (2 * pos) rest.elifs := hfinish ▸ hrest
  refine .previousEnd (by omega) (.pure ⟨by omega, stmt_placed (by rw [← hstart]; rfl) ha (by omega) ?_⟩)
  refine .cons (htest.1.mono (Nat.le_refl _) (by omega)) (.append (hbody.mono (Nat.le_refl _) (by omega)) ?_)
  exact (nestBranches_placed rest.elifs hrest).mono (Nat.le_refl _) (by omega)

/-! ## Parts of templates -/

/-- The body at the end of a statement whose other nodes stand before it. -/
theorem closing_yields (h : g.Places s) (ha : a ≤ 2 * pos) {p : Nat} (hp : pos < p) (ends : List TokenKind)
    {f : List Stmt → Location → Stmt} {ns : List Node} (hns : Node.AllPlaced s (2 * pos) (2 * p) ns)
    (hspan : ∀ body stop, (f body stop).span = ⟨(s.get pos).span.start, stop⟩)
    (hchildren : ∀ body stop, (Node.stmt (f body stop)).children = ns ++ Node.ofStmts body) :
    (do
      let body ← g (.statements ends true)
      let stop ← previousEnd
      return f body stop : Parser Stmt).Yields s p fun st q => pos ≤ q ∧ (Node.stmt st).Placed s a (2 * q + 1) := by
  refine (h (.statements ends true) (by omega : 2 * pos ≤ 2 * p) trivial).bind ?_
  rintro body q ⟨hq, (hbody : Node.AllPlaced s (2 * pos) (2 * q) (Node.ofStmts body))⟩
  refine .previousEnd (by omega) (.pure ⟨by omega, stmt_placed (hspan ..) ha (by omega) ?_⟩)
  rw [hchildren]
  exact (hns.mono (Nat.le_refl _) (by omega)).append hbody

theorem block_yields (h : g.Places s) (ha : a ≤ 2 * pos) :
    (block g).Yields s pos (Rule.block.Result s a pos) := by
  unfold block
  refine .expect nofun fun _ => .expect nofun fun _ => ?_
  exact closing_yields h ha (by omega) _ .nil (fun _ _ => rfl) fun _ _ => rfl

theorem extend_yields (h : g.Places s) (ha : a ≤ 2 * pos) :
    (extend g).Yields s pos (Rule.extend.Result s a pos) := by
  unfold extend
  refine .expect nofun fun _ => (h (.expression true) (by omega : 2 * pos ≤ 2 * (pos + 1)) trivial).bind ?_
  rintro source p ⟨hp, (hsource : source.Placed s (2 * pos) (2 * p))⟩
  exact .pure ⟨by omega, stmt_placed_of_expr rfl rfl ha (hsource.mono (Nat.le_refl _) (Nat.le_succ _))⟩

theorem embed_yields (h : g.Places s) (ha : a ≤ 2 * pos) :
    (embed g).Yields s pos (Rule.embed.Result s a pos) := by
  unfold embed
  refine .expect nofun fun _ => (h (.expression true) (by omega : 2 * pos ≤ 2 * (pos + 1)) trivial).bind ?_
  rintro source p ⟨hp, (hsource : source.Placed s (2 * pos) (2 * p))⟩
  exact .pure ⟨by omega, stmt_placed_of_expr rfl rfl ha (hsource.mono (Nat.le_refl _) (Nat.le_succ _))⟩

/-! ## Imports -/

theorem bindable_yields : bindable.Yields s pos fun t q => t = s.get pos ∧ q = pos + 1 :=
  .expect nofun fun _ => .ite (fun _ => .pure ⟨rfl, rfl⟩) fun _ => .report ⟨pos, rfl⟩

theorem expectName_yields {α : Type} {name : Text} {f : Token → Parser α} {good : α → Nat → Prop}
    (k : ∀ t, (f t).Yields s (pos + 1) good) : (expectName name >>= f).Yields s pos good := by
  have hx : (expectName name).Yields s pos fun _ q => q = pos + 1 := by
    by_cases hk : (s.get pos).kind = .name ∧ (s.get pos).value = name
    · have hx : expectName name s pos = advance s pos := if_pos hk
      unfold Parser.Yields
      rw [hx]
      exact if_neg (by rw [hk.1]; nofun)
    · have hx : expectName name s pos = Parser.unexpected [] (some (TokenKind.quoted name)) s pos := if_neg hk
      unfold Parser.Yields
      rw [hx]
      exact ⟨⟨_, rfl, pos, rfl⟩, rfl⟩
  refine hx.bind ?_
  rintro t _ rfl
  exact k t

theorem importAs_yields (h : g.Places s) (ha : a ≤ 2 * pos) :
    (importAs g).Yields s pos (Rule.importAs.Result s a pos) := by
  unfold importAs
  refine .expect nofun fun _ => (h (.expression true) (by omega : 2 * pos ≤ 2 * (pos + 1)) trivial).bind ?_
  rintro source p ⟨hp, (hsource : source.Placed s (2 * pos) (2 * p))⟩
  refine expectName_yields fun _ => bindable_yields.bind ?_
  rintro _ _ ⟨-, rfl⟩
  refine .previousEnd (by omega) (.pure ⟨by omega, stmt_placed rfl ha (by omega) ?_⟩)
  exact .cons (hsource.1.mono (Nat.le_refl _) (by omega)) .nil

theorem localName?_yields : localName?.Yields s pos fun _ q => pos ≤ q := by
  unfold localName?
  have hcheck {f : Bool → Parser (Option Text)} {good : Option Text → Nat → Prop}
      (k : ∀ b, (b = true → (s.get pos).kind = .name) → (f b).Yields s pos good) :
      (checkName "as" >>= f).Yields s pos good :=
    k _ fun hb => eq_of_beq (Bool.and_eq_true_iff.1 hb).1
  refine hcheck fun b hb => .ite (fun hk => ?_) fun _ => .pure (Nat.le_refl _)
  refine .advance (by rw [hb hk]; nofun) (bindable_yields.bind ?_)
  rintro _ _ ⟨-, rfl⟩
  exact .pure (by omega)

theorem ensurePublic_yields (i : Nat) : (ensurePublic (s.get i)).Yields s pos fun _ q => q = pos :=
  .ite (fun _ => .report ⟨i, rfl⟩) fun _ => .pure rfl

theorem nameItems_yields (h : g.Places s) (ha : a ≤ 2 * pos) (first : Bool) :
    (nameItems g first).Yields s pos ((Rule.nameItems first).Result s a pos) := by
  unfold nameItems
  extract_lets rest
  refine comma_yields fun p hp => .check (fun _ => .current ?_) fun _ => .pure ⟨hp, trivial⟩
  refine (ensurePublic_yields p).bind ?_
  rintro _ p rfl
  refine bindable_yields.bind ?_
  rintro _ _ ⟨-, rfl⟩
  refine localName?_yields.bind fun localName q hq => ?_
  refine .check (fun _ => ?_) fun _ => .pure ⟨by omega, trivial⟩
  refine (h (.nameItems false) (by omega : a ≤ 2 * q) trivial).bind ?_
  rintro names r ⟨hr, -⟩
  exact .pure ⟨by omega, trivial⟩

theorem importNames_yields (h : g.Places s) (ha : a ≤ 2 * pos) :
    (importNames g).Yields s pos (Rule.importNames.Result s a pos) := by
  unfold importNames
  refine .expect nofun fun _ => (h (.expression true) (by omega : 2 * pos ≤ 2 * (pos + 1)) trivial).bind ?_
  rintro source p ⟨hp, (hsource : source.Placed s (2 * pos) (2 * p))⟩
  refine .expect nofun fun _ => (h (.nameItems true) (Nat.le_refl _) trivial).bind ?_
  rintro names q ⟨hq, -⟩
  refine .checked fun b hb => ?_
  extract_lets rest
  have hrest {r : Nat} (hr : q ≤ r) : (rest ()).Yields s r (Rule.importNames.Result s a pos) := by
    refine .previousEnd (by omega) (.pure ⟨by omega, stmt_placed rfl ha (by omega) ?_⟩)
    exact .cons (hsource.1.mono (Nat.le_refl _) (by omega)) .nil
  refine .ite (fun hk => ?_) fun _ => hrest (Nat.le_refl q)
  exact .advance_of_mem (hb.1 hk) rfl (hrest (Nat.le_succ q))

/-! ## Print -/

theorem print_yields (h : g.Places s) (ha : a ≤ 2 * pos) :
    (print g).Yields s pos (Rule.print.Result s a pos) := by
  unfold print
  refine .expect nofun fun _ => (h (.printItems true) (by omega : 2 * pos ≤ 2 * (pos + 1)) trivial).bind ?_
  rintro nodes p ⟨hp, (hnodes : Expr.Row s (2 * pos) (2 * p) nodes)⟩
  exact .previousEnd (by omega) (.pure ⟨by omega, stmt_placed rfl ha (by omega) hnodes.nodes⟩)

theorem printItems_yields (h : g.Places s) (ha : a ≤ 2 * pos) (first : Bool) :
    (printItems g first).Yields s pos ((Rule.printItems first).Result s a pos) := by
  unfold printItems
  refine .check (fun _ => .pure ⟨Nat.le_refl _, .nil ha⟩) fun _ => ?_
  extract_lets rest
  refine comma_yields fun p hp => ?_
  refine (h (.expression true) (by omega : a ≤ 2 * p) trivial).bind ?_
  rintro e q ⟨hq, he⟩
  refine (h (.printItems false) (Nat.le_refl _) trivial).bind ?_
  rintro es r ⟨hr, hes⟩
  exact .pure ⟨by omega, .cons he hes⟩

/-! ## Macros and the blocks that call -/

theorem signature_yields (h : g.Places s) (ha : a ≤ 2 * pos) :
    (signature g).Yields s pos (Rule.signature.Result s a pos) := by
  unfold signature
  refine .expect nofun fun _ => (h (.signatureRest ⟨[], []⟩) (by omega : a ≤ 2 * (pos + 1)) .nil).bind ?_
  rintro sig p ⟨hp, (hsig : Node.AllPlaced s a (2 * p) (Node.ofSignature sig))⟩
  exact .expect nofun fun _ => .pure ⟨by omega, hsig.mono (Nat.le_refl _) (by omega)⟩

theorem default?_yields (h : g.Places s) (ha : a ≤ 2 * pos) (i : Nat) {before : List Expr}
    (hbefore : Node.AllPlaced s a (2 * pos) (Node.ofExprs before)) :
    (default? g (s.get i) before).Yields s pos fun es q =>
      pos ≤ q ∧ Node.AllPlaced s a (2 * q) (Node.ofExprs es) := by
  unfold default?
  refine .check (fun hk => .advance_of_mem hk rfl ?_) fun _ =>
    .ite (fun _ => .pure ⟨Nat.le_refl _, hbefore⟩) fun _ => .report ⟨i, rfl⟩
  refine (h (.expression true) (by omega : a ≤ 2 * (pos + 1)) trivial).bind ?_
  rintro e q ⟨hq, he⟩
  refine .pure ⟨by omega, ?_⟩
  rw [Node.ofExprs, List.map_append]
  exact (hbefore.mono (Nat.le_refl _) (by omega)).append (.cons he.1 .nil)

theorem signatureRest_yields (h : g.Places s) (ha : a ≤ 2 * pos) {sofar : Signature}
    (hsofar : Node.AllPlaced s a (2 * pos) (Node.ofSignature sofar)) :
    (signatureRest g sofar).Yields s pos ((Rule.signatureRest sofar).Result s a pos) := by
  unfold signatureRest
  refine .check (fun _ => .pure ⟨Nat.le_refl _, hsofar⟩) fun _ => ?_
  extract_lets rest
  refine comma_yields fun p hp => bindable_yields.bind ?_
  rintro _ _ ⟨rfl, rfl⟩
  obtain ⟨hparams, hdefaults⟩ := List.forall_mem_append.1 hsofar
  refine (default?_yields h (by omega) p (Node.AllPlaced.mono hdefaults (Nat.le_refl a) (by omega))).bind ?_
  rintro defaults q ⟨hq, hdefaults⟩
  refine h.further (.signatureRest _) (by omega) ha (Node.AllPlaced.append ?_ hdefaults) rfl fun _ => rfl
  rw [List.map_append, Node.ofExprs, List.map_append]
  refine (Node.AllPlaced.mono hparams (Nat.le_refl a) (by omega)).append (.cons ?_ .nil)
  exact (Expr.placed_token rfl rfl : Expr.Placed s (2 * p) (2 * p + 2) _).1.mono (by omega) (by omega)

theorem define_yields (h : g.Places s) (ha : a ≤ 2 * pos) :
    (define g).Yields s pos (Rule.define.Result s a pos) := by
  unfold define
  refine .expect nofun fun _ => bindable_yields.bind ?_
  rintro name _ ⟨-, rfl⟩
  refine (h .signature (by omega : 2 * pos ≤ 2 * (pos + 1 + 1)) trivial).bind ?_
  rintro sig p ⟨hp, hsig⟩
  exact closing_yields h ha (by omega) _ hsig (fun _ _ => rfl) fun _ _ => rfl

theorem callBlock_yields (h : g.Places s) (ha : a ≤ 2 * pos) :
    (callBlock g).Yields s pos (Rule.callBlock.Result s a pos) := by
  unfold callBlock
  refine .expect nofun fun _ => ?_
  have hs : (optionalSignature g).Yields s (pos + 1) fun sig q =>
      pos + 1 ≤ q ∧ Node.AllPlaced s (2 * pos) (2 * q) (Node.ofSignature sig) := by
    unfold optionalSignature
    refine .check (fun _ => ?_) fun _ => .pure ⟨Nat.le_refl _, .nil⟩
    exact h .signature (by omega : 2 * pos ≤ 2 * (pos + 1)) trivial
  refine hs.bind ?_
  rintro sig p ⟨hp, hsig⟩
  refine (h (.expression true) (by omega : 2 * pos ≤ 2 * p) trivial).bind ?_
  rintro e q ⟨hq, (he : e.Placed s (2 * pos) (2 * q))⟩
  have hcall : (ensureCall (s.get pos).span.start e).Yields s q fun _ r => r = q := by
    unfold ensureCall
    split
    · exact .pure rfl
    · exact .report ⟨pos, rfl⟩
  refine hcall.bind ?_
  rintro _ q rfl
  have hns := (hsig.mono (Nat.le_refl _) (by omega : 2 * p ≤ 2 * q)).append (.cons he.1 .nil)
  refine closing_yields h ha (by omega) _ hns (fun _ _ => rfl) fun _ _ => ?_
  rw [List.append_assoc]
  rfl

theorem filterBlock_yields (h : g.Places s) (ha : a ≤ 2 * pos) :
    (filterBlock g).Yields s pos (Rule.filterBlock.Result s a pos) := by
  unfold filterBlock
  refine .expect nofun fun _ => (h (.filterChain none) (by omega : 2 * pos ≤ 2 * (pos + 1)) nofun).bind ?_
  rintro filter p ⟨hp, (hfilter : filter.Placed s (2 * pos) (2 * p))⟩
  exact closing_yields h ha (by omega) _ (.cons hfilter.1 .nil) (fun _ _ => rfl) fun _ _ => rfl

end Grammar

/-! ## The extensions of the library -/

namespace Extension

open Grammar Stencil.Parser

variable {s : Stream}

theorem doStatement_places : doStatement.Places s := by
  intro g h a pos ha hk
  refine .advance (by rw [hk]; nofun) ?_
  refine (h (.tuple (.expression true)) (by omega : 2 * pos ≤ 2 * (pos + 1)) trivial).bind ?_
  rintro e p ⟨hp, he⟩
  exact .pure ⟨by omega, .cons (stmt_placed_of_expr rfl rfl ha he) .nil⟩

theorem loopControls_places : loopControls.Places s := by
  intro g h a pos ha hk
  have token {st : Stmt} (hspan : st.span = (s.get pos).span) (hc : (Node.stmt st).children = []) :
      Node.AllPlaced s a (2 * (pos + 1) + 1) (Node.ofStmts [st]) := by
    refine .cons (.contains (hspan.trans (s.span_get pos)) ha (Nat.le_succ _) (by omega) ?_) .nil
    rw [hc]
    nofun
  refine .advance (by rw [hk]; nofun) (.ite (fun _ => ?_) fun _ => ?_)
  · exact .pure ⟨by omega, token rfl rfl⟩
  · exact .pure ⟨by omega, token rfl rfl⟩

end Extension
end Stencil
