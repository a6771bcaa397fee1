/-
The rules for attributes and subscripts, calls, filters and tests place the trees that they read, if the
rules inside them do. The `not` of a negated test is the one node that does not begin with its child.
-/
import Stencil.Grammar.Suffix
import Stencil.Proofs.Span.Expression

namespace Stencil.Grammar

open Stencil.Parser

variable {s : Stream} {g : Grammar} {a pos : Nat}

/-! ## Suffixes -/

theorem suffixes_yields (h : g.Places s) (ha : a ≤ 2 * pos) {e : Expr} (he : e.Placed s a (2 * pos)) :
    (suffixes g e).Yields s pos ((Rule.suffixes e).Result s a pos) := by
  unfold suffixes
  have again {r : Rule .expr} (hr : (g r).Yields s pos fun e q => pos ≤ q ∧ e.Placed s a (2 * q)) :
      (g r >>= fun e => g (.suffixes e)).Yields s pos fun t q => pos ≤ q ∧ t.Placed s a (2 * q) := by
    refine hr.bind ?_
    rintro e q ⟨hq, he⟩
    show (g (.suffixes e)).Yields s q ((Rule.suffixes e).Result s a pos)
    exact h.further (.suffixes e) hq ha he rfl fun _ => rfl
  refine .current ?_
  split
  · exact again (h (.subscript e) ha he)
  · exact again (h (.subscript e) ha he)
  · exact again (h (.call e) ha he)
  · exact again (h (.filter e) ha he)
  · exact again (h (.test e) ha he)
  · exact .pure ⟨Nat.le_refl _, he⟩

/-! ## Subscripts -/

theorem dotIndex_yields : dotIndex.Yields s pos fun e q => q = pos + 1 ∧ e.Placed s (2 * pos) (2 * q) := by
  unfold dotIndex
  refine .current ?_
  extract_lets after
  have hafter (hk : (s.get pos).kind ≠ .eof) {e : Expr} (he : e.Placed s (2 * pos) (2 * pos + 2)) :
      (after e).Yields s pos fun e q => q = pos + 1 ∧ e.Placed s (2 * pos) (2 * q) :=
    .advance hk (.pure ⟨rfl, he⟩)
  split <;> rename_i hk
  · exact hafter (by rw [hk]; nofun) (Expr.placed_token rfl rfl)
  · refine (integer_yields pos).bind ?_
    rintro e _ ⟨rfl, he⟩
    exact hafter (by rw [hk]; nofun) he
  · exact Yields.bind (P := fun _ _ => False) (.report ⟨pos, rfl⟩) nofun

/-- The index between brackets stands behind the first of them. -/
theorem bracketIndex_yields (h : g.Places s) (i : Nat) : (bracketIndex g (s.get i)).Yields s (i + 1)
    fun e q => i + 1 < q ∧ (Node.expr e).Placed s (2 * i + 1) (2 * q) := by
  unfold bracketIndex
  refine (h (.subscriptItems true) (Nat.le_refl _) trivial).bind ?_
  rintro items p ⟨hp, (hitems : Expr.Row s (2 * (i + 1)) (2 * p) items)⟩
  refine .previousEnd (by omega) (.expect nofun fun _ => ?_)
  cases hitems with
  | nil =>
    -- an index that is missing stands between the brackets
    refine .pure ⟨by omega, .contains ?_ (Nat.le_refl _) (by omega : 2 * i + 1 ≤ 2 * p - 1) (by omega) nofun⟩
    rw [← s.edge_finish]
    rfl
  | cons he hes =>
    cases hes with
    | nil hle => exact .pure ⟨by omega, he.1.mono (by omega) (by omega)⟩
    | cons he' hes =>
      obtain ⟨x, y, hx, hxy, hy, hspan, hnode⟩ := he.edges
      have hrow := Expr.Row.cons he' hes
      have hle := hrow.le
      refine .pure ⟨by omega, .contains (by rw [hspan]; rfl) (by omega) (by omega : x ≤ 2 * p - 1) (by omega) ?_⟩
      exact Node.AllPlaced.cons (hnode.mono (Nat.le_refl _) (by omega)) (hrow.nodes.mono (by omega) (by omega))

theorem subscript_yields (h : g.Places s) {object : Expr} (hobject : object.Placed s a (2 * pos)) :
    (subscript g object).Yields s pos ((Rule.subscript object).Result s a pos) := by
  unfold subscript
  obtain ⟨x, y, hx, hxy, hy, hspan, hnode⟩ := hobject.edges
  refine Yields.move.bind ?_
  rintro _ p ⟨rfl, hp, hmove⟩
  extract_lets after
  have hafter {index : Expr} {q : Nat} (hq : p < q) (hindex : (Node.expr index).Placed s (2 * pos) (2 * q)) :
      (after index).Yields s q ((Rule.subscript object).Result s a pos) := by
    refine .previousEnd (by omega) (.pure ⟨by omega, ?_⟩)
    refine Expr.placed_of (by rw [hspan]; rfl) hx (by omega) (by omega) hobject.2 ?_
    exact .cons (hnode.mono (Nat.le_refl _) (by omega)) (.cons (hindex.mono (by omega) (by omega)) .nil)
  split <;> rename_i hk
  · refine dotIndex_yields.bind ?_
    rintro index _ ⟨rfl, hindex⟩
    exact hafter (Nat.lt_succ_self p) (hindex.1.mono (by omega) (Nat.le_refl _))
  · obtain rfl := hmove (by rw [hk]; nofun)
    refine (bracketIndex_yields h pos).bind ?_
    rintro index q ⟨hq, hindex⟩
    exact hafter hq (hindex.mono (by omega) (Nat.le_refl _))
  · exact Yields.bind (P := fun _ _ => False) .fault nofun

theorem subscriptItems_yields (h : g.Places s) (ha : a ≤ 2 * pos) (first : Bool) :
    (subscriptItems g first).Yields s pos ((Rule.subscriptItems first).Result s a pos) := by
  unfold subscriptItems
  refine .check (fun _ => .pure ⟨Nat.le_refl _, .nil ha⟩) fun _ => ?_
  extract_lets rest
  refine comma_yields fun p hp => ?_
  refine (h .subscriptItem (by omega : a ≤ 2 * p) trivial).bind ?_
  rintro e q ⟨hq, he⟩
  refine (h (.subscriptItems false) (Nat.le_refl _) trivial).bind ?_
  rintro es r ⟨hr, hes⟩
  exact .pure ⟨by omega, .cons he hes⟩

theorem sliceStep_yields (h : g.Places s) : (sliceStep g).Yields s pos fun o q =>
    pos ≤ q ∧ ∀ e, o = some e → e.Placed s (2 * pos) (2 * q) := by
  unfold sliceStep
  refine .check (fun hk => ?_) fun _ => .pure ⟨Nat.le_refl _, nofun⟩
  refine .advance_of_mem hk rfl (.check (fun _ => .pure ⟨Nat.le_succ _, nofun⟩) fun _ => ?_)
  refine (h (.expression true) (Nat.le_refl _) trivial).bind ?_
  rintro e q ⟨hq, he⟩
  refine .pure ⟨by omega, ?_⟩
  rintro _ ⟨⟩
  exact Expr.Placed.mono he (by omega) (Nat.le_refl _)

/-- The parts of a slice, of which the first stands before the colon. -/
theorem sliceRest_yields (h : g.Places s) {i : Nat} (ha : a ≤ 2 * i) (hi : i < pos) {start : Option Expr}
    (hstart : ∀ e, start = some e → e.Placed s (2 * i) (2 * pos)) :
    (sliceRest g (s.get i).span.start start).Yields s pos fun e q => pos ≤ q ∧ e.Placed s a (2 * q) := by
  unfold sliceRest
  refine .checked fun b _ => ?_
  extract_lets rest
  have hrest {stop : Option Expr} {p : Nat} (hp : pos ≤ p) (hstop : ∀ e, stop = some e → e.Placed s (2 * pos) (2 * p)) :
      (rest stop).Yields s p fun e q => pos ≤ q ∧ e.Placed s a (2 * q) := by
    refine (sliceStep_yields h).bind ?_
    rintro step q ⟨hq, hstep⟩
    refine .previousEnd (by omega) (.pure ⟨by omega, ?_⟩)
    refine Expr.placed_of (by rw [← s.edge_start]; rfl) ha (by omega : 2 * i ≤ 2 * q - 1) (by omega) ⟨i, rfl⟩ ?_
    have within {o : Option Expr} {b c : Nat} (hb : 2 * i ≤ b) (hc : c ≤ q)
        (ho : ∀ e, o = some e → e.Placed s b (2 * c)) :
        Node.AllPlaced s (2 * i) (2 * q - 1 + 1) (Node.ofOption o) :=
      .ofOption fun e he => (ho e he).mono hb (by omega)
    exact ((within (Nat.le_refl _) (by omega) hstart).append (within (by omega) hq hstop)).append
      (within (by omega) (Nat.le_refl _) hstep)
  refine .ite (fun _ => hrest (Nat.le_refl _) nofun) fun _ => ?_
  refine (h (.expression true) (Nat.le_refl _) trivial).bind ?_
  rintro e p ⟨hp, he⟩
  refine hrest hp ?_
  rintro _ ⟨⟩
  exact he

theorem subscriptItem_yields (h : g.Places s) (ha : a ≤ 2 * pos) :
    (subscriptItem g).Yields s pos (Rule.subscriptItem.Result s a pos) := by
  unfold subscriptItem
  refine .current (.check (fun hk => .advance_of_mem hk rfl ?_) fun _ => ?_)
  · refine Yields.mono (sliceRest_yields h ha (Nat.lt_succ_self pos) nofun) ?_
    rintro e q ⟨hq, he⟩
    exact ⟨by omega, he⟩
  · refine (h (.expression true) (Nat.le_refl _) trivial).bind ?_
    rintro e p ⟨hp, (he : e.Placed s (2 * pos) (2 * p))⟩
    refine .check (fun hk => .advance_of_mem hk rfl ?_) fun _ => .pure ⟨hp, he.mono ha (Nat.le_refl _)⟩
    refine (sliceRest_yields h ha (by omega) ?_).mono ?_
    · rintro _ ⟨⟩
      exact he.mono (Nat.le_refl _) (by omega)
    · rintro e q ⟨hq, he⟩
      exact ⟨by omega, he⟩

/-! ## Arguments -/

theorem call_yields (h : g.Places s) {callee : Expr} (hcallee : callee.Placed s a (2 * pos)) :
    (call g callee).Yields s pos ((Rule.call callee).Result s a pos) := by
  unfold call
  refine (h .arguments (Nat.le_refl _) trivial).bind ?_
  rintro args p ⟨hp, (hargs : Node.AllPlaced s (2 * pos) (2 * p) (Node.ofArguments args))⟩
  obtain ⟨x, y, hx, hxy, hy, hspan, hnode⟩ := hcallee.edges
  refine .previousEnd (by omega) (.pure ⟨hp, ?_⟩)
  refine Expr.placed_of (by rw [hspan]; rfl) hx (by omega) (by omega) hcallee.2 ?_
  exact .cons (hnode.mono (Nat.le_refl _) (by omega)) (hargs.mono (by omega) (by omega))

theorem arguments_yields (h : g.Places s) (ha : a ≤ 2 * pos) :
    (arguments g).Yields s pos (Rule.arguments.Result s a pos) := by
  unfold arguments
  refine .expect nofun fun _ => ?_
  have hgiven : (Rule.argumentsRest (s.get pos).span.start .empty).Given s (2 * (pos + 1)) (pos + 1) :=
    ⟨⟨pos, rfl⟩, .nil⟩
  refine (h (.argumentsRest _ .empty) (Nat.le_refl _) hgiven).bind ?_
  rintro args p ⟨hp, (hargs : Node.AllPlaced s (2 * (pos + 1)) (2 * p) (Node.ofArguments args))⟩
  exact .expect nofun fun _ => .pure ⟨by omega, hargs.mono (by omega) (by omega)⟩

theorem ensureOrder_yields {opened : Location} (ho : s.Starts opened) (valid : Bool) :
    (ensureOrder opened valid).Yields s pos fun _ q => q = pos :=
  .ite (fun _ => .pure rfl) fun _ => .report ho

theorem argument_yields (h : g.Places s) (ha : a ≤ 2 * pos) {opened : Location} (ho : s.Starts opened)
    {args : Arguments} (hargs : Node.AllPlaced s a (2 * pos) (Node.ofArguments args)) :
    (argument g opened args).Yields s pos fun args q =>
      pos ≤ q ∧ Node.AllPlaced s a (2 * q) (Node.ofArguments args) := by
  obtain ⟨positional, keywords, spread, keywordSpread⟩ := args
  obtain ⟨hpositional, hkeywords, hspread, hkeywordSpread⟩ := Node.AllPlaced.ofArguments_iff.1 hargs
  have ensured {valid : Bool} {x : Parser Arguments} {good : Arguments → Nat → Prop} (hx : x.Yields s pos good) :
      (ensureOrder opened valid >>= fun _ => x).Yields s pos good := by
    refine (ensureOrder_yields ho valid).bind ?_
    rintro _ _ rfl
    exact hx
  -- what has been read before still stands before the new argument
  have kept {ns : List Node} {q : Nat} (hq : pos ≤ q) (hns : ∀ n ∈ ns, n.Placed s a (2 * pos)) :
      Node.AllPlaced s a (2 * q) ns := Node.AllPlaced.mono hns (Nat.le_refl _) (by omega)
  unfold argument
  refine .check (fun hk => ensured (.advance_of_mem hk rfl ?_)) fun _ =>
    .check (fun hk => ensured (.advance_of_mem hk rfl ?_)) fun _ => ensured (.current (.peek fun next =>
      .ite (fun hn => ?_) fun _ => ensured ?_))
  · refine (h (.expression true) (by omega : a ≤ 2 * (pos + 1)) trivial).bind ?_
    rintro e q ⟨hq, he⟩
    have hq : pos ≤ q := by omega
    exact .pure ⟨hq, Node.AllPlaced.ofArguments_iff.2
      ⟨kept hq hpositional, kept hq hkeywords, .cons he.1 .nil, kept hq hkeywordSpread⟩⟩
  · refine (h (.expression true) (by omega : a ≤ 2 * (pos + 1)) trivial).bind ?_
    rintro e q ⟨hq, he⟩
    have hq : pos ≤ q := by omega
    exact .pure ⟨hq, Node.AllPlaced.ofArguments_iff.2
      ⟨kept hq hpositional, kept hq hkeywords, kept hq hspread, .cons he.1 .nil⟩⟩
  · refine (skip_two_yields (by rw [hn.1]; nofun)).bind fun _ p hp => ?_
    refine (h (.expression true) (Nat.le_refl _) trivial).bind ?_
    rintro value q ⟨hq, (hvalue : value.Placed s (2 * p) (2 * q))⟩
    obtain ⟨x, y, hx, hxy, hy, hspan, hnode⟩ := hvalue.edges
    have hkeyword : (Node.keyword (.mk (s.get pos).value value ⟨(s.get pos).span.start, value.span.finish⟩)).Placed
        s a (2 * q) := by
      refine .contains (by rw [← s.edge_start, hspan]; rfl) ha (by omega : 2 * pos ≤ y) hy ?_
      exact Node.AllPlaced.cons (hnode.mono (by omega) (Nat.le_refl _)) .nil
    have hq : pos ≤ q := by omega
    refine .pure ⟨hq, Node.AllPlaced.ofArguments_iff.2
      ⟨kept hq hpositional, ?_, kept hq hspread, kept hq hkeywordSpread⟩⟩
    rw [List.map_append]
    exact (kept hq hkeywords).append (.cons hkeyword .nil)
  · refine (h (.expression true) ha trivial).bind ?_
    rintro e q ⟨hq, he⟩
    refine .pure ⟨hq, Node.AllPlaced.ofArguments_iff.2
      ⟨?_, kept hq hkeywords, kept hq hspread, kept hq hkeywordSpread⟩⟩
    rw [Node.ofExprs, List.map_append]
    exact (kept hq hpositional).append (.cons he.1 .nil)

theorem argumentsRest_yields (h : g.Places s) (ha : a ≤ 2 * pos) {opened : Location} {args : Arguments}
    (hgiven : (Rule.argumentsRest opened args).Given s a pos) :
    (argumentsRest g opened args).Yields s pos ((Rule.argumentsRest opened args).Result s a pos) := by
  obtain ⟨ho, hargs⟩ := hgiven
  unfold argumentsRest
  refine .check (fun _ => .pure ⟨Nat.le_refl _, hargs⟩) fun _ => ?_
  extract_lets rest
  refine comma_yields fun p hp => .checked fun b _ => ?_
  have hargs := hargs.mono (Nat.le_refl a) (Nat.mul_le_mul_left 2 hp)
  refine .ite (fun _ => .pure ⟨hp, hargs⟩) fun _ => (argument_yields h (by omega) ho hargs).bind ?_
  rintro args q ⟨hq, hargs⟩
  exact h.further (.argumentsRest opened args) (by omega) ha ⟨ho, hargs⟩ rfl fun _ => rfl

/-! ## Filters and tests -/

theorem filter_yields (h : g.Places s) (ha : a ≤ 2 * pos) {input : Expr} (hinput : input.Placed s a (2 * pos)) :
    (filter g input).Yields s pos ((Rule.filter input).Result s a pos) := by
  unfold filter
  refine .check (fun hk => .advance_of_mem hk rfl ?_) fun _ => .pure ⟨Nat.le_refl _, hinput⟩
  refine h.further (.filterChain (some input)) (Nat.le_succ _) ha ?_ rfl fun _ => rfl
  rintro _ ⟨⟩
  exact hinput.mono (Nat.le_refl _) (by omega)

theorem optionalArguments_yields (h : g.Places s) (ha : a ≤ 2 * pos) :
    (optionalArguments g).Yields s pos fun args q =>
      pos ≤ q ∧ Node.AllPlaced s a (2 * q) (Node.ofArguments args) := by
  unfold optionalArguments
  exact .check (fun _ => h .arguments ha trivial) fun _ => .pure ⟨Nat.le_refl _, .nil⟩

theorem singleFilter_yields (h : g.Places s) (ha : a ≤ 2 * pos) {input : Option Expr}
    (hinput : ∀ e, input = some e → e.Placed s a (2 * pos)) :
    (singleFilter g input).Yields s pos ((Rule.singleFilter input).Result s a pos) := by
  unfold singleFilter
  refine .expect nofun fun _ => (optionalArguments_yields h (Nat.le_refl _)).bind ?_
  rintro args p ⟨hp, hargs⟩
  refine .previousEnd (by omega) (.pure ⟨by omega, ?_⟩)
  cases input with
  | none =>
    refine Expr.placed_of (by rw [← s.edge_start]; rfl) ha (by omega) (by omega) ⟨pos, rfl⟩ ?_
    exact hargs.mono (by omega) (by omega)
  | some e =>
    obtain ⟨x, y, hx, hxy, hy, hspan, hnode⟩ := (hinput e rfl).edges
    have hstart : (⟨e.span.start, s.edge (2 * p - 1)⟩ : Span) = ⟨s.edge x, s.edge (2 * p - 1)⟩ := by rw [hspan]
    refine Expr.placed_of hstart hx (by omega) (by omega) (hinput e rfl).2 ?_
    exact .cons (hnode.mono (Nat.le_refl _) (by omega)) (hargs.mono (by omega) (by omega))

theorem filterChain_yields (h : g.Places s) (ha : a ≤ 2 * pos) {input : Option Expr}
    (hinput : ∀ e, input = some e → e.Placed s a (2 * pos)) :
    (filterChain g input).Yields s pos ((Rule.filterChain input).Result s a pos) := by
  unfold filterChain
  refine (h (.singleFilter input) ha hinput).bind ?_
  rintro e p ⟨hp, he⟩
  exact h.further (.filterRest e) hp ha he rfl fun _ => rfl

theorem filterRest_yields (h : g.Places s) (ha : a ≤ 2 * pos) {e : Expr} (he : e.Placed s a (2 * pos)) :
    (filterRest g e).Yields s pos ((Rule.filterRest e).Result s a pos) := by
  unfold filterRest
  refine .check (fun hk => .advance_of_mem hk rfl ?_) fun _ => .pure ⟨Nat.le_refl _, he⟩
  have hnext : (g (.singleFilter (some e))).Yields s (pos + 1) ((Rule.singleFilter (some e)).Result s a pos) := by
    refine h.further (.singleFilter (some e)) (Nat.le_succ pos) ha ?_ rfl fun _ => rfl
    rintro _ ⟨⟩
    exact he.mono (Nat.le_refl _) (by omega)
  refine hnext.bind ?_
  rintro e p ⟨hp, he⟩
  exact h.further (.filterRest e) hp ha he rfl fun _ => rfl

theorem testArguments_yields (h : g.Places s) : (testArguments g).Yields s pos fun args q =>
    pos ≤ q ∧ Node.AllPlaced s (2 * pos) (2 * q) (Node.ofArguments args) := by
  unfold testArguments
  refine .check (fun _ => h .arguments (Nat.le_refl _) trivial) fun _ => ?_
  refine .check (fun _ => ?_) fun _ => .pure ⟨Nat.le_refl _, .nil⟩
  refine (h (.expression true) (Nat.le_refl _) trivial).bind ?_
  rintro e q ⟨hq, he⟩
  exact .pure ⟨hq, .cons he.1 .nil⟩

theorem test_yields (h : g.Places s) {subject : Expr} (hsubject : subject.Placed s a (2 * pos)) :
    (test g subject).Yields s pos ((Rule.test subject).Result s a pos) := by
  unfold test
  refine .expect nofun fun hk => .checked fun negated hn => ?_
  obtain ⟨x, y, hx, hxy, hy, hspan, hnode⟩ := hsubject.edges
  extract_lets rest
  have hrest {p : Nat} (hp : pos + 1 ≤ p) : (rest ()).Yields s p ((Rule.test subject).Result s a pos) := by
    refine .expect nofun fun _ => (testArguments_yields h).bind ?_
    rintro args q ⟨hq, hargs⟩
    refine .previousEnd (by omega) ?_
    have hchildren : Node.AllPlaced s x (2 * q - 1 + 1) (.expr subject :: Node.ofArguments args) :=
      .cons (hnode.mono (Nat.le_refl _) (by omega)) (hargs.mono (by omega) (by omega))
    have hpositive {b : Nat} (hb : 2 * q - 1 < b) :
        (Node.expr (.test subject (s.get p).value args ⟨subject.span.start, s.edge (2 * q - 1)⟩)).Placed s x b :=
      .contains (by rw [hspan]; rfl) (Nat.le_refl _) (by omega) hb hchildren
    refine .ite (fun _ => .pure ⟨by omega, ?_, pos, rfl⟩) fun _ => .pure ⟨by omega, ?_, hsubject.2⟩
    · -- the wrapper begins at `is`, behind the subject of the test
      rw [← s.edge_start]
      exact .negated hk (by omega) (by omega) (by omega) (hpositive (Nat.lt_succ_self _))
    · exact (hpositive (by omega)).mono hx (Nat.le_refl _)
  refine .ite (fun hb => ?_) fun _ => hrest (Nat.le_refl _)
  exact .advance_of_mem (hn.1 hb) rfl (hrest (Nat.le_succ _))

end Stencil.Grammar
