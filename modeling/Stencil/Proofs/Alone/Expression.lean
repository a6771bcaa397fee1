/-
The rules for operators, primary expressions, tuples, lists and dictionaries agree on a twin of streams, if
the rules inside them do. A tuple is the one rule that asks whether the tag ends.
-/
import Stencil.Proofs.Alone.Twin

namespace Stencil.Grammar

open Twin

variable {m : Twin} {g : Grammar} {p : Nat}

/-! ## Conditional expressions -/

theorem expression_twin (h : m.Mirrors g) (hp : p ≤ m.count) (conditional : Bool) :
    m.Agrees False (expression g conditional) (expression g conditional) p fun _ q => p < q :=
  .ite Iff.rfl (fun _ => h .cond hp rfl) fun _ => h (.binary .or) hp rfl

theorem cond_twin (h : m.Mirrors g) (hp : p ≤ m.count) :
    m.Agrees False (cond g) (cond g) p fun _ q => p < q := by
  unfold cond
  refine (h (.binary .or) hp rfl).bind fun value q hq hm => ?_
  exact (h (.condRest value) hq rfl).mono id fun _ r _ hr => Nat.lt_of_lt_of_le hm hr

theorem condRest_twin (h : m.Mirrors g) (hp : p ≤ m.count) (value : Expr) :
    m.Agrees False (condRest g value) (condRest g value) p fun _ q => p ≤ q := by
  unfold condRest
  refine .check hp rfl (fun hk hlt => .advance_of_mem hk hlt rfl ?_) (.pure hp (Nat.le_refl p))
  refine (h (.binary .or) hlt rfl).bind fun test q hq hm => .expect hq rfl nofun fun hlt => ?_
  refine (h .cond hlt rfl).bind fun other r hr hm' => ?_
  exact (h (.condRest _) hr rfl).mono id fun _ t _ ht => by omega

/-! ## Operators between two operands -/

theorem operand_twin (h : m.Mirrors g) (hp : p ≤ m.count) (op : BinaryOp) :
    m.Agrees False (g (operandRule op)) (g (operandRule op)) p fun _ q => p < q := by
  cases op <;> exact h _ hp rfl

theorem binary_twin (h : m.Mirrors g) (hp : p ≤ m.count) (op : BinaryOp) :
    m.Agrees False (binary g op) (binary g op) p fun _ q => p < q := by
  unfold binary
  refine (operand_twin h hp op).bind fun left q hq hm => ?_
  exact (h (.binaryRest op left) hq rfl).mono id fun _ r _ hr => Nat.lt_of_lt_of_le hm hr

theorem binaryRest_twin (h : m.Mirrors g) (hp : p ≤ m.count) (op : BinaryOp) (left : Expr) :
    m.Agrees False (binaryRest g op left) (binaryRest g op left) p fun _ q => p ≤ q := by
  unfold binaryRest
  refine .check hp (by cases op <;> rfl) (fun hk hlt => .advance_of_mem hk hlt (by cases op <;> rfl) ?_)
    (.pure hp (Nat.le_refl p))
  refine (operand_twin h hlt op).bind fun right q hq hm => ?_
  exact (h (.binaryRest op _) hq rfl).mono id fun _ r _ hr => by omega

/-! ## Comparisons -/

/-- A token with another one behind it is looked for, and both are moved over. -/
theorem pair_twin {β : Type} {good : β → Nat → Prop} {k k' : TokenKind} {f f' : Token → Parser β} {z z' : Parser β}
    (hk' : k'.inExpression = true) (hcomma : k ≠ .symbol .comma) (hcomma' : k' ≠ .symbol .comma)
    (ht : ∀ t q, q ≤ m.count → p < q → m.Agrees False (f t) (f' t) q good) (he : m.Agrees False z z' p good) :
    m.Agrees False
      (Parser.peek 1 >>= fun next => if (m.alone.get p).kind = k ∧ next.kind = k' then Parser.skip 2 >>= f else z)
      (Parser.peek 1 >>= fun next => if (m.alone.get p).kind = k ∧ next.kind = k' then Parser.skip 2 >>= f' else z')
      p good := by
  refine .peek fun next hnext => .ite (and_congr_right fun _ => (hnext k' hk').1) (fun hn => ?_) fun _ => he
  have hlt : p + 1 < m.count := (hnext k' hk').2 hn.2
  have hskip : m.Agrees False (Parser.skip 2) (Parser.skip 2) p fun _ q => p < q := by
    show m.Agrees False (Parser.advance >>= fun _ => Parser.advance >>= pure) _ p _
    refine .advance (Nat.lt_of_succ_lt hlt) (by rw [hn.1]; exact hcomma) ?_
    exact .advance hlt (by rw [hn.2]; exact hcomma') (.pure hlt (by omega))
  exact hskip.bind ht

/-- A comparison is read with the tokens that write it, or none is read at all. -/
theorem comparisonOp_twin (hp : p ≤ m.count) :
    m.Agrees False comparisonOp comparisonOp p fun op q => p ≤ q ∧ (op ≠ none → p < q) := by
  unfold comparisonOp
  refine .current hp (fun hlt => ?_) fun _ t t' ht ht' => ?_
  · split
    · rename_i hop
      refine .advance hlt (fun hk => ?_) (.pure hlt ⟨Nat.le_succ p, fun _ => Nat.lt_succ_self p⟩)
      rw [hk] at hop
      cases hop
    · refine pair_twin rfl nofun nofun (fun _ q hq hm => .pure hq ⟨Nat.le_of_lt hm, fun _ => hm⟩) ?_
      exact .pure hp ⟨Nat.le_refl p, fun hn => absurd rfl hn⟩
  · rw [ht, ht']
    refine .peek fun next hnext => .ite (by simp) (fun hn => absurd hn.1 nofun) fun _ => ?_
    exact .pure hp ⟨Nat.le_refl p, fun hn => absurd rfl hn⟩

theorem compare_twin (h : m.Mirrors g) (hp : p ≤ m.count) :
    m.Agrees False (compare g) (compare g) p fun _ q => p < q := by
  unfold compare
  refine (h (.binary .add) hp rfl).bind fun first q hq hm => ?_
  refine (h .compareRest hq rfl).bind fun operands r hr hm' => ?_
  refine .ite Iff.rfl (fun _ => .pure hr (by omega)) fun _ => ?_
  exact .previousEnd (by omega) hr fun _ => .pure hr (by omega)

theorem compareRest_twin (h : m.Mirrors g) (hp : p ≤ m.count) :
    m.Agrees False (compareRest g) (compareRest g) p fun _ q => p ≤ q := by
  unfold compareRest
  refine .current hp (fun hlt => ?_) fun _ t t' _ _ => ?_
  · refine (comparisonOp_twin hp).bind fun op q hq hm => ?_
    cases op with
    | none => exact .pure hq hm.1
    | some op =>
      have hm := hm.2 nofun
      refine (h (.binary .add) hq rfl).bind fun operand r hr hm' => ?_
      refine (h .compareRest hr rfl).bind fun rest t ht hm'' => ?_
      exact .pure ht (by omega)
  · refine (comparisonOp_twin hp).bind fun op q hq hm => ?_
    cases op with
    | none => exact .pure hq hm.1
    | some op => exact absurd (hm.2 nofun) (by omega)

/-! ## Operators before an operand -/

theorem unary_twin (h : m.Mirrors g) (hp : p ≤ m.count) :
    m.Agrees False (unary g) (unary g) p fun _ q => p < q := by
  unfold unary
  refine .current hp (fun hlt => ?_) fun _ t t' ht ht' => ?_
  · split
    · exact h (.primary true) hp rfl
    · rename_i hop
      refine .advance hlt (fun hk => ?_) ((h .unary hlt rfl).bind fun operand q hq hm => .pure hq (by omega))
      rw [hk] at hop
      cases hop
  · rw [ht, ht']
    exact h (.primary true) hp rfl

/-! ## Primary expressions -/

theorem integer_twin (hp : p ≤ m.count) (t : Token) :
    m.Agrees False (integer t) (integer t) p fun _ q => q = p := by
  unfold integer
  split
  · exact .pure hp rfl
  · exact .fault

theorem atom_twin (h : m.Mirrors g) (hp : p ≤ m.count) :
    m.Agrees False (atom g) (atom g) p fun _ q => p < q := by
  unfold atom
  refine .current hp (fun hlt => ?_) fun _ t t' ht ht' => ?_
  · have token {e : Expr} {k : TokenKind} (hk : (m.alone.get p).kind = k) (hne : k ≠ .symbol .comma) :
        m.Agrees False (Parser.advance >>= fun _ => pure e) (Parser.advance >>= fun _ => pure e) p fun _ q => p < q :=
      .advance hlt (hk ▸ hne) (.pure hlt (Nat.lt_succ_self p))
    split <;> rename_i hk
    · exact token hk nofun
    · refine .advance hlt (by rw [hk]; nofun) ((integer_twin hlt _).mono id ?_)
      rintro _ _ - rfl
      exact Nat.lt_succ_self p
    · exact token hk nofun
    · exact token hk nofun
    · refine .advance hlt (by rw [hk]; nofun)
        ((h (.tuple (.expression true)) hlt rfl).bind_late (fun inner q hq hm => ?_) ?_)
      · exact .expect hq rfl nofun fun hlt => .previousEnd (by omega) hlt fun _ => .pure hlt (by omega)
      · -- a tuple that comes late in the tag is not closed there
        exact fun _ _ => .expectSymbol
    · exact h .list hp rfl
    · exact h .dict hp rfl
    · exact .report
  · rw [ht, ht']
    exact .report

theorem primary_twin (h : m.Mirrors g) (hp : p ≤ m.count) (withSuffixes : Bool) :
    m.Agrees False (primary g withSuffixes) (primary g withSuffixes) p fun _ q => p < q := by
  unfold primary
  refine (atom_twin h hp).bind fun e q hq hm => .ite Iff.rfl (fun _ => ?_) fun _ => .pure hq hm
  exact (h (.suffixes e) hq rfl).mono id fun _ r _ hr => Nat.lt_of_lt_of_le hm hr

/-! ## Tuples -/

theorem tupleItem_twin (h : m.Mirrors g) (hp : p ≤ m.count) (item : TupleItem) :
    m.Agrees False (tupleItem g item) (tupleItem g item) p fun _ q => p < q := by
  cases item with
  | primary => exact h (.primary true) hp rfl
  | expression conditional => exact h (.expression conditional) hp rfl

/-- Whether a tuple has a further item is the same on both streams, but behind the tokens: there the end of
the tag says that it has none, while alone an item is missing. -/
theorem tupleEnd_twin {α : Type} {late : Prop} {good : α → Nat → Prop} (h : m.Mirrors g) (hp : p ≤ m.count)
    (item : TupleItem) {a a' : α} {f f' : Expr → Parser α} (ha : p < m.count → a' = a ∧ good a p)
    (hlate : p = m.count → late) (k : ∀ e q, q ≤ m.count → p < q → m.Agrees late (f e) (f' e) q good) :
    m.Agrees late (do if ← Parser.check tupleEnds then return a else tupleItem g item >>= f)
      (do if ← Parser.check tupleEnds then return a' else tupleItem g item >>= f') p good := by
  have look (b : α) (w : Expr → Parser α) (s : Stream) (i : Nat) :
      (do if ← Parser.check tupleEnds then return b else tupleItem g item >>= w : Parser α) s i =
        (if tupleEnds.contains (s.get i).kind = true then pure b else tupleItem g item >>= w : Parser α) s i := rfl
  have hitem := tupleItem_twin h hp item
  unfold Agrees
  rw [look, look]
  rcases Nat.lt_or_eq_of_le hp with hlt | rfl
  · obtain ⟨rfl, hgood⟩ := ha hlt
    rw [m.same p hlt]
    exact Agrees.ite (x := pure a') (y := pure a') Iff.rfl (fun _ => .pure hp hgood) fun _ => hitem.bind k
  · obtain ⟨e, q, hfail⟩ := hitem.alone_fails
    have hx : (tupleItem g item >>= f) m.alone m.count = .fail e q := Parser.bind_eq_fail.2 (.inl hfail)
    have halone : ¬tupleEnds.contains (m.alone.get m.count).kind = true := by
      rw [m.alone_end _ (Nat.le_refl _)]
      decide
    have htagged : tupleEnds.contains (m.tagged.get (m.count + 1)).kind = true := by
      rw [m.tagged_end]
      rfl
    rw [if_neg halone, if_pos htagged, hx]
    exact ⟨hlate rfl, rfl⟩

theorem tuple_twin (h : m.Mirrors g) (hp : p ≤ m.count) (item : TupleItem) :
    m.Agrees (p = m.count ∨ m.Comma) (tuple g item) (tuple g item) p fun _ q => p ≤ q ∧ p < m.count := by
  unfold tuple
  refine .current hp (fun hlt => ?_) fun heq t t' _ _ => ?_
  · refine tupleEnd_twin h hp item (fun _ => ⟨rfl, Nat.le_refl p, hlt⟩) .inl fun first q hq hm => ?_
    refine .check hq rfl (fun _ _ => ?_) (.pure hq (by omega))
    refine (h (.tupleRest item) hq rfl).bind_late (fun rest r hr hmr => ?_) fun hcomma _ => ⟨.inr hcomma, rfl⟩
    exact .previousEnd (by omega) hr fun _ => .pure hr (by omega)
  · refine tupleEnd_twin h hp item (fun hlt => absurd heq (Nat.ne_of_lt hlt)) .inl fun _ q hq hm => ?_
    omega

theorem tupleRest_twin (h : m.Mirrors g) (hp : p ≤ m.count) (item : TupleItem) :
    m.Agrees m.Comma (tupleRest g item) (tupleRest g item) p fun _ q => p < q := by
  unfold tupleRest
  refine .comma hp fun hk hlt => tupleEnd_twin h hlt item (fun hbefore => ⟨rfl, Nat.lt_succ_self p, fun heq => ?_⟩)
    (fun heq => ⟨p, heq.symm, hk⟩) fun e q hq hm => ?_
  · omega
  · refine .check hq rfl (fun _ _ => ?_) (.pure hq (by omega))
    refine (h (.tupleRest item) hq rfl).bind_late (fun rest r hr hmr => ?_) fun hcomma _ => ⟨hcomma, rfl⟩
    exact .pure hr (by omega)

/-! ## Lists and dictionaries -/

theorem list_twin (h : m.Mirrors g) (hp : p ≤ m.count) :
    m.Agrees False (list g) (list g) p fun _ q => p < q := by
  unfold list
  refine .expect hp rfl nofun fun hlt => (h (.listItems true) hlt rfl).bind fun items q hq hm => ?_
  exact .expect hq rfl nofun fun hlt => .previousEnd (by omega) hlt fun _ => .pure hlt (by omega)

/-- The comma before every item but the first one. It is not the last token: behind it stands an item, or the
bracket that closes them. -/
theorem comma_twin {b : Prop} [Decidable b] {α : Type} {rest : Unit → Parser α} {good : α → Nat → Prop}
    (hp : p ≤ m.count) (k : ∀ q, q ≤ m.count → p ≤ q →
      m.Agrees False (rest ()) (rest ()) q fun a r => good a r ∧ (r = m.count → q < r)) :
    m.Agrees False (if b then do let _ ← Parser.expectSymbol .comma; rest () else rest ())
      (if b then do let _ ← Parser.expectSymbol .comma; rest () else rest ()) p good :=
  .ite Iff.rfl (fun _ => .comma hp fun _ hlt => k _ hlt (Nat.le_succ p)) fun _ =>
    (k p hp (Nat.le_refl p)).mono id fun _ _ _ hq => hq.1

theorem listItems_twin (h : m.Mirrors g) (hp : p ≤ m.count) (first : Bool) :
    m.Agrees False (listItems g first) (listItems g first) p fun _ q => p ≤ q := by
  unfold listItems
  refine .check hp rfl (fun _ _ => .pure hp (Nat.le_refl p)) ?_
  extract_lets rest
  refine comma_twin hp fun q hq hm => .check hq rfl (fun _ hlt => .pure hq (by omega)) ?_
  refine (h (.expression true) hq rfl).bind fun e r hr hmr => ?_
  refine (h (.listItems false) hr rfl).bind fun es t ht hmt => ?_
  exact .pure ht (by omega)

theorem dict_twin (h : m.Mirrors g) (hp : p ≤ m.count) :
    m.Agrees False (dict g) (dict g) p fun _ q => p < q := by
  unfold dict
  refine .expect hp rfl nofun fun hlt => (h (.dictItems true) hlt rfl).bind fun items q hq hm => ?_
  exact .expect hq rfl nofun fun hlt => .previousEnd (by omega) hlt fun _ => .pure hlt (by omega)

theorem dictItems_twin (h : m.Mirrors g) (hp : p ≤ m.count) (first : Bool) :
    m.Agrees False (dictItems g first) (dictItems g first) p fun _ q => p ≤ q := by
  unfold dictItems
  refine .check hp rfl (fun _ _ => .pure hp (Nat.le_refl p)) ?_
  extract_lets rest
  refine comma_twin hp fun q hq hm => .check hq rfl (fun _ hlt => .pure hq (by omega)) ?_
  refine (h (.expression true) hq rfl).bind fun key r hr hmr => .expect hr rfl nofun fun hlt => ?_
  refine (h (.expression true) hlt rfl).bind fun value t ht hmt => ?_
  refine (h (.dictItems false) ht rfl).bind fun ps u hu hmu => ?_
  exact .pure hu (by omega)

end Stencil.Grammar
