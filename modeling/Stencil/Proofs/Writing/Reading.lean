/-
What is written is read. `Form.Read` says of a form and its tokens that wherever they stand the rule for
the form reads it, up to spans, and ends behind them. There is one lemma for each way to write a form,
and `Written.read` puts them together.
-/
import Stencil.Proofs.Writing.Items

namespace Stencil

open Stencil.Parser

/-- The token may stand behind an item. -/
def TokenKind.closesItem (k : TokenKind) : Bool :=
  k == .symbol .comma || k == .symbol .closeParen || k == .symbol .closeBracket || k == .symbol .closeBrace
    || k == .blockEnd

theorem TokenKind.looseness_of_closesItem {k : TokenKind} (h : k.closesItem = true) : 14 < k.looseness := by
  simp only [closesItem, Bool.or_eq_true, beq_iff_eq] at h
  rcases h with (((rfl | rfl) | rfl) | rfl) | rfl <;> decide

/-- The token may stand behind the item; behind a slice only another subscript or the bracket. -/
def Item.EndsBefore (k : TokenKind) : Item → Prop
  | .subscript _ => k ∈ [TokenKind.symbol .closeBracket, .symbol .comma]
  | _ => k.closesItem = true

theorem Item.endsBefore_comma (x : Item) : x.EndsBefore (.symbol .comma) := by
  cases x with
  | subscript e => exact .tail _ (.head _)
  | _ => rfl

theorem Item.EndsBefore.closesItem {x : Item} {k : TokenKind} (h : x.EndsBefore k) : k.closesItem = true := by
  cases x with
  | subscript e =>
    rcases List.mem_cons.1 h with rfl | h
    · rfl
    · rw [List.mem_singleton.1 h]
      rfl
  | _ => exact h

section

variable (g : Grammar) (s : Stream)

/-- Wherever the tokens stand, the form is read from them. An expression of a level may go on behind
them, if a token follows that continues it. -/
def Form.Read (ts : List Token) : Form → Prop
  | .at l e => ∀ pos t rest, s.At pos (ts ++ t :: rest) → l.Follows t.kind →
    ∃ e', e'.bare = e.bare ∧ g l.rule s pos = l.tail g e' s (pos + ts.length)
  | .operands os => ∀ pos t rest, s.At pos (ts ++ t :: rest) → 11 < t.kind.looseness →
    ∃ os', os'.map Operand.bare = os.map Operand.bare ∧ g .compareRest s pos = .ok os' (pos + ts.length)
  | .arguments args => ∀ pos rest, s.At pos (ts ++ rest) →
    ∃ args', args'.bare = args.bare ∧ g .arguments s pos = .ok args' (pos + ts.length)
  | .bound none => ts = []
  | .bound (some e) => ∀ pos t rest, s.At pos (ts ++ t :: rest) → 14 < t.kind.looseness →
    g.Yields s .cond pos (pos + ts.length) e
  | .step o => ∀ pos t rest, s.At pos (ts ++ t :: rest) →
    t.kind ∈ [TokenKind.symbol .closeBracket, .symbol .comma] →
    ∃ o', o'.map Expr.bare = o.map Expr.bare ∧ Grammar.sliceStep g s pos = .ok o' (pos + ts.length)
  | .item x => ∀ pos t rest, s.At pos (ts ++ t :: rest) → x.EndsBefore t.kind →
    x.Read g s pos (pos + ts.length)
  | .items xs => ∀ pos t rest, s.At pos (ts ++ t :: rest) → (∀ x ∈ xs, x.EndsBefore t.kind) →
    Items.Read g s xs pos (pos + ts.length)

end

variable {g : Grammar} {find : Text → Option Extension} {s : Stream} {statements : Prop}
variable {ts us vs : List Token} {e : Expr} {l : Level}

/-! ## Levels -/

/-- An expression of a level ends before a looser token. -/
theorem Form.Read.closed (hg : g.Solves find s statements) (h : (Form.at l e).Read g s ts) {pos : Nat}
    {t : Token} {rest : List Token} (hat : s.At pos (ts ++ t :: rest)) (ht : l.rank < t.kind.looseness) :
    g.Yields s l.rule pos (pos + ts.length) e := by
  obtain ⟨e', he', hread⟩ := h pos t rest hat (.of_lt ht)
  refine ⟨e', he', ?_⟩
  rw [hread]
  refine hg.tail_eq_ok ?_
  rwa [hat.append.kind]

theorem Grammar.Solves.condRest_eq_ok (hg : g.Solves find s statements) {pos : Nat}
    (h : 14 < (s.get pos).kind.looseness) : g (.condRest e) s pos = .ok e pos := by
  rw [hg (.condRest e) pos nofun]
  refine check_no ?_ _ _
  rw [List.mem_singleton]
  intro hk
  rw [hk] at h
  exact absurd h (by decide)

theorem Grammar.comparisonOp_eq_none {pos : Nat} (h : 11 < (s.get pos).kind.looseness) :
    comparisonOp s pos = .ok none pos := by
  have hnone : comparison? (s.get pos).kind = none := by
    unfold comparison?
    split <;> first | rfl | (rename_i hk; rw [hk] at h; exact absurd h (by decide))
  have hnot : ¬((s.get pos).kind = .keyword .notOp ∧ (s.ahead pos 1).kind = .keyword .inOp) := by
    rintro ⟨hk, -⟩
    rw [hk] at h
    exact absurd h (by decide)
  unfold comparisonOp
  rw [current_bind]
  simp only [hnone]
  rw [peek_bind, if_neg hnot]
  rfl

theorem Grammar.Solves.compareRest_eq_nil (hg : g.Solves find s statements) {pos : Nat}
    (h : 11 < (s.get pos).kind.looseness) : g .compareRest s pos = .ok [] pos := by
  rw [hg .compareRest pos nofun]
  show (current >>= fun token => Grammar.comparisonOp >>= _) s pos = _
  rw [current_bind, bind_ok (Grammar.comparisonOp_eq_none h)]
  rfl

/-- What is read at the next tighter level is read at this one. -/
theorem Form.Read.tighter (hg : g.Solves find s statements) (hopen : l.tighter.Opens ts)
    (h : (Form.at l.tighter e).Read g s ts) : (Form.at l e).Read g s ts := by
  intro pos t rest hat ht
  have hkind : (s.get (pos + ts.length)).kind = t.kind := hat.append.kind
  cases l with
  | cond =>
    obtain ⟨e', he', hread⟩ := h.closed hg hat (Nat.lt_trans (by decide) ht)
    refine ⟨e', he', ?_⟩
    rw [Level.rule, hg .cond pos nofun]
    refine (bind_ok hread _).trans ?_
    exact hg.condRest_eq_ok (by rw [hkind]; exact ht)
  | binary op =>
    obtain ⟨e', he', hread⟩ := h.closed hg hat ht
    refine ⟨e', he', ?_⟩
    rw [Level.rule_tighter_binary] at hread
    rw [Level.rule, hg (.binary op) pos nofun]
    exact bind_ok hread _
  | compare =>
    obtain ⟨e', he', hread⟩ := h.closed hg hat (Nat.lt_trans (by decide) ht)
    refine ⟨e', he', ?_⟩
    rw [Level.rule, hg .compare pos nofun]
    refine (bind_ok hread _).trans ?_
    exact bind_ok (hg.compareRest_eq_nil (by rw [hkind]; exact ht)) _
  | unary =>
    obtain ⟨u, us, rfl, -, hunary, -⟩ := hopen
    obtain ⟨e', he', hread⟩ := h.closed hg hat (Nat.lt_trans (by decide) ht)
    refine ⟨e', he', ?_⟩
    rw [Level.rule, hg .unary pos nofun]
    show (current >>= fun token => _) s pos = _
    have hnone : Grammar.unaryOp? (s.get pos).kind = none := by rw [Stream.At.kind hat]; exact hunary rfl
    rw [current_bind]
    simp only [hnone]
    exact hread
  | primary => exact h pos t rest hat ht

/-! ## Operators -/

theorem Form.Read.cond (hg : g.Solves find s statements) {test a b : Expr} {i els : Token} {span : Span}
    (hi : i.kind = .keyword .ifTag) (hels : els.kind = .keyword .elseTag)
    (ha : (Form.at (.binary .or) a).Read g s ts) (ht : (Form.at (.binary .or) test).Read g s us)
    (hb : (Form.at .cond b).Read g s vs) :
    (Form.at .cond (.cond test a b span)).Read g s (ts ++ i :: us ++ els :: vs) := by
  intro pos t rest hat hfollows
  have hstop : pos + (ts ++ i :: us ++ els :: vs).length = pos + ts.length + 1 + us.length + 1 + vs.length := by
    simp only [List.length_append, List.length_cons]; omega
  simp only [List.append_assoc, List.cons_append] at hat
  have hif := hat.append
  have helse := hif.next.append
  have hend := helse.next.append
  obtain ⟨a', ha', hreadA⟩ := ha.closed hg hat (by rw [hi]; decide)
  obtain ⟨test', ht', hreadTest⟩ := ht.closed hg hif.next (by rw [hels]; decide)
  obtain ⟨b', hb', hreadB⟩ := hb.closed hg helse.next hfollows
  refine ⟨.cond test' a' b' ⟨a'.span.start, b'.span.finish⟩, by simp only [Expr.bare, ha', ht', hb'], ?_⟩
  rw [hstop, Level.rule, hg .cond pos nofun]
  refine (bind_ok hreadA _).trans ?_
  rw [hg (.condRest a') _ nofun]
  refine (check_yes (List.mem_singleton.2 (hif.kind.trans hi)) _ _).trans ?_
  refine (advance_bind (by rw [hif.kind, hi]; nofun) _).trans ?_
  refine (bind_ok hreadTest _).trans ?_
  refine (expect_bind (helse.kind.trans hels) nofun _).trans ?_
  refine (bind_ok hreadB _).trans ?_
  exact hg.condRest_eq_ok (by rw [hend.kind]; exact hfollows)

theorem Form.Read.binary (hg : g.Solves find s statements) {op : BinaryOp} {left right : Expr} {o : Token}
    {span : Span} (ho : o.kind = op.kind) (hl : (Form.at (.binary op) left).Read g s ts)
    (hr : (Form.at (Level.binary op).tighter right).Read g s us) :
    (Form.at (.binary op) (.binary op left right span)).Read g s (ts ++ o :: us) := by
  intro pos t rest hat hfollows
  have hstop : pos + (ts ++ o :: us).length = pos + ts.length + 1 + us.length := by
    simp only [List.length_append, List.length_cons]; omega
  simp only [List.append_assoc, List.cons_append] at hat
  have hop := hat.append
  have hkind : (s.get (pos + ts.length)).kind = op.kind := hop.kind.trans ho
  -- the operator does not end the left operand, it is met in the loop behind it
  have hloop : (Level.binary op).Follows o.kind := by
    show (Level.binary op).tighter.rank < o.kind.looseness
    rw [ho, Level.looseness_kind]
    exact Level.rank_tighter_binary op
  obtain ⟨left', hl', hreadLeft⟩ := hl pos o _ hat hloop
  obtain ⟨right', hr', hreadRight⟩ := hr.closed hg hop.next hfollows
  rw [Level.rule_tighter_binary] at hreadRight
  refine ⟨.binary op left' right' ⟨left'.span.start, right'.span.finish⟩, by simp only [Expr.bare, hl', hr'], ?_⟩
  rw [hstop]
  refine hreadLeft.trans ?_
  rw [Level.tail, hg (.binaryRest op left') _ nofun]
  refine (check_yes (List.mem_singleton.2 (hkind.trans (Level.operatorKind_eq_kind op).symm)) _ _).trans ?_
  refine (advance_bind (by rw [hkind]; cases op <;> nofun) _).trans ?_
  exact bind_ok hreadRight _

theorem Form.Read.unary (hg : g.Solves find s statements) {op : UnaryOp} {o : Token} {span : Span}
    (ho : o.kind = op.kind) (h : (Form.at .unary e).Read g s ts) :
    (Form.at .unary (.unary op e span)).Read g s (o :: ts) := by
  intro pos t rest hat hfollows
  have hstop : pos + (o :: ts).length = pos + 1 + ts.length := by rw [List.length_cons]; omega
  rw [List.cons_append] at hat
  have hsome : Grammar.unaryOp? (s.get pos).kind = some op := by
    rw [hat.kind, ho]
    cases op <;> rfl
  obtain ⟨e', he', hread⟩ := h.closed hg hat.next hfollows
  refine ⟨.unary op e' ⟨(s.get pos).span.start, e'.span.finish⟩, by simp only [Expr.bare, he'], ?_⟩
  rw [hstop, Level.rule, hg .unary pos nofun]
  show (current >>= fun token => _) s pos = _
  rw [current_bind]
  simp only [hsome]
  refine (advance_bind (by rw [hat.kind, ho]; cases op <;> nofun) _).trans ?_
  exact bind_ok hread _

/-! ## Comparisons -/

theorem Grammar.comparisonOp_of_comparison? {op : CompareOp} {pos : Nat}
    (h : comparison? (s.get pos).kind = some op) : comparisonOp s pos = .ok (some op) (pos + 1) := by
  have hne : (s.get pos).kind ≠ .eof := by intro hk; rw [hk] at h; cases h
  unfold comparisonOp
  rw [current_bind]
  simp only [h]
  exact advance_bind hne _

/-- The tokens of a comparison are read as its operator. -/
theorem Grammar.comparisonOp_eq_some {op : CompareOp} {pos : Nat} (hts : ts.map (·.kind) = op.kinds)
    (hat : s.At pos (ts ++ us)) : comparisonOp s pos = .ok (some op) (pos + ts.length) := by
  have single (k : TokenKind) (hk : op.kinds = [k]) (hop : comparison? k = some op) :
      comparisonOp s pos = .ok (some op) (pos + ts.length) := by
    rw [hk] at hts
    obtain ⟨t, rfl, ht⟩ := List.map_eq_singleton_iff.1 hts
    exact comparisonOp_of_comparison? (by rw [hat.kind, ht, hop])
  cases op with
  | notIn =>
    obtain ⟨t, ts', rfl, ht, hts⟩ := List.map_eq_cons_iff.1 hts
    obtain ⟨u, rfl, hu⟩ := List.map_eq_singleton_iff.1 hts
    have hnot : (s.get pos).kind = .keyword .notOp := hat.kind.trans ht
    have hin : (s.get (pos + 1)).kind = .keyword .inOp := hat.next.kind.trans hu
    unfold comparisonOp
    rw [current_bind]
    simp only [hnot, comparison?]
    rw [peek_bind, Stream.ahead_one, if_pos ⟨trivial, hin⟩]
    exact skip_two_bind (by rw [hnot]; nofun) (by rw [hin]; nofun) _
  | _ => exact single _ rfl rfl

/-- Behind an operand of a comparison stands a comparison, or what stands behind them all. -/
theorem Written.operands_head {os : List Operand} (h : Written (.operands os) us) {t : Token}
    (ht : 11 < t.kind.looseness) (rest : List Token) :
    ∃ u vs, us ++ t :: rest = u :: vs ∧ 10 < u.kind.looseness := by
  cases os with
  | nil =>
    cases h
    exact ⟨t, rest, rfl, Nat.lt_trans (by decide) ht⟩
  | cons o os =>
    obtain ⟨u, vs, rfl, hu⟩ := h.opens nofun
    exact ⟨u, vs ++ t :: rest, rfl, by rw [hu]; decide⟩

theorem Form.Read.operand (hg : g.Solves find s statements) {op : CompareOp} {os : List Operand}
    {opTokens : List Token} {span : Span} (hop : opTokens.map (·.kind) = op.kinds)
    (h : (Form.at (.binary .add) e).Read g s ts) (hw : Written (.operands os) us)
    (ho : (Form.operands os).Read g s us) :
    (Form.operands (.mk op e span :: os)).Read g s (opTokens ++ ts ++ us) := by
  intro pos t rest hat ht
  have hstop : pos + (opTokens ++ ts ++ us).length = pos + opTokens.length + ts.length + us.length := by
    simp only [List.length_append]; omega
  simp only [List.append_assoc] at hat
  have hoperand := hat.append
  have hrest := hoperand.append
  obtain ⟨u, vs, hu, hloose⟩ := hw.operands_head ht rest
  rw [hu] at hoperand
  obtain ⟨e', he', hread⟩ := h.closed hg hoperand hloose
  obtain ⟨os', hos', hreadRest⟩ := ho _ t rest hrest ht
  refine ⟨.mk op e' ⟨(s.get pos).span.start, e'.span.finish⟩ :: os', ?_, ?_⟩
  · rw [List.map_cons, List.map_cons, hos', Operand.bare, Operand.bare, he']
  · rw [hstop, hg .compareRest pos nofun]
    show (current >>= fun token => Grammar.comparisonOp >>= _) s pos = _
    rw [current_bind, bind_ok (Grammar.comparisonOp_eq_some hop hat)]
    refine (bind_ok hread _).trans ?_
    exact bind_ok hreadRest _

theorem Form.Read.compare (hg : g.Solves find s statements) {first : Expr} {os : List Operand} {span : Span}
    (hos : os ≠ []) (hf : (Form.at (.binary .add) first).Read g s ts) (hw : Written (.operands os) us)
    (ho : (Form.operands os).Read g s us) :
    (Form.at .compare (.compare first os span)).Read g s (ts ++ us) := by
  intro pos t rest hat ht
  have hstop : pos + (ts ++ us).length = pos + ts.length + us.length := by
    rw [List.length_append]; omega
  rw [List.append_assoc] at hat
  have hrest := hat.append
  obtain ⟨u, vs, hu, hloose⟩ := hw.operands_head ht rest
  rw [hu] at hat
  obtain ⟨first', hf', hread⟩ := hf.closed hg hat hloose
  obtain ⟨os', hos', hreadRest⟩ := ho _ t rest hrest ht
  have hne : os'.isEmpty = false := by
    cases os' with
    | nil => exact absurd (List.map_eq_nil_iff.1 hos'.symm) hos
    | cons o os' => rfl
  refine ⟨.compare first' os' ⟨first'.span.start, s.endBefore (pos + ts.length + us.length)⟩, ?_, ?_⟩
  · simp only [Expr.bare, Operand.bares_eq_map, hf', hos']
  · rw [hstop, Level.rule, hg .compare pos nofun]
    refine (bind_ok hread _).trans ?_
    refine (bind_ok hreadRest _).trans ?_
    rw [hne]
    rfl

end Stencil
