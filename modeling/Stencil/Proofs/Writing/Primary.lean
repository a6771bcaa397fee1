/-
Names, literals, what stands in brackets, and what follows a primary expression, each read from the
tokens that write it.
-/
import Stencil.Proofs.Writing.Reading

namespace Stencil

open Stencil.Parser

variable {g : Grammar} {find : Text → Option Extension} {s : Stream} {statements : Prop}
variable {ts us vs : List Token} {e : Expr} {pos stop : Nat} {span : Span}

/-! ## Names and literals -/

/-- A primary expression is read as its first part, and then what follows it. -/
theorem Grammar.Solves.primary_of_atom (hg : g.Solves find s statements)
    (h : Grammar.atom g s pos = .ok e stop) : g (.primary true) s pos = g (.suffixes e) s stop := by
  rw [hg (.primary true) pos nofun]
  exact bind_ok h _

theorem Form.Read.name (hg : g.Solves find s statements) {n : Text} {t : Token} (ht : t.kind = .name)
    (hv : t.value = n) (hn : Constant.ofName? n = none) :
    (Form.at .primary (.name n .load span)).Read g s [t] := by
  intro pos u rest hat _
  have hget : s.get pos = t := hat.get
  refine ⟨.name n .load t.span, by simp only [Expr.bare], ?_⟩
  refine hg.primary_of_atom ?_
  unfold Grammar.atom
  rw [current_bind]
  simp only [hget, ht]
  rw [advance_bind (by rw [hget, ht]; nofun)]
  unfold Grammar.nameExpr
  rw [hv]
  simp only [hn]
  rfl

theorem Form.Read.const (hg : g.Solves find s statements) {c : Constant} {t : Token} (h : t.Denotes c) :
    (Form.at .primary (.const c span)).Read g s [t] := by
  intro pos u rest hat _
  have hget : s.get pos = t := hat.get
  refine ⟨.const c t.span, by simp only [Expr.bare], ?_⟩
  refine hg.primary_of_atom ?_
  unfold Grammar.atom
  rw [current_bind]
  unfold Token.Denotes at h
  split at h <;> rename_i hk
  · simp only [hget, hk]
    rw [advance_bind (by rw [hget, hk]; nofun)]
    unfold Grammar.nameExpr
    simp only [h]
    rfl
  · simp only [hget, hk]
    rw [advance_bind (by rw [hget, hk]; nofun)]
    unfold Grammar.integer
    simp only [h]
    rfl
  · simp only [hget, hk]
    rw [advance_bind (by rw [hget, hk]; nofun), h]
    rfl
  · simp only [hget, hk]
    rw [advance_bind (by rw [hget, hk]; nofun), h]
    rfl
  · exact h.elim

/-! ## Tuples and parentheses -/

/-- An item that no comma follows is itself where a tuple may stand. -/
theorem Grammar.Solves.tuple_of_item (hg : g.Solves find s statements) {item : TupleItem}
    (hopen : (s.get pos).kind.opensItem = true) (h : Grammar.tupleItem g item s pos = .ok e stop)
    (hstop : (s.get stop).kind ≠ .symbol .comma) : g (.tuple item) s pos = .ok e stop := by
  rw [hg (.tuple item) pos nofun]
  show (current >>= fun t => _) s pos = _
  rw [current_bind]
  refine (check_no (TokenKind.opensItem_ne hopen rfl) _ _).trans ?_
  refine (bind_ok h _).trans ?_
  exact check_no (fun hk => hstop (List.mem_singleton.1 hk)) _ _

theorem Grammar.Solves.tuple_of_expr (hg : g.Solves find s statements)
    (hopen : (s.get pos).kind.opensItem = true) (h : g .cond s pos = .ok e stop)
    (hstop : (s.get stop).kind ≠ .symbol .comma) : g (.tuple (.expression true)) s pos = .ok e stop :=
  hg.tuple_of_item hopen ((hg.expression_true pos).trans h) hstop

/-- What stands in parentheses is read as a tuple, and the parentheses only change its span. -/
theorem Grammar.Solves.parens (hg : g.Solves find s statements) (hopen : (s.get pos).kind = .symbol .openParen)
    (h : g (.tuple (.expression true)) s (pos + 1) = .ok e stop)
    (hclose : (s.get stop).kind = .symbol .closeParen) :
    ∃ e', e'.bare = e.bare ∧ g (.primary true) s pos = g (.suffixes e') s (stop + 1) := by
  refine ⟨Grammar.withParens e ⟨(s.get pos).span.start, s.endBefore (stop + 1)⟩, ?_, ?_⟩
  · cases e <;> simp only [Grammar.withParens, Expr.bare]
  · refine hg.primary_of_atom ?_
    unfold Grammar.atom
    rw [current_bind]
    simp only [hopen]
    rw [advance_bind (by rw [hopen]; nofun)]
    refine (bind_ok h _).trans ?_
    exact expect_bind hclose nofun _

theorem Level.Opens.get {l : Level} (h : l.Opens ts) (hat : s.At pos (ts ++ us)) :
    (s.get pos).kind.opensItem = true := by
  obtain ⟨t, vs, rfl, ht⟩ := h.opensItem
  rw [hat.get]
  exact ht

theorem Form.Read.parens (hg : g.Solves find s statements) {o c : Token} (ho : o.kind = .symbol .openParen)
    (hc : c.kind = .symbol .closeParen) (hopens : Level.cond.Opens ts)
    (h : (Form.at .cond e).Read g s ts) : (Form.at .primary e).Read g s (o :: ts ++ [c]) := by
  intro pos t rest hat _
  obtain ⟨hopen, hinner, hclose, -, hstop⟩ := hat.between
  obtain ⟨e', he', hread⟩ := h.closed hg hinner (by rw [hc]; decide)
  have htuple := hg.tuple_of_expr (hopens.get hinner) hread (by rw [hclose, hc]; nofun)
  obtain ⟨e'', he'', hparens⟩ := hg.parens (hopen.trans ho) htuple (hclose.trans hc)
  exact ⟨e'', he''.trans he', by rw [hstop]; exact hparens⟩

theorem Form.Read.emptyTuple (hg : g.Solves find s statements) {o c : Token}
    (ho : o.kind = .symbol .openParen) (hc : c.kind = .symbol .closeParen) :
    (Form.at .primary (.tuple [] .load span)).Read g s [o, c] := by
  intro pos t rest hat _
  have hclose : (s.get (pos + 1)).kind = .symbol .closeParen := hat.next.kind.trans hc
  have htuple : g (.tuple (.expression true)) s (pos + 1) =
      .ok (.tuple [] .load ⟨(s.get (pos + 1)).span.start, (s.get (pos + 1)).span.start⟩) (pos + 1) := by
    rw [hg (.tuple (.expression true)) (pos + 1) nofun]
    show (current >>= fun t => _) s (pos + 1) = _
    rw [current_bind]
    exact check_yes (by rw [hclose]; exact .head _) _ _
  obtain ⟨e', he', hparens⟩ := hg.parens (hat.kind.trans ho) htuple hclose
  exact ⟨e', by rw [he', Expr.bare, Expr.bare], hparens⟩

/-- An expression that a comma follows is the first item of a tuple. -/
theorem Grammar.Solves.tuple_of_items (hg : g.Solves find s statements) {m : Nat} {es : List Expr}
    (hopen : (s.get pos).kind.opensItem = true) (h : g .cond s pos = .ok e m)
    (hcomma : (s.get m).kind = .symbol .comma)
    (hrest : g (.tupleRest (.expression true)) s m = .ok es stop) :
    g (.tuple (.expression true)) s pos =
      .ok (.tuple (e :: es) .load ⟨(s.get pos).span.start, s.endBefore stop⟩) stop := by
  rw [hg (.tuple (.expression true)) pos nofun]
  show (current >>= fun t => _) s pos = _
  rw [current_bind]
  refine (check_no (TokenKind.opensItem_ne hopen rfl) _ _).trans ?_
  refine (bind_ok ((hg.expression_true pos).trans h) _).trans ?_
  refine (check_yes (List.mem_singleton.2 hcomma) _ _).trans ?_
  exact bind_ok hrest _

theorem Form.Read.oneTuple (hg : g.Solves find s statements) {o m c : Token}
    (ho : o.kind = .symbol .openParen) (hm : m.kind = .symbol .comma) (hc : c.kind = .symbol .closeParen)
    (hopens : Level.cond.Opens ts) (h : (Form.at .cond e).Read g s ts) :
    (Form.at .primary (.tuple [e] .load span)).Read g s (o :: ts ++ [m, c]) := by
  intro pos t rest hat _
  have hstop : pos + (o :: ts ++ [m, c]).length = pos + 1 + ts.length + 1 + 1 := by
    simp only [List.length_append, List.length_cons, List.length_nil]; omega
  simp only [List.cons_append, List.append_assoc, List.nil_append] at hat
  have hcomma : (s.get (pos + 1 + ts.length)).kind = .symbol .comma := hat.next.append.kind.trans hm
  have hclose : (s.get (pos + 1 + ts.length + 1)).kind = .symbol .closeParen :=
    hat.next.append.next.kind.trans hc
  obtain ⟨e', he', hread⟩ := h.closed hg hat.next (by rw [hm]; decide)
  have hrest : g (.tupleRest (.expression true)) s (pos + 1 + ts.length) = .ok [] (pos + 1 + ts.length + 1) := by
    rw [hg (.tupleRest (.expression true)) _ nofun]
    refine (expect_bind hcomma nofun _).trans ?_
    exact check_yes (by rw [hclose]; exact .head _) _ _
  have htuple := hg.tuple_of_items (hopens.get hat.next) hread hcomma hrest
  obtain ⟨e'', he'', hparens⟩ := hg.parens (hat.kind.trans ho) htuple hclose
  refine ⟨e'', ?_, by rw [hstop]; exact hparens⟩
  rw [he'']
  simp only [Expr.bare, Expr.bares, he']

theorem Form.Read.tuple (hg : g.Solves find s statements) {es : List Expr} {o c : Token}
    (ho : o.kind = .symbol .openParen) (hc : c.kind = .symbol .closeParen) (hes : 2 ≤ es.length)
    (h : (Form.items (es.map .expr)).Read g s ts) :
    (Form.at .primary (.tuple es .load span)).Read g s (o :: ts ++ [c]) := by
  intro pos t rest hat _
  obtain ⟨hopen, hinner, hclose, -, hstop⟩ := hat.between
  have hends : ∀ x ∈ es.map Item.expr, x.EndsBefore c.kind := by
    intro x hx
    obtain ⟨e, -, rfl⟩ := List.mem_map.1 hx
    rw [hc]
    rfl
  have hitems := h (pos + 1) c _ hinner hends
  obtain ⟨e, f, fs, rfl⟩ : ∃ e f fs, es = e :: f :: fs := by
    match es, hes with
    | e :: f :: fs, _ => exact ⟨e, f, fs, rfl⟩
  obtain ⟨hopens, m, ⟨e', he', hread⟩, hcomma, hrest⟩ := hitems
  obtain ⟨es', hes', hreadRest⟩ := Items.Read.tupleRest hg hrest hcomma rfl (by rw [hclose, hc]; nofun)
  have htuple := hg.tuple_of_items hopens hread hcomma hreadRest
  obtain ⟨e'', he'', hparens⟩ := hg.parens (hopen.trans ho) htuple (hclose.trans hc)
  refine ⟨e'', ?_, by rw [hstop]; exact hparens⟩
  rw [he'']
  simp only [Expr.bare, Expr.bares_eq_map, List.map_cons, he', hes']

/-! ## Lists and dictionaries -/

theorem Form.Read.list (hg : g.Solves find s statements) {es : List Expr} {o c : Token}
    (ho : o.kind = .symbol .openBracket) (hc : c.kind = .symbol .closeBracket)
    (h : (Form.items (es.map .expr)).Read g s ts) :
    (Form.at .primary (.list es span)).Read g s (o :: ts ++ [c]) := by
  intro pos t rest hat _
  obtain ⟨hopen, hinner, hclose, -, hstop⟩ := hat.between
  have hopen := hopen.trans ho
  have hends : ∀ x ∈ es.map Item.expr, x.EndsBefore c.kind := by
    intro x hx
    obtain ⟨e, -, rfl⟩ := List.mem_map.1 hx
    rw [hc]
    rfl
  obtain ⟨es', hes', hread⟩ := (h (pos + 1) c _ hinner hends).listItems hg (hclose.trans hc)
  refine ⟨.list es' ⟨(s.get pos).span.start, s.endBefore (pos + 1 + ts.length + 1)⟩, ?_, ?_⟩
  · simp only [Expr.bare, Expr.bares_eq_map, hes']
  · rw [hstop]
    refine hg.primary_of_atom ?_
    unfold Grammar.atom
    rw [current_bind]
    simp only [hopen]
    rw [hg .list pos nofun]
    refine (expect_bind hopen nofun _).trans ?_
    refine (bind_ok hread _).trans ?_
    exact expect_bind (hclose.trans hc) nofun _

theorem Form.Read.dict (hg : g.Solves find s statements) {ps : List Pair} {o c : Token}
    (ho : o.kind = .symbol .openBrace) (hc : c.kind = .symbol .closeBrace)
    (h : (Form.items (ps.map .pair)).Read g s ts) :
    (Form.at .primary (.dict ps span)).Read g s (o :: ts ++ [c]) := by
  intro pos t rest hat _
  obtain ⟨hopen, hinner, hclose, -, hstop⟩ := hat.between
  have hopen := hopen.trans ho
  have hends : ∀ x ∈ ps.map Item.pair, x.EndsBefore c.kind := by
    intro x hx
    obtain ⟨p, -, rfl⟩ := List.mem_map.1 hx
    rw [hc]
    rfl
  obtain ⟨ps', hps', hread⟩ := (h (pos + 1) c _ hinner hends).dictItems hg (hclose.trans hc)
  refine ⟨.dict ps' ⟨(s.get pos).span.start, s.endBefore (pos + 1 + ts.length + 1)⟩, ?_, ?_⟩
  · simp only [Expr.bare, Pair.bares_eq_map, hps']
  · rw [hstop]
    refine hg.primary_of_atom ?_
    unfold Grammar.atom
    rw [current_bind]
    simp only [hopen]
    rw [hg .dict pos nofun]
    refine (expect_bind hopen nofun _).trans ?_
    refine (bind_ok hread _).trans ?_
    exact expect_bind (hclose.trans hc) nofun _

end Stencil
