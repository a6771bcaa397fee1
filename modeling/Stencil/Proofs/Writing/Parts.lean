/-
Items read one by one: slices with their bounds, subscripts, pairs and arguments; and lists of them.
-/
import Stencil.Proofs.Writing.Suffix

namespace Stencil

open Stencil.Parser

variable {g : Grammar} {find : Text → Option Extension} {s : Stream} {statements : Prop}
variable {ts us vs : List Token} {e : Expr} {pos stop : Nat} {span : Span}

/-! ## Slices -/

/-- The kinds at which a part of a slice ends. -/
def TokenKind.sliceEnds : List TokenKind := [.symbol .colon, .symbol .closeBracket, .symbol .comma]

theorem TokenKind.looseness_of_sliceEnds {k : TokenKind} (h : k ∈ sliceEnds) : 14 < k.looseness := by
  simp only [sliceEnds, List.mem_cons, List.not_mem_nil, or_false] at h
  rcases h with rfl | rfl | rfl <;> decide

/-- The first token of an expression is none of the kinds with which no expression begins. -/
theorem Level.Opens.not_mem {l : Level} (h : l.Opens ts) (hat : s.At pos (ts ++ us)) {ks : List TokenKind}
    (hks : ks.all (fun k => !k.opensExpr) = true) : (s.get pos).kind ∉ ks := by
  obtain ⟨t, vs, rfl, hopen, -⟩ := h
  intro hmem
  have hclosed := List.all_eq_true.1 hks _ hmem
  rw [hat.kind, hopen] at hclosed
  cases hclosed

theorem Form.Read.step (hg : g.Solves find s statements) {o : Option Expr} {c : Token}
    (hc : c.kind = .symbol .colon) (hopens : (Form.bound o).Opens ts) (h : (Form.bound o).Read g s ts) :
    (Form.step o).Read g s (c :: ts) := by
  intro pos t rest hat ht
  have hstop : pos + (c :: ts).length = pos + 1 + ts.length := by rw [List.length_cons]; omega
  rw [List.cons_append] at hat
  have hcolon : (s.get pos).kind = .symbol .colon := hat.kind.trans hc
  rw [hstop]
  cases o with
  | none =>
    cases (show ts = [] from h)
    refine ⟨none, rfl, ?_⟩
    refine (check_yes (List.mem_singleton.2 hcolon) _ _).trans ?_
    refine (advance_bind (by rw [hcolon]; nofun) _).trans ?_
    exact check_yes (by rw [hat.next.kind]; exact ht) _ _
  | some e =>
    have hloose : 14 < t.kind.looseness := TokenKind.looseness_of_sliceEnds (.tail _ ht)
    obtain ⟨e', he', hread⟩ := h _ t rest hat.next hloose
    refine ⟨some e', by rw [Option.map_some, Option.map_some, he'], ?_⟩
    refine (check_yes (List.mem_singleton.2 hcolon) _ _).trans ?_
    refine (advance_bind (by rw [hcolon]; nofun) _).trans ?_
    refine (check_no (hopens.not_mem hat.next rfl) _ _).trans ?_
    exact bind_ok ((hg.expression_true (pos + 1)).trans hread) _

/-- Behind the second part of a slice stands a colon, or what stands behind the slice. -/
theorem Written.step_head {o : Option Expr} (h : Written (.step o) vs) {t : Token}
    (ht : t.kind ∈ [TokenKind.symbol .closeBracket, .symbol .comma]) (rest : List Token) :
    ∃ u ws, vs ++ t :: rest = u :: ws ∧ u.kind ∈ TokenKind.sliceEnds := by
  cases h with
  | noStep => exact ⟨t, rest, rfl, .tail _ ht⟩
  | step hc h => exact ⟨_, _, rfl, by rw [hc]; exact .head _⟩

/-- The parts of a slice behind its first colon. -/
theorem Form.Read.sliceRest (hg : g.Solves find s statements) (start : Option Expr) (begun : Location)
    {stop step : Option Expr} (hopens : (Form.bound stop).Opens us) (hb : (Form.bound stop).Read g s us)
    (hw : Written (.step step) vs) (hs : (Form.step step).Read g s vs) {t : Token} {rest : List Token}
    (hat : s.At pos (us ++ vs ++ t :: rest)) (ht : t.kind ∈ [TokenKind.symbol .closeBracket, .symbol .comma]) :
    ∃ stop' step' span', stop'.map Expr.bare = stop.map Expr.bare ∧ step'.map Expr.bare = step.map Expr.bare ∧
      Grammar.sliceRest g begun start s pos =
        .ok (.slice start stop' step' span') (pos + us.length + vs.length) := by
  rw [List.append_assoc] at hat
  obtain ⟨step', hstep, hreadStep⟩ := hs _ t rest hat.append ht
  obtain ⟨u, ws, hu, hends⟩ := hw.step_head ht rest
  rw [hu] at hat
  unfold Grammar.sliceRest
  cases stop with
  | none =>
    cases (show us = [] from hb)
    refine ⟨none, step', ⟨begun, s.endBefore (pos + vs.length)⟩, rfl, hstep, ?_⟩
    show (check TokenKind.sliceEnds >>= _) s pos = _
    rw [check_bind, hat.kind, if_pos (List.contains_iff_mem.2 hends)]
    exact bind_ok hreadStep _
  | some e =>
    obtain ⟨e', he', hread⟩ := hb pos u ws hat (TokenKind.looseness_of_sliceEnds hends)
    have hpart : (s.get pos).kind ∉ TokenKind.sliceEnds := hopens.not_mem hat rfl
    refine ⟨some e', step', ⟨begun, s.endBefore (pos + us.length + vs.length)⟩,
      by rw [Option.map_some, Option.map_some, he'], hstep, ?_⟩
    show (check TokenKind.sliceEnds >>= _) s pos = _
    rw [check_bind, if_neg fun h => hpart (List.contains_iff_mem.1 h)]
    refine (bind_ok ((hg.expression_true pos).trans hread) _).trans ?_
    exact bind_ok hreadStep _

/-- A slice, whose first part may be absent. -/
theorem Form.Read.slice (hg : g.Solves find s statements) {start stop step : Option Expr} {c : Token}
    (hc : c.kind = .symbol .colon) (hopensA : (Form.bound start).Opens ts)
    (hopensB : (Form.bound stop).Opens us) (ha : (Form.bound start).Read g s ts)
    (hb : (Form.bound stop).Read g s us) (hw : Written (.step step) vs) (hs : (Form.step step).Read g s vs) :
    (Form.item (.subscript (.slice start stop step span))).Read g s (ts ++ c :: us ++ vs) := by
  intro pos t rest hat ht
  have hstop : pos + (ts ++ c :: us ++ vs).length = pos + ts.length + 1 + us.length + vs.length := by
    simp only [List.length_append, List.length_cons]; omega
  simp only [List.append_assoc, List.cons_append] at hat
  have hcolon : (s.get (pos + ts.length)).kind = .symbol .colon := hat.append.kind.trans hc
  have hparts := hat.append.next
  rw [← List.append_assoc] at hparts
  rw [hstop]
  cases start with
  | none =>
    cases (show ts = [] from ha)
    obtain ⟨stop', step', span', hstop', hstep', hread⟩ :=
      Form.Read.sliceRest hg none (s.get pos).span.start hopensB hb hw hs hparts ht
    refine ⟨.slice none stop' step' span', ?_, ?_⟩
    · simp only [Expr.bare, Expr.bareOption_eq_map, hstop', hstep']
    · rw [hg .subscriptItem pos nofun]
      show (current >>= fun token => _) s pos = _
      rw [current_bind]
      refine (check_yes (List.mem_singleton.2 hcolon) _ _).trans ?_
      exact (advance_bind (by rw [hcolon]; nofun) _).trans hread
  | some e =>
    obtain ⟨e', he', hreadStart⟩ := ha pos c _ hat (by rw [hc]; decide)
    obtain ⟨stop', step', span', hstop', hstep', hread⟩ :=
      Form.Read.sliceRest hg (some e') (s.get pos).span.start hopensB hb hw hs hparts ht
    refine ⟨.slice (some e') stop' step' span', ?_, ?_⟩
    · simp only [Expr.bare, Expr.bareOption_eq_map, Option.map_some, he', hstop', hstep']
    · rw [hg .subscriptItem pos nofun]
      show (current >>= fun token => _) s pos = _
      rw [current_bind]
      refine (check_no (Level.Opens.not_mem hopensA hat rfl) _ _).trans ?_
      refine (bind_ok ((hg.expression_true pos).trans hreadStart) _).trans ?_
      refine (check_yes (List.mem_singleton.2 hcolon) _ _).trans ?_
      exact (advance_bind (by rw [hcolon]; nofun) _).trans hread

/-! ## Items without a slice -/

/-- An expression is read up to what stands behind an item. -/
theorem Form.Read.yields (hg : g.Solves find s statements) (h : (Form.at .cond e).Read g s ts) {t : Token}
    {rest : List Token} (hat : s.At pos (ts ++ t :: rest)) (ht : t.kind.closesItem = true) :
    g.Yields s .cond pos (pos + ts.length) e := h.closed hg hat (TokenKind.looseness_of_closesItem ht)

theorem Form.Read.expr (hg : g.Solves find s statements) (h : (Form.at .cond e).Read g s ts) :
    (Form.item (.expr e)).Read g s ts := fun _ _ _ hat ht => h.yields hg hat ht

theorem Form.Read.pair (hg : g.Solves find s statements) {key value : Expr} {c : Token}
    (hc : c.kind = .symbol .colon) (hk : (Form.at .cond key).Read g s ts)
    (hv : (Form.at .cond value).Read g s us) :
    (Form.item (.pair (.mk key value span))).Read g s (ts ++ c :: us) := by
  intro pos t rest hat ht
  have hstop : pos + (ts ++ c :: us).length = pos + ts.length + 1 + us.length := by
    simp only [List.length_append, List.length_cons]; omega
  simp only [List.append_assoc, List.cons_append] at hat
  rw [hstop]
  refine ⟨pos + ts.length, hk.closed hg hat (by rw [hc]; decide), hat.append.kind.trans hc, ?_⟩
  exact hv.yields hg hat.append.next ht

theorem Form.Read.index (hg : g.Solves find s statements) (hopens : Level.cond.Opens ts)
    (h : (Form.at .cond e).Read g s ts) : (Form.item (.subscript e)).Read g s ts := by
  intro pos t rest hat ht
  obtain ⟨e', he', hread⟩ := h.yields hg hat ht.closesItem
  have hcolon : (s.get (pos + ts.length)).kind ∉ [TokenKind.symbol .colon] := by
    intro hmem
    rw [hat.append.kind, List.mem_singleton] at hmem
    rw [hmem] at ht
    exact absurd ht (by show ¬ TokenKind.symbol .colon ∈ _; decide)
  refine ⟨e', he', ?_⟩
  rw [hg .subscriptItem pos nofun]
  show (current >>= fun token => _) s pos = _
  rw [current_bind]
  refine (check_no (hopens.not_mem hat rfl) _ _).trans ?_
  refine (bind_ok ((hg.expression_true pos).trans hread) _).trans ?_
  exact check_no hcolon _ _

/-! ## Arguments -/

theorem Grammar.ensureOrder_bind {α : Type} {opened : Location} {valid : Bool} (h : valid = true)
    (f : Unit → Parser α) : (ensureOrder opened valid >>= f) s pos = f () s pos := by
  rw [ensureOrder, if_pos h]
  rfl

/-- A positional argument does not begin with the key of an argument. -/
theorem Level.Opens.no_key {l : Level} (h : l.Opens ts) {t : Token} {rest : List Token}
    (hat : s.At pos (ts ++ t :: rest)) (ht : t.kind ≠ .symbol .assign) :
    ¬((s.get pos).kind = .name ∧ (s.ahead pos 1).kind = .symbol .assign) := by
  obtain ⟨u, us, rfl, -, -, hkey⟩ := h
  rintro ⟨hname, hassign⟩
  rw [Stream.ahead_one] at hassign
  cases us with
  | nil => exact ht (hat.next.kind.symm.trans hassign)
  | cons v vs => exact hkey (hat.kind.symm.trans hname) v rfl (hat.next.kind.symm.trans hassign)

theorem Form.Read.positional (hg : g.Solves find s statements) (hopens : Level.cond.Opens ts)
    (h : (Form.at .cond e).Read g s ts) : (Form.item (.argument (.positional e))).Read g s ts := by
  intro pos t rest hat ht opened acc hallows
  obtain ⟨positional, keywords, spread, keywordSpread⟩ := acc
  obtain ⟨rfl, rfl, rfl⟩ := hallows
  obtain ⟨e', he', hread⟩ := h.yields hg hat ht
  have hkey := hopens.no_key hat (by rintro hk; rw [hk] at ht; cases ht)
  refine ⟨.mk (positional ++ [e']) [] none none, ?_, ?_⟩
  · simp only [Arguments.add, Arguments.bare_eq_iff, List.map_append, List.map_cons, he', List.map_nil, and_self]
  · unfold Grammar.argument
    refine (check_no (hopens.not_mem hat rfl) _ _).trans ?_
    refine (check_no (hopens.not_mem hat rfl) _ _).trans ?_
    refine (Grammar.ensureOrder_bind rfl _).trans ?_
    rw [current_bind, peek_bind, if_neg hkey]
    refine (Grammar.ensureOrder_bind rfl _).trans ?_
    exact bind_ok ((hg.expression_true pos).trans hread) _

theorem Form.Read.keyword (hg : g.Solves find s statements) {key : Text} {n a : Token} (hn : n.kind = .name)
    (hv : n.value = key) (ha : a.kind = .symbol .assign) (h : (Form.at .cond e).Read g s ts) :
    (Form.item (.argument (.keyword (.mk key e span)))).Read g s (n :: a :: ts) := by
  intro pos t rest hat ht opened acc hallows
  obtain ⟨positional, keywords, spread, keywordSpread⟩ := acc
  obtain ⟨rfl, rfl⟩ := hallows
  have hstop : pos + (n :: a :: ts).length = pos + 1 + 1 + ts.length := by
    simp only [List.length_cons]; omega
  have hname : (s.get pos).kind = .name := hat.kind.trans hn
  have hassign : (s.get (pos + 1)).kind = .symbol .assign := hat.next.kind.trans ha
  obtain ⟨e', he', hread⟩ := h.yields hg hat.next.next ht
  refine ⟨.mk positional (keywords ++ [.mk key e' ⟨(s.get pos).span.start, e'.span.finish⟩]) none none, ?_, ?_⟩
  · simp only [Arguments.add, Arguments.bare_eq_iff, List.map_append, List.map_cons, KeywordArg.bare, he',
      List.map_nil, and_self]
  · rw [hstop]
    unfold Grammar.argument
    refine (check_no (by rw [hname]; decide) _ _).trans ?_
    refine (check_no (by rw [hname]; decide) _ _).trans ?_
    refine (Grammar.ensureOrder_bind rfl _).trans ?_
    rw [current_bind, peek_bind, Stream.ahead_one, if_pos ⟨hname, hassign⟩,
      skip_two_bind (by rw [hname]; decide) (by rw [hassign]; decide),
      bind_ok ((hg.expression_true (pos + 2)).trans hread), hat.get, hv]
    rfl

theorem Form.Read.spread (hg : g.Solves find s statements) {star : Token} (hs : star.kind = .symbol .star)
    (h : (Form.at .cond e).Read g s ts) : (Form.item (.argument (.spread e))).Read g s (star :: ts) := by
  intro pos t rest hat ht opened acc hallows
  obtain ⟨positional, keywords, spread, keywordSpread⟩ := acc
  obtain ⟨rfl, rfl⟩ := hallows
  have hstop : pos + (star :: ts).length = pos + 1 + ts.length := by rw [List.length_cons]; omega
  have hstar : (s.get pos).kind = .symbol .star := hat.kind.trans hs
  obtain ⟨e', he', hread⟩ := h.yields hg hat.next ht
  refine ⟨.mk positional keywords (some e') none, ?_, ?_⟩
  · simp only [Arguments.add, Arguments.bare_eq_iff, Option.map_some, he', and_self]
  · rw [hstop]
    unfold Grammar.argument
    refine (check_yes (List.mem_singleton.2 hstar) _ _).trans ?_
    refine (Grammar.ensureOrder_bind rfl _).trans ?_
    refine (advance_bind (by rw [hstar]; decide) _).trans ?_
    exact bind_ok ((hg.expression_true (pos + 1)).trans hread) _

theorem Form.Read.keywordSpread (hg : g.Solves find s statements) {stars : Token}
    (hs : stars.kind = .symbol .doubleStar) (h : (Form.at .cond e).Read g s ts) :
    (Form.item (.argument (.keywordSpread e))).Read g s (stars :: ts) := by
  intro pos t rest hat ht opened acc hallows
  obtain ⟨positional, keywords, spread, keywordSpread⟩ := acc
  cases (show keywordSpread = none from hallows)
  have hstop : pos + (stars :: ts).length = pos + 1 + ts.length := by rw [List.length_cons]; omega
  have hstars : (s.get pos).kind = .symbol .doubleStar := hat.kind.trans hs
  obtain ⟨e', he', hread⟩ := h.yields hg hat.next ht
  refine ⟨.mk positional keywords spread (some e'), ?_, ?_⟩
  · simp only [Arguments.add, Arguments.bare_eq_iff, Option.map_some, he', and_self]
  · rw [hstop]
    unfold Grammar.argument
    refine (check_no (by rw [hstars]; decide) _ _).trans ?_
    refine (check_yes (List.mem_singleton.2 hstars) _ _).trans ?_
    refine (Grammar.ensureOrder_bind rfl _).trans ?_
    refine (advance_bind (by rw [hstars]; decide) _).trans ?_
    exact bind_ok ((hg.expression_true (pos + 1)).trans hread) _

/-! ## Lists of items -/

theorem Form.Read.noItem : (Form.items []).Read g s [] := fun _ _ _ _ _ => rfl

/-- The first token of what writes an item. -/
theorem Form.Opens.get_item {x : Item} (h : (Form.item x).Opens ts) (hat : s.At pos (ts ++ us)) :
    (s.get pos).kind.opensItem = true := by
  obtain ⟨t, vs, rfl, ht⟩ := h
  rw [hat.kind]
  exact ht

theorem Form.Read.lastItem {x : Item} (hopens : (Form.item x).Opens ts) (h : (Form.item x).Read g s ts) :
    (Form.items [x]).Read g s ts :=
  fun pos t rest hat ht => ⟨hopens.get_item hat, h pos t rest hat (ht x (.head _))⟩

theorem Form.Read.moreItems {x y : Item} {xs : List Item} {m : Token} (hm : m.kind = .symbol .comma)
    (hopens : (Form.item x).Opens ts) (hx : (Form.item x).Read g s ts)
    (h : (Form.items (y :: xs)).Read g s us) : (Form.items (x :: y :: xs)).Read g s (ts ++ m :: us) := by
  intro pos t rest hat ht
  have hstop : pos + (ts ++ m :: us).length = pos + ts.length + 1 + us.length := by
    simp only [List.length_append, List.length_cons]; omega
  simp only [List.append_assoc, List.cons_append] at hat
  have hrest := h _ t rest hat.append.next fun z hz => ht z (.tail _ hz)
  rw [hstop]
  refine ⟨hopens.get_item hat, pos + ts.length, ?_, hat.append.kind.trans hm, hrest⟩
  exact hx pos m _ hat (by rw [hm]; exact x.endsBefore_comma)

end Stencil
