/-
What follows a primary expression, read from the tokens that write it: subscripts with their slices,
calls with their arguments, filters and tests.
-/
import Stencil.Proofs.Writing.Primary

namespace Stencil

open Stencil.Parser

variable {g : Grammar} {find : Text → Option Extension} {s : Stream} {statements : Prop}
variable {ts us vs : List Token} {e : Expr} {pos stop : Nat} {span : Span}

namespace Parser

variable {α β γ : Type}

theorem bind_congr {x y : Parser α} {q : Nat} (h : x s pos = y s q) (f : α → Parser β) :
    (x >>= f) s pos = (y >>= f) s q := by
  show Parser.bind x f s pos = Parser.bind y f s q
  unfold Parser.bind
  rw [h]

theorem bind_assoc (x : Parser α) (f : α → Parser β) (h : β → Parser γ) :
    (x >>= f >>= h) s pos = (x >>= fun a => f a >>= h) s pos := by
  show Parser.bind (Parser.bind x f) h s pos = Parser.bind x (fun a => Parser.bind (f a) h) s pos
  unfold Parser.bind
  cases x s pos <;> rfl

end Parser

/-! ## Subscripts -/

/-- The index that subscripts between brackets make: one is the index itself, several are a tuple. -/
def Expr.IsIndexOf (i : Expr) (is : List Expr) : Prop :=
  is = [i] ∨ 2 ≤ is.length ∧ ∃ u, i = .tuple is .load u

theorem Items.Read.bracketIndex (hg : g.Solves find s statements) (opened : Token) {is : List Expr}
    {i : Expr} (hi : i.IsIndexOf is) (h : Items.Read g s (is.map .subscript) pos stop)
    (hstop : (s.get stop).kind = .symbol .closeBracket) :
    ∃ i', i'.bare = i.bare ∧ Grammar.bracketIndex g opened s pos = .ok i' (stop + 1) := by
  obtain ⟨is', his', hread⟩ := h.subscriptItems hg hstop
  unfold Grammar.bracketIndex
  rw [bind_ok hread, previousEnd_bind]
  rcases hi with rfl | ⟨hlen, u, rfl⟩
  · obtain ⟨i', rfl, hi'⟩ := List.map_eq_singleton_iff.1 his'
    exact ⟨i', hi', expect_bind hstop nofun _⟩
  · have hbare (u' : Span) : (Expr.tuple is' .load u').bare = (Expr.tuple is .load u).bare := by
      simp only [Expr.bare, Expr.bares_eq_map, his']
    have hlen' : 2 ≤ is'.length := by
      have := congrArg List.length his'
      rw [List.length_map, List.length_map] at this
      omega
    match is', hlen' with
    | a :: b :: cs, _ => exact ⟨_, hbare ⟨a.span.start, s.endBefore stop⟩, expect_bind hstop nofun _⟩

/-- An object with an index between brackets behind it. -/
theorem Grammar.Solves.suffixes_bracket (hg : g.Solves find s statements) {i : Expr}
    (hopen : (s.get pos).kind = .symbol .openBracket)
    (hindex : Grammar.bracketIndex g (s.get pos) s (pos + 1) = .ok i stop) :
    g (.suffixes e) s pos =
      g (.suffixes (.subscript e i .load ⟨e.span.start, s.endBefore stop⟩)) s stop := by
  have hsubscript : g (.subscript e) s pos =
      .ok (.subscript e i .load ⟨e.span.start, s.endBefore stop⟩) stop := by
    rw [hg (.subscript e) pos nofun]
    refine (advance_bind (by rw [hopen]; nofun) _).trans ?_
    simp only [hopen]
    exact bind_ok hindex _
  rw [hg (.suffixes e) pos nofun]
  show (current >>= fun t => _) s pos = _
  rw [current_bind]
  simp only [hopen]
  exact bind_ok hsubscript _

theorem Form.Read.subscriptList (hg : g.Solves find s statements) {is : List Expr} {i : Expr} {o c : Token}
    (ho : o.kind = .symbol .openBracket) (hc : c.kind = .symbol .closeBracket)
    (hi : i.IsIndexOf is) (h : (Form.at .primary e).Read g s ts)
    (hitems : (Form.items (is.map .subscript)).Read g s us) :
    (Form.at .primary (.subscript e i .load span)).Read g s (ts ++ o :: us ++ [c]) := by
  intro pos t rest hat _
  have hstop : pos + (ts ++ o :: us ++ [c]).length = pos + ts.length + 1 + us.length + 1 := by
    simp only [List.length_append, List.length_cons, List.length_nil]; omega
  simp only [List.append_assoc, List.cons_append, List.nil_append] at hat
  have hopen : (s.get (pos + ts.length)).kind = .symbol .openBracket := hat.append.kind.trans ho
  have hinner := hat.append.next
  have hclose : (s.get (pos + ts.length + 1 + us.length)).kind = .symbol .closeBracket :=
    hinner.append.kind.trans hc
  have hends : ∀ x ∈ is.map Item.subscript, x.EndsBefore c.kind := by
    intro x hx
    obtain ⟨e, -, rfl⟩ := List.mem_map.1 hx
    rw [hc]
    exact .head _
  obtain ⟨e', he', hread⟩ := h pos o _ hat trivial
  obtain ⟨i', hi', hindex⟩ := (hitems _ c _ hinner hends).bracketIndex hg
    (s.get (pos + ts.length)) hi hclose
  refine ⟨.subscript e' i' .load ⟨e'.span.start, s.endBefore (pos + ts.length + 1 + us.length + 1)⟩, ?_, ?_⟩
  · simp only [Expr.bare, he', hi']
  · rw [hstop]
    exact hread.trans (hg.suffixes_bracket hopen hindex)

/-! ## Arguments and calls -/

theorem Form.Read.arguments (hg : g.Solves find s statements) {args : Arguments} {o c : Token}
    (ho : o.kind = .symbol .openParen) (hc : c.kind = .symbol .closeParen)
    (h : (Form.items (args.toList.map .argument)).Read g s ts) :
    (Form.arguments args).Read g s (o :: ts ++ [c]) := by
  intro pos rest hat
  obtain ⟨hopen, hinner, hclose, -, hstop⟩ := hat.between
  have hends : ∀ x ∈ args.toList.map Item.argument, x.EndsBefore c.kind := by
    intro x hx
    obtain ⟨a, -, rfl⟩ := List.mem_map.1 hx
    rw [hc]
    rfl
  obtain ⟨args', hargs, hread⟩ :=
    (h (pos + 1) c _ hinner hends).arguments hg (hopen.trans ho) (hclose.trans hc)
  exact ⟨args', hargs, by rw [hstop]; exact hread⟩

theorem Form.Opens.get_arguments {args : Arguments} (h : (Form.arguments args).Opens ts)
    (hat : s.At pos (ts ++ us)) : (s.get pos).kind = .symbol .openParen := by
  obtain ⟨t, vs, rfl, ht⟩ := h
  rw [hat.kind, ht]

theorem Form.Read.call (hg : g.Solves find s statements) {args : Arguments}
    (hopens : (Form.arguments args).Opens us) (h : (Form.at .primary e).Read g s ts)
    (ha : (Form.arguments args).Read g s us) :
    (Form.at .primary (.call e args span)).Read g s (ts ++ us) := by
  intro pos t rest hat _
  rw [List.append_assoc] at hat
  have hopen := hopens.get_arguments hat.append
  obtain ⟨args', hargs, hreadArgs⟩ := ha _ _ hat.append
  have hnext : ∃ u vs, us ++ t :: rest = u :: vs := by
    obtain ⟨u, vs, rfl, -⟩ := hopens
    exact ⟨u, vs ++ t :: rest, rfl⟩
  obtain ⟨u, vs, hu⟩ := hnext
  rw [hu] at hat
  obtain ⟨e', he', hread⟩ := h pos u vs hat trivial
  refine ⟨.call e' args' ⟨e'.span.start, s.endBefore (pos + ts.length + us.length)⟩, ?_, ?_⟩
  · simp only [Expr.bare, he', hargs]
  · have hcall : g (.call e') s (pos + ts.length) =
        .ok (.call e' args' ⟨e'.span.start, s.endBefore (pos + ts.length + us.length)⟩)
          (pos + ts.length + us.length) := by
      rw [hg (.call e') _ (by rintro ⟨⟩)]
      exact bind_ok hreadArgs _
    rw [List.length_append, ← Nat.add_assoc]
    refine hread.trans ?_
    rw [Level.tail, hg (.suffixes e') _ (by rintro ⟨⟩)]
    show (current >>= fun t => _) s _ = _
    rw [current_bind]
    simp only [hopen]
    exact bind_ok hcall _

/-! ## Filters -/

/-- A filter with its name and arguments. -/
theorem Grammar.Solves.singleFilter_eq_ok (hg : g.Solves find s statements) (input : Option Expr)
    {args : Arguments} (hname : (s.get pos).kind = .name) (hopen : (s.get (pos + 1)).kind = .symbol .openParen)
    (hargs : g .arguments s (pos + 1) = .ok args stop) :
    ∃ u, g (.singleFilter input) s pos = .ok (.filter input (s.get pos).value args u) stop := by
  refine ⟨⟨input.elim (s.get pos).span.start (·.span.start), s.endBefore stop⟩, ?_⟩
  rw [hg (.singleFilter input) pos (by rintro ⟨⟩)]
  refine (expect_bind hname (by decide) _).trans ?_
  have hoptional : Grammar.optionalArguments g s (pos + 1) = .ok args stop :=
    (check_yes (List.mem_singleton.2 hopen) _ _).trans hargs
  cases input <;> exact bind_ok hoptional _

/-- The filter behind a bar, and what follows it. -/
theorem Grammar.Solves.suffixes_bar (hg : g.Solves find s statements) (hk : (s.get pos).kind = .symbol .pipe) :
    g (.suffixes e) s pos = (g (.singleFilter (some e)) >>= fun f => g (.filterRest f) >>= fun f =>
      g (.suffixes f)) s (pos + 1) := by
  have hfilter : g (.filter e) s pos =
      (g (.singleFilter (some e)) >>= fun f => g (.filterRest f)) s (pos + 1) := by
    rw [hg (.filter e) pos nofun]
    refine (check_yes (List.mem_singleton.2 hk) _ _).trans ?_
    refine (advance_bind (by rw [hk]; nofun) _).trans ?_
    exact hg (.filterChain (some e)) (pos + 1) nofun
  rw [← bind_assoc, hg (.suffixes e) pos nofun]
  show (current >>= fun t => _) s pos = _
  rw [current_bind]
  simp only [hk]
  exact bind_congr hfilter _

/-- Behind a filter it makes no difference whether the loop over filters goes on or that over
suffixes. -/
theorem Grammar.Solves.filterRest_suffixes (hg : g.Solves find s statements) :
    (g (.filterRest e) >>= fun f => g (.suffixes f)) s pos = g (.suffixes e) s pos := by
  by_cases hk : (s.get pos).kind = .symbol .pipe
  · have hrest : g (.filterRest e) s pos =
        (g (.singleFilter (some e)) >>= fun f => g (.filterRest f)) s (pos + 1) := by
      rw [hg (.filterRest e) pos nofun]
      refine (check_yes (List.mem_singleton.2 hk) _ _).trans ?_
      exact advance_bind (by rw [hk]; nofun) _
    rw [hg.suffixes_bar hk, ← bind_assoc]
    exact bind_congr hrest _
  · have hrest : g (.filterRest e) s pos = .ok e pos := by
      rw [hg (.filterRest e) pos nofun]
      exact check_no (fun h => hk (List.mem_singleton.1 h)) _ _
    exact bind_ok hrest _

theorem Form.Read.filter (hg : g.Solves find s statements) {name : Text} {args : Arguments} {p n : Token}
    (hp : p.kind = .symbol .pipe) (hn : n.kind = .name) (hv : n.value = name)
    (hopens : (Form.arguments args).Opens us) (h : (Form.at .primary e).Read g s ts)
    (ha : (Form.arguments args).Read g s us) :
    (Form.at .primary (.filter (some e) name args span)).Read g s (ts ++ p :: n :: us) := by
  intro pos t rest hat _
  have hstop : pos + (ts ++ p :: n :: us).length = pos + ts.length + 1 + 1 + us.length := by
    simp only [List.length_append, List.length_cons]; omega
  simp only [List.append_assoc, List.cons_append] at hat
  have hbar : (s.get (pos + ts.length)).kind = .symbol .pipe := hat.append.kind.trans hp
  have hname := hat.append.next
  obtain ⟨e', he', hread⟩ := h pos p _ hat trivial
  obtain ⟨args', hargs, hreadArgs⟩ := ha _ _ hname.next
  obtain ⟨u, hfilter⟩ := hg.singleFilter_eq_ok (some e') (hname.kind.trans hn)
    (hopens.get_arguments hname.next) hreadArgs
  rw [hname.get, hv] at hfilter
  refine ⟨.filter (some e') name args' u, by simp only [Expr.bare, Expr.bareOption, he', hargs], ?_⟩
  rw [hstop]
  refine hread.trans ?_
  rw [Level.tail, hg.suffixes_bar hbar, bind_ok hfilter]
  exact hg.filterRest_suffixes

/-! ## Tests -/

theorem Form.Read.test (hg : g.Solves find s statements) {name : Text} {args : Arguments} {i n : Token}
    (hi : i.kind = .keyword .isOp) (hn : n.kind = .name) (hv : n.value = name)
    (hopens : (Form.arguments args).Opens us) (h : (Form.at .primary e).Read g s ts)
    (ha : (Form.arguments args).Read g s us) :
    (Form.at .primary (.test e name args span)).Read g s (ts ++ i :: n :: us) := by
  intro pos t rest hat _
  have hstop : pos + (ts ++ i :: n :: us).length = pos + ts.length + 1 + 1 + us.length := by
    simp only [List.length_append, List.length_cons]; omega
  simp only [List.append_assoc, List.cons_append] at hat
  have his : (s.get (pos + ts.length)).kind = .keyword .isOp := hat.append.kind.trans hi
  have hname := hat.append.next
  have hopen := hopens.get_arguments hname.next
  obtain ⟨e', he', hread⟩ := h pos i _ hat trivial
  obtain ⟨args', hargs, hreadArgs⟩ := ha _ _ hname.next
  have htest : g (.test e') s (pos + ts.length) = .ok
      (.test e' name args' ⟨e'.span.start, s.endBefore (pos + ts.length + 1 + 1 + us.length)⟩)
      (pos + ts.length + 1 + 1 + us.length) := by
    have hnot : (s.get (pos + ts.length + 1)).kind ∉ [TokenKind.keyword .notOp] := by
      rw [hname.kind, hn]
      decide
    rw [hg (.test e') _ (by rintro ⟨⟩)]
    show Grammar.test g e' s _ = _
    unfold Grammar.test
    refine (expect_bind his (by decide) _).trans ?_
    show (check [.keyword .notOp] >>= _) s _ = _
    rw [check_bind]
    simp only [List.contains_iff_mem, hnot, if_false]
    refine (expect_bind (hname.kind.trans hn) (by decide) _).trans ?_
    have hargument : Grammar.testArguments g s (pos + ts.length + 1 + 1) =
        .ok args' (pos + ts.length + 1 + 1 + us.length) :=
      (check_yes (List.mem_singleton.2 hopen) _ _).trans hreadArgs
    rw [bind_ok hargument, hname.get, hv]
    rfl
  refine ⟨.test e' name args' ⟨e'.span.start, s.endBefore (pos + ts.length + 1 + 1 + us.length)⟩,
    by simp only [Expr.bare, he', hargs], ?_⟩
  rw [hstop]
  refine hread.trans ?_
  rw [Level.tail, hg (.suffixes e') _ (by rintro ⟨⟩)]
  show (current >>= fun t => _) s _ = _
  rw [current_bind]
  simp only [his]
  exact bind_ok htest _

end Stencil
