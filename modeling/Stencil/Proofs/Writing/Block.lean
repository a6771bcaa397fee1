/-
Statements with bodies, read from the tokens that write them, and all statements put together by induction
on what is written.
-/
import Stencil.Proofs.Writing.Body

namespace Stencil

open Stencil.Parser Grammar

variable {find : Text → Option Extension} {s : Stream} {ts us vs ws zs : List Token} {t : Token}
variable {rest : List Token} {pos stop : Nat} {span : Span}

/-- A body begins behind the end of a tag. -/
theorem Spelled.inside_head {xs : List Stmt} (h : Spelled (.inside xs) ts) (rest : List Token) :
    ∃ e us, ts ++ rest = e :: us ∧ e.kind = .blockEnd := by
  cases h with
  | inside he hb h => exact ⟨_, _, rfl, he⟩

/-- Behind a body stands the word that ends the statement, or `else`. -/
theorem Spelled.otherwise_head {k : Keyword} {xs : List Stmt} (h : Spelled (.otherwise k xs) ts)
    (rest : List Token) : ∃ w us, ts ++ rest = w :: us ∧ w.kind ∈ [TokenKind.keyword k, .keyword .elseTag] := by
  cases h with
  | noElse hw => exact ⟨_, _, rfl, by rw [hw]; exact .head _⟩
  | orElse hys he hw h => exact ⟨_, _, rfl, by rw [he]; exact .tail _ (.head _)⟩

/-- Behind the iterable stands `if` or the end of the tag. -/
theorem Expr.SpelledTest.head {o : Option Expr} (h : Expr.SpelledTest o ts) (ht : t.kind = .blockEnd)
    (rest : List Token) : ∃ u us, ts ++ t :: rest = u :: us ∧ 13 < u.kind.looseness ∧ u.kind ≠ .symbol .comma := by
  cases h with
  | absent => exact ⟨t, rest, rfl, by rw [ht]; decide, by rw [ht]; nofun⟩
  | present hi h => exact ⟨_, _, rfl, by rw [hi]; decide, by rw [hi]; nofun⟩

/-! ## Blocks -/

theorem Passage.Read.block {name : Text} {xs : List Stmt} {n w : Token} (ht : t.kind = .keyword .blockTag)
    (hn : n.kind = .name) (hv : n.value = name) (hw : w.kind = .keyword .endBlock)
    (h : (Passage.inside xs).Read find s ts) :
    (Passage.stmt (.block name xs span)).Read find s (t :: n :: ts ++ [w]) := by
  intro pos b rest hat _
  have hstop : pos + (t :: n :: ts ++ [w]).length = pos + 1 + 1 + ts.length + 1 := by
    simp only [List.length_append, List.length_cons, List.length_nil]; omega
  simp only [List.append_assoc, List.cons_append, List.nil_append] at hat
  have hword : (s.get pos).kind = .keyword .blockTag := hat.kind.trans ht
  obtain ⟨xs', hxs', hbody⟩ := h.closed (by decide) hw hat.next.next
  refine ⟨.block name xs' ⟨(s.get pos).span.start, s.endBefore (pos + 1 + 1 + ts.length + 1)⟩, ?_, ?_⟩
  · simp only [Stmt.bare, Stmt.bares_eq_map, hxs']
  · have hpos := hat.lt (by simp)
    rw [hstop]
    refine .statement hpos hword rfl (.of_step hpos fun g hg => ?_)
    refine (expect_bind hword (by decide) _).trans ?_
    refine (expect_bind (hat.next.kind.trans hn) (by decide) _).trans ?_
    rw [bind_ok (hg hbody (.inl (by omega))), hat.next.get, hv]
    rfl

section

variable (hlast : s.last.kind = .eof)
include hlast

theorem Passage.Read.define {name : Text} {sig : Signature} {xs : List Stmt} {n w : Token}
    (ht : t.kind = .keyword .macroTag) (hn : n.kind = .name) (hv : n.value = name)
    (hb : canBind name = true) (hw : w.kind = .keyword .endMacro) (hs : sig.Spelled ts)
    (h : (Passage.inside xs).Read find s us) :
    (Passage.stmt (.define name sig xs span)).Read find s (t :: n :: ts ++ us ++ [w]) := by
  intro pos b rest hat _
  have hstop : pos + (t :: n :: ts ++ us ++ [w]).length = pos + 1 + 1 + ts.length + us.length + 1 := by
    simp only [List.length_append, List.length_cons, List.length_nil]; omega
  simp only [List.append_assoc, List.cons_append, List.nil_append] at hat
  have hword : (s.get pos).kind = .keyword .macroTag := hat.kind.trans ht
  have hname := hat.next
  obtain ⟨-, sig', hsig, hreadSig⟩ := hs.read (@ofExtensions_solves find s hlast) hname.next
  obtain ⟨xs', hxs', hbody⟩ := h.closed (by decide) hw hname.next.append
  refine ⟨.define name sig' xs'
    ⟨(s.get pos).span.start, s.endBefore (pos + 1 + 1 + ts.length + us.length + 1)⟩, ?_, ?_⟩
  · simp only [Stmt.bare, Stmt.bares_eq_map, hxs', hsig]
  · have hpos := hat.lt (by simp)
    rw [hstop]
    refine .statement hpos hword rfl (.of_step hpos fun g hg => ?_)
    refine (expect_bind hword (by decide) _).trans ?_
    refine (bindable_bind (hname.kind.trans hn) (by rw [hname.get, hv]; exact hb) _).trans ?_
    rw [bind_ok (hg (.of_grammar hlast rfl hreadSig) (.inl (by omega))),
      bind_ok (hg hbody (.inl (by omega))), hname.get, hv]
    rfl

theorem Passage.Read.callBlock {sig : Signature} {callee : Expr} {args : Arguments} {xs : List Stmt}
    {w : Token} {span' : Span} (ht : t.kind = .keyword .callTag) (hw : w.kind = .keyword .endCall)
    (hs : sig.Spelled ts) (hc : Enclosed (.call callee args span') us) (hi : Spelled (.inside xs) vs)
    (h : (Passage.inside xs).Read find s vs) :
    (Passage.stmt (.callBlock sig (.call callee args span') xs span)).Read find s
      (t :: ts ++ us ++ vs ++ [w]) := by
  intro pos b rest hat _
  have hstop : pos + (t :: ts ++ us ++ vs ++ [w]).length =
      pos + 1 + ts.length + us.length + vs.length + 1 := by
    simp only [List.length_append, List.length_cons, List.length_nil]; omega
  simp only [List.append_assoc, List.cons_append, List.nil_append] at hat
  have hg := @ofExtensions_solves find s hlast
  have hword : (s.get pos).kind = .keyword .callTag := hat.kind.trans ht
  obtain ⟨hopen, sig', hsig, hreadSig⟩ := hs.read hg hat.next
  have hcall := hat.next.append
  obtain ⟨xs', hxs', hbody⟩ := h.closed (by decide) hw hcall.append
  obtain ⟨e, ws, hhead, he⟩ := hi.inside_head (w :: b :: rest)
  rw [hhead] at hcall
  obtain ⟨e', he', hreadCall⟩ := hc.expression hg hcall (by rw [he]; decide)
  obtain ⟨callee', args', span'', rfl⟩ : ∃ callee' args' span'', e' = .call callee' args' span'' := by
    cases e' <;> simp only [Expr.bare, reduceCtorEq] at he'
    exact ⟨_, _, _, rfl⟩
  refine ⟨.callBlock sig' (.call callee' args' span'') xs'
    ⟨(s.get pos).span.start, s.endBefore (pos + 1 + ts.length + us.length + vs.length + 1)⟩, ?_, ?_⟩
  · simp only [Stmt.bare, Stmt.bares_eq_map, hxs', hsig, he']
  · have hpos := hat.lt (by simp)
    rw [hstop]
    refine .statement hpos hword rfl (.of_step hpos fun g hg => ?_)
    have hsignature : Grammar.optionalSignature g s (pos + 1) = .ok sig' (pos + 1 + ts.length) :=
      (check_yes (List.mem_singleton.2 hopen) _ _).trans (hg (.of_grammar hlast rfl hreadSig) (.inl (by omega)))
    refine (expect_bind hword (by decide) _).trans ?_
    refine (bind_ok hsignature _).trans ?_
    refine (bind_ok (hg (.of_grammar hlast rfl hreadCall) (.inl (by omega))) _).trans ?_
    refine (bind_ok (a := ()) rfl _).trans ?_
    rw [bind_ok (hg hbody (.inl (by omega)))]
    rfl

theorem Passage.Read.filterBlock {f : Expr} {xs : List Stmt} {w : Token} (ht : t.kind = .keyword .filterTag)
    (hw : w.kind = .keyword .endFilter) (hf : f.SpelledFilters ts) (hi : Spelled (.inside xs) us)
    (h : (Passage.inside xs).Read find s us) :
    (Passage.stmt (.filterBlock f xs span)).Read find s (t :: ts ++ us ++ [w]) := by
  intro pos b rest hat _
  have hstop : pos + (t :: ts ++ us ++ [w]).length = pos + 1 + ts.length + us.length + 1 := by
    simp only [List.length_append, List.length_cons, List.length_nil]; omega
  simp only [List.append_assoc, List.cons_append, List.nil_append] at hat
  have hg := @ofExtensions_solves find s hlast
  have hword : (s.get pos).kind = .keyword .filterTag := hat.kind.trans ht
  obtain ⟨f', hf', hchain⟩ := hf.read hg hat.next
  obtain ⟨xs', hxs', hbody⟩ := h.closed (by decide) hw hat.next.append
  have hread : ofExtensions find (.filterChain none) s (pos + 1) = .ok f' (pos + 1 + ts.length) := by
    obtain ⟨e, ws, hhead, he⟩ := hi.inside_head (w :: b :: rest)
    rw [hchain]
    refine hg.filterRest_eq_ok ?_
    rw [Stream.At.kind (hhead ▸ hat.next.append), he]
    decide
  refine ⟨.filterBlock f' xs' ⟨(s.get pos).span.start, s.endBefore (pos + 1 + ts.length + us.length + 1)⟩, ?_, ?_⟩
  · simp only [Stmt.bare, Stmt.bares_eq_map, hxs', hf']
  · have hpos := hat.lt (by simp)
    rw [hstop]
    refine .statement hpos hword rfl (.of_step hpos fun g hg => ?_)
    refine (expect_bind hword (by decide) _).trans ?_
    rw [bind_ok (hg (.of_grammar hlast rfl hread) (.inl (by omega))), bind_ok (hg hbody (.inl (by omega)))]
    rfl

/-! ## Conditionals -/

/-- The branches behind the first one, from the word that ends its body on. -/
theorem Passage.Read.branches {xs : List Stmt} (h : (Passage.otherwise .endIf xs).Read find s ts)
    (hat : s.At pos (ts ++ rest)) :
    ∃ xs', xs'.map Stmt.bare = xs.map Stmt.bare ∧ (s.get pos).kind ∈ branchEnds ∧
      Gives find s .branches pos ⟨[], xs'⟩ (pos + ts.length) := by
  obtain ⟨xs', hxs', hread⟩ := h pos _ (by decide) hat
  rcases hread with ⟨hend, rfl, hlen⟩ | ⟨helse, hbody⟩
  · have hpos : pos < s.tokens.size - 1 := Stream.lt_last hlast (by rw [hend]; nofun)
    refine ⟨[], hxs', by rw [hend]; decide, .of_step hpos fun g hg => ?_⟩
    refine (advance_bind (by rw [hend]; nofun) _).trans ?_
    rw [hend, hlen]
    rfl
  · have hpos : pos < s.tokens.size - 1 := Stream.lt_last hlast (by rw [helse]; nofun)
    refine ⟨xs', hxs', by rw [helse]; decide, .of_step hpos fun g hg => ?_⟩
    refine (advance_bind (by rw [helse]; nofun) _).trans ?_
    rw [helse]
    exact bind_ok (hg hbody (.inl (by omega))) _

theorem Passage.Read.branch {test : Expr} {xs ys : List Stmt} (ht : t.kind = .keyword .ifTag)
    (hc : Enclosed test ts) (hi : Spelled (.inside xs) us) (ho : Spelled (.otherwise .endIf ys) vs)
    (h : (Passage.inside xs).Read find s us) (hy : (Passage.otherwise .endIf ys).Read find s vs) :
    (Passage.stmt (.branch test xs ys span)).Read find s (t :: ts ++ us ++ vs) := by
  intro pos b rest hat _
  have hstop : pos + (t :: ts ++ us ++ vs).length = pos + 1 + ts.length + us.length + vs.length := by
    simp only [List.length_append, List.length_cons]; omega
  simp only [List.append_assoc, List.cons_append] at hat
  have hword : (s.get pos).kind = .keyword .ifTag := hat.kind.trans ht
  have htest := hat.next
  have hbody := htest.append
  have hother := hbody.append
  -- behind the condition the tag ends, behind the body another one begins
  obtain ⟨e, as, hhead, he⟩ := hi.inside_head (vs ++ b :: rest)
  rw [hhead] at htest
  obtain ⟨test', htest', hreadTest⟩ := hc.tuple (@ofExtensions_solves find s hlast) (.expression true) htest
    (by rw [he]; decide) (by rw [he]; decide)
  obtain ⟨ys', hys', hends, hreadOther⟩ := hy.branches hlast hother
  obtain ⟨w, bs, hother', -⟩ := ho.otherwise_head (b :: rest)
  rw [hother'] at hbody hother
  rw [hother.kind] at hends
  obtain ⟨xs', hxs', hreadBody, -⟩ := h branchEnds _ w bs (by decide) hends hbody
  refine ⟨.branch test' xs' ys' ⟨(s.get pos).span.start,
    s.endBefore (pos + 1 + ts.length + us.length + vs.length)⟩, ?_, ?_⟩
  · simp only [Stmt.bare, Stmt.bares_eq_map, htest', hxs', hys']
  · have hpos := hat.lt (by rw [hhead]; simp)
    rw [hstop]
    refine .statement hpos hword rfl (.of_step hpos fun g hg => ?_)
    have hfirst : Grammar.branch g (s.get pos).span.start s (pos + 1) =
        .ok ⟨(s.get pos).span.start, test', xs'⟩ (pos + 1 + ts.length + us.length) := by
      unfold Grammar.branch
      rw [bind_ok (hg (.of_grammar hlast rfl hreadTest) (.inl (by omega))),
        bind_ok (hg hreadBody (.inl (by omega)))]
      rfl
    refine (expect_bind hword (by decide) _).trans ?_
    refine (bind_ok hfirst _).trans ?_
    rw [bind_ok (hg hreadOther (.inl (by omega)))]
    rfl

/-! ## Loops -/

theorem Passage.Read.loop {e target iter : Expr} {test : Option Expr} {xs ys : List Stmt} {i : Token}
    (ht : t.kind = .keyword .forTag) (hi : i.kind = .keyword .inOp) (hstore : e.toTarget .store = some target)
    (he : Enclosed e ts) (hu : Enclosed iter us) (hc : Expr.SpelledTest test vs) (hx : Spelled (.inside xs) ws)
    (ho : Spelled (.otherwise .endFor ys) zs) (h : (Passage.inside xs).Read find s ws)
    (hy : (Passage.otherwise .endFor ys).Read find s zs) :
    (Passage.stmt (.loop target iter xs ys test span)).Read find s
      (t :: ts ++ i :: us ++ vs ++ ws ++ zs) := by
  intro pos b rest hat _
  have hstop : pos + (t :: ts ++ i :: us ++ vs ++ ws ++ zs).length =
      pos + 1 + ts.length + 1 + us.length + vs.length + ws.length + zs.length := by
    simp only [List.length_append, List.length_cons]; omega
  simp only [List.append_assoc, List.cons_append] at hat
  have hg := @ofExtensions_solves find s hlast
  have hword : (s.get pos).kind = .keyword .forTag := hat.kind.trans ht
  have htarget := hat.next
  have hin : (s.get (pos + 1 + ts.length)).kind = .keyword .inOp := htarget.append.kind.trans hi
  have hiter := htarget.append.next
  have htest := hiter.append
  have hbody := htest.append
  have hother := hbody.append
  -- behind the iterable stands its filter or the tag ends, behind the body another tag begins
  obtain ⟨u, as, hhead, hu'⟩ := hx.inside_head (zs ++ b :: rest)
  rw [hhead] at htest hiter
  obtain ⟨v, bs, hhead', hloose, hcomma⟩ := hc.head hu' as
  rw [hhead'] at hiter
  obtain ⟨e', he', hreadTarget⟩ := he.tuple hg .primary htarget (by rw [hi]; decide) (by rw [hi]; decide)
  obtain ⟨target', hstore', htarget'⟩ := Expr.toTarget_of_bare he' hstore
  obtain ⟨iter', hiter', hreadIter⟩ := hu.tuple hg (.expression false) hiter hloose hcomma
  obtain ⟨test', htest', hreadTest⟩ := hc.read hg htest hu'
  obtain ⟨ys', hys', hreadElse⟩ := hy _ _ (by decide) hother
  obtain ⟨w, cs, hother', hw⟩ := ho.otherwise_head (b :: rest)
  rw [hother'] at hbody
  obtain ⟨xs', hxs', hreadBody, -⟩ := h [.keyword .endFor, .keyword .elseTag] _ w cs (by decide) hw hbody
  refine ⟨.loop target' iter' xs' ys' test' ⟨(s.get pos).span.start,
    s.endBefore (pos + 1 + ts.length + 1 + us.length + vs.length + ws.length + zs.length)⟩, ?_, ?_⟩
  · simp only [Stmt.bare, Stmt.bares_eq_map, htarget', hiter', htest', hxs', hys']
  · have hpos : pos < s.tokens.size - 1 := Stream.lt_last hlast (by rw [hword]; decide)
    rw [hstop]
    refine .statement hpos hword rfl (.of_step hpos fun g hg => ?_)
    have hreadStore : storeTarget e' s (pos + 1 + ts.length) = .ok target' (pos + 1 + ts.length) := by
      unfold storeTarget
      rw [hstore']
      rfl
    refine (expect_bind hword (by decide) _).trans ?_
    refine (bind_ok (hg (.of_grammar hlast rfl hreadTarget) (.inl (by omega))) _).trans ?_
    refine (bind_ok hreadStore _).trans ?_
    refine (expect_bind hin (by decide) _).trans ?_
    refine (bind_ok (hg (.of_grammar hlast rfl hreadIter) (.inl (by omega))) _).trans ?_
    refine (bind_ok (hreadTest g fun e q hread => hg (.of_grammar hlast rfl hread) (.inl (by omega))) _).trans ?_
    refine (bind_ok (hg hreadBody (.inl (by omega))) _).trans ?_
    rcases hreadElse with ⟨hend, rfl, hlen⟩ | ⟨helse, hbodyElse⟩
    · refine (advance_bind (by rw [hend]; decide) _).trans ?_
      rw [hend, hlen]
      rfl
    · refine (advance_bind (by rw [helse]; decide) _).trans ?_
      rw [helse]
      exact bind_ok (hg hbodyElse (.inl (by omega))) _

/-! ## All statements -/

/-- What is written is read, where the extension for loops has its tags if there are statements for loops. -/
theorem Spelled.read {p : Passage} (h : Spelled p ts)
    (hloops : p.HasLoopControl → find (Text.ofString "break") = some Extension.loopControls ∧
      find (Text.ofString "continue") = some Extension.loopControls) : p.Read find s ts := by
  induction h with
  | empty =>
    intro ends pos rest stop _ _ _ hend
    exact ⟨[], rfl, hend⟩
  | more hb he h hs ih ihs => exact .more hb he h (ih fun hx => hloops (.inl hx)) (ihs fun hxs => hloops (.inr hxs))
  | inside he hb h ih => exact .inside he hb (ih hloops)
  | print ht h => exact .print hlast ht h
  | expr h => exact .expr hlast h
  | assign hm ht he hv => exact .assign hlast hm ht he hv
  | extend ht h => exact .extend hlast ht h
  | embed ht h => exact .embed hlast ht h
  | importAs ht ha has hn hv hb h => exact .importAs hlast ht ha has hn hv hb h
  | importNames ht hi h hn => exact .importNames hlast ht hi h hn
  | breakLoop ht hv => exact .breakLoop ht hv (hloops trivial).1
  | continueLoop ht hv => exact .continueLoop ht hv (hloops trivial).2
  | block ht hn hv hw h ih => exact .block ht hn hv hw (ih hloops)
  | define ht hn hv hb hw hs h ih => exact .define hlast ht hn hv hb hw hs (ih hloops)
  | callBlock ht hw hs hc h ih => exact .callBlock hlast ht hw hs hc h (ih hloops)
  | filterBlock ht hw hf h ih => exact .filterBlock hlast ht hw hf h (ih hloops)
  | branch ht hc h hy ih ihy =>
    exact .branch hlast ht hc h hy (ih fun hbody => hloops (.inl hbody)) (ihy fun helse => hloops (.inr helse))
  | loop ht hi hstore he hu hc h hy ih ihy =>
    exact .loop hlast ht hi hstore he hu hc h hy (ih fun hbody => hloops (.inl hbody))
      (ihy fun helse => hloops (.inr helse))
  | noElse hw => exact .noElse hw
  | orElse hys he hw h ih => exact .orElse he hw (ih hloops)

end

end Stencil
