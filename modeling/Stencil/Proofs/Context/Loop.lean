/-
Loops with a filter. The iterable of a loop is read without a conditional at its top, so that a word `if` behind it
is left to the filter. Wherever the tokens of the iterable do leave it, a loop over them is read whatever target
stands before and whatever filter behind them. A test's argument without parentheses does not leave the word, and
neither does a tuple without items or with a comma at its end.
-/
import Stencil.Proofs.Context.Elsewhere
import Stencil.Proofs.Context.Guard
import Stencil.Proofs.Writing.Body

namespace Stencil

open Stencil.Parser

/-! ## Iterables -/

namespace Grammar

/-- The tokens leave alone a word `if` that stands behind them in the place of the end of a tag. -/
structure LeavesIf (g : Grammar) (ts : List Token) (tagEnd : Token) : Prop where
  /-- There is a last token, and it is no comma. -/
  ends : ∃ us t, ts = us ++ [t] ∧ t.kind ≠ .symbol .comma
  /-- No argument of a test that has no parentheses ends with the tokens. -/
  noArgument : ∀ s : Stream, s.Holds (ts ++ [tagEnd]) → ∀ pos e, s.BareArgument pos →
    g (.expression true) s pos ≠ .ok e ts.length

variable {find : Text → Option Extension} {s : Stream} {ts : List Token} {t c : Token} {pos : Nat} {e : Expr}

/-- Tokens before the end of a tag run in parallel with the same tokens before the word `if`. -/
theorem exists_guarded {alone : Stream} {us : List Token} {u : Token} (halone : alone.Holds (us ++ [u] ++ [t]))
    (hu : u.kind ≠ .symbol .comma) (ht : t.kind = .blockEnd) (hc : c.kind = .keyword .ifTag)
    (hs : s.Shows pos (us ++ [u] ++ [c])) :
    ∃ m : Parallel, m.left = alone ∧ m.right = s.placeless ∧ m.offset = pos ∧ m.horizon = us.length ∧ m.Guarded := by
  obtain ⟨hfront, hword⟩ := Stream.shows_append.1 hs
  rw [Stream.shows_singleton, List.length_append, List.length_singleton] at hword
  have hend : alone.get (us.length + 1) = t := by
    rw [halone.get (by simp), List.getElem_concat_length (by simp)]
  have hif : (s.get (us.length + 1 + pos)).kind = .keyword .ifTag := by
    rw [Nat.add_comm, Stream.kind_of_content hword, hc]
  have hcontent : ∀ i ≤ us.length, (s.get (i + pos)).content = (alone.get i).content := fun i hi =>
    halone.content (List.prefix_append _ _) hfront i (by rw [List.length_append, List.length_singleton]; omega)
  -- behind the last token there is the end of the tag or the word, none of which a rule looks for
  refine ⟨alone.elsewhere s pos us.length hcontent fun i hi k k' hk _ => ?_, rfl, rfl, rfl, rfl, ?_, ?_, ?_⟩
  · rw [Nat.add_right_comm]
    rcases Nat.lt_or_eq_of_le hi with hlt | rfl
    · rw [Stream.kind_of_content (hcontent (i + 1) hlt)]
    · rw [hif, hend, ht]
      rcases List.mem_cons.1 hk with hk | hk
      · cases hk; simp
      · cases List.mem_singleton.1 hk; simp
  · show (alone.get (us.length + 1)).kind = .blockEnd
    rw [hend, ht]
  · show (s.placeless.get (us.length + 1 + pos)).kind = .keyword .ifTag
    rw [Stream.get_placeless, Token.kind_mapPlaces, hif]
  · show (alone.get us.length).kind ≠ .symbol .comma
    rw [halone.get (by simp), List.getElem_append_left (by simp), List.getElem_concat_length rfl]
    exact hu

/-- An iterable that leaves the word is given before it too. -/
theorem Consumes.gives_before_if (h : (ofExtensions find).Consumes (.tuple (.expression false)) ts t e)
    (ht : t.kind = .blockEnd) (hleaves : (ofExtensions find).LeavesIf ts t) (hc : c.kind = .keyword .ifTag)
    (hlast : s.last.kind = .eof) (hs : s.Shows pos (ts ++ [c])) :
    ∃ e', Gives find s (.tuple (.expression false)) pos e' (pos + ts.length) ∧ e'.bare = e.bare := by
  obtain ⟨alone, halone, hread⟩ := h
  obtain ⟨⟨us, u, rfl, hu⟩, hargument⟩ := hleaves
  obtain ⟨m, rfl, hright, rfl, hhorizon, hm⟩ := exists_guarded halone hu ht hc hs
  have hlength : (us ++ [u]).length = m.horizon + 1 := by rw [List.length_append, List.length_singleton, hhorizon]
  rw [hlength] at hread hargument ⊢
  have hbare (n pos : Nat) (x : Expr) (hx : m.left.BareArgument pos) :
      run (fun _ => none) n (.expression true) m.left pos ≠ .ok x (m.horizon + 1) := fun hrun =>
    hargument m.left halone pos x hx (Gives.of_run halone.last rfl hrun).grammar
  have hrun : run (fun _ => none) (depth m.left) (.tuple (.expression false)) m.left 0 = .ok e (m.horizon + 1) :=
    run_refines find _ (Nat.le_refl _) rfl (.tuple (.expression false)) hread
  obtain ⟨n, hn⟩ : ∃ n, depth m.left = n + 1 := ⟨64 * (m.left.tokens.size + 4) - 1, by unfold depth; omega⟩
  rw [hn] at hrun
  have hplaceless := (tuple_meets (run_meets hm findsBuiltin_none hbare n) (Nat.zero_le _) hrun).2 (Nat.le_refl _)
  rw [hright] at hplaceless
  obtain ⟨e', he', hplaces⟩ : ∃ e', run (fun _ => none) (n + 1) (.tuple (.expression false)) s (0 + m.offset) = _ ∧ _ :=
    run_of_placeless findsBuiltin_none hplaceless
  rw [Nat.zero_add, Nat.add_comm _ m.offset] at he'
  refine ⟨e', .of_run hlast rfl he', ?_⟩
  rw [← e'.bare_mapPlaces fun _ => .origin, ← e.bare_mapPlaces m.move]
  exact congrArg Expr.bare hplaces

/-! ## Loops -/

/-- The bodies of a loop stand between the end of its first tag and the position behind the word that closes it. -/
def LoopBodies (find : Text → Option Extension) (s : Stream) (pos : Nat) (body elseBody : List Stmt) (stop : Nat) :
    Prop :=
  ∃ q, pos < q ∧ Gives find s (.statements [.keyword .endFor, .keyword .elseTag] false) pos body q ∧
    ((s.get q).kind = .keyword .endFor ∧ elseBody = [] ∧ stop = q + 1 ∨
      (s.get q).kind = .keyword .elseTag ∧ Gives find s (.statements [.keyword .endFor] true) (q + 1) elseBody stop)

/-- A loop with a filter is given if its parts are, one behind the other. -/
theorem Gives.loop {target iter test : Expr} {body elseBody : List Stmt} {p p' q stop : Nat}
    (hlast : s.last.kind = .eof) (hfor : (s.get pos).kind = .keyword .forTag)
    (htarget : Gives find s (.tuple .primary) (pos + 1) e p) (hstore : e.toTarget .store = some target)
    (hp : pos ≤ p) (hin : (s.get p).kind = .keyword .inOp)
    (hiter : Gives find s (.tuple (.expression false)) (p + 1) iter p')
    (hp' : pos ≤ p') (hif : (s.get p').kind = .keyword .ifTag)
    (htest : Gives find s (.expression true) (p' + 1) test q)
    (hq : pos < q) (hbodies : LoopBodies find s q body elseBody stop) :
    Gives find s .statement pos
      (.one (.loop target iter body elseBody (some test) ⟨(s.get pos).span.start, s.endBefore stop⟩)) stop := by
  have hpos : pos < s.tokens.size - 1 := Stream.lt_last hlast (by rw [hfor]; decide)
  refine Gives.statement hpos hfor rfl (.of_step hpos fun g hg => ?_)
  obtain ⟨r, hr, hbody, helse⟩ := hbodies
  have hreadTarget : storeTarget e s p = .ok target p := by
    unfold storeTarget
    rw [hstore]
    rfl
  have hreadFilter : loopTest g s p' = .ok (some test) q := by
    unfold loopTest
    refine (check_yes (List.mem_singleton.2 hif) _ _).trans ?_
    rw [advance_bind (by rw [hif]; nofun)]
    exact bind_ok (hg htest (.inl (Nat.lt_succ_of_le hp'))) _
  refine (expect_bind hfor (by decide) _).trans ?_
  refine (bind_ok (hg htarget (.inl (Nat.lt_succ_self pos))) _).trans ?_
  refine (bind_ok hreadTarget _).trans ?_
  refine (expect_bind hin (by decide) _).trans ?_
  refine (bind_ok (hg hiter (.inl (Nat.lt_succ_of_le hp))) _).trans ?_
  refine (bind_ok hreadFilter _).trans ?_
  refine (bind_ok (hg hbody (.inl hq)) _).trans ?_
  rcases helse with ⟨hend, rfl, rfl⟩ | ⟨hword, hreadElse⟩
  · refine (advance_bind (by rw [hend]; decide) _).trans ?_
    rw [hend]
    rfl
  · refine (advance_bind (by rw [hword]; decide) _).trans ?_
    rw [hword]
    exact bind_ok (hg hreadElse (.inl (by omega))) _

end Grammar

open Grammar

/-- The filter of a loop is never a part of its iterable: if the tokens of the iterable alone, before the end of a
tag, are read as an expression and leave a word `if` alone, then a loop over them with a filter is read, whatever
target, filter and bodies it has, and has that iterable and that filter, up to spans. -/
theorem Environment.loop_filter_kept (env : Environment) {s : Stream} {pos stop : Nat} {f i c b : Token}
    {ts us vs : List Token} {e target iter test : Expr} {body elseBody : List Stmt}
    (hf : f.kind = .keyword .forTag) (hi : i.kind = .keyword .inOp) (hc : c.kind = .keyword .ifTag)
    (hb : b.kind = .blockEnd)
    (htarget : env.grammar.Consumes (.tuple .primary) ts i e) (hstore : e.toTarget .store = some target)
    (hiter : env.grammar.Consumes (.tuple (.expression false)) us b iter) (hleaves : env.grammar.LeavesIf us b)
    (htest : env.grammar.Consumes (.expression true) vs b test)
    (hlast : s.last.kind = .eof) (hs : s.Shows pos (f :: ts ++ i :: us ++ c :: vs ++ [b]))
    (hbodies : LoopBodies (Extension.find? env.extensions) s
      (pos + (f :: ts ++ i :: us ++ c :: vs).length) body elseBody stop) :
    ∃ target' iter' test' span,
      env.grammar .statement s pos = .ok (.one (.loop target' iter' body elseBody (some test') span)) stop ∧
        target'.bare = target.bare ∧ iter'.bare = iter.bare ∧ test'.bare = test.bare := by
  have htagEnd : pos + (f :: ts ++ i :: us ++ c :: vs).length =
      pos + 1 + ts.length + 1 + us.length + 1 + vs.length := by
    simp only [List.length_append, List.length_cons]; omega
  rw [htagEnd] at hbodies
  simp only [List.append_assoc, List.cons_append] at hs
  rw [Stream.shows_cons, Stream.shows_append, Stream.shows_cons, Stream.shows_append, Stream.shows_cons] at hs
  obtain ⟨hs_f, hs_ts, hs_i, hs_us, hs_c, hs_vs⟩ := hs
  have hfor : (s.get pos).kind = .keyword .forTag := (Stream.kind_of_content hs_f).trans hf
  have hin : (s.get (pos + 1 + ts.length)).kind = .keyword .inOp := (Stream.kind_of_content hs_i).trans hi
  have hif : (s.get (pos + 1 + ts.length + 1 + us.length)).kind = .keyword .ifTag :=
    (Stream.kind_of_content hs_c).trans hc
  obtain ⟨e', hreadTarget, he'⟩ := htarget.gives (by rw [hi]; nofun) (by rw [hi]; nofun) hlast
    (Stream.shows_append.2 ⟨hs_ts, Stream.shows_singleton.2 hs_i⟩)
  obtain ⟨target', hstore', htarget'⟩ := Expr.toTarget_of_bare he' hstore
  obtain ⟨iter', hreadIter, hiter'⟩ := hiter.gives_before_if hb hleaves hc hlast
    (Stream.shows_append.2 ⟨hs_us, Stream.shows_singleton.2 hs_c⟩)
  obtain ⟨test', hreadTest, htest'⟩ := htest.gives (by rw [hb]; nofun) (by rw [hb]; nofun) hlast hs_vs
  have hloop := Gives.loop hlast hfor hreadTarget hstore' (by omega) hin hreadIter (by omega) hif hreadTest (by omega)
    hbodies
  exact ⟨target', iter', test', _, hloop.grammar, htarget', hiter', htest'⟩

/-- A test with its argument in parentheses leaves the word, which begins the filter. -/
theorem Environment.loop_filter_kept_test :
    let x := Text.ofString "x"
    let named (n : String) := Token.named (Text.ofString n)
    let iterable := [named "a", .of (.keyword .isOp), named "b", .of (.symbol .openParen), named "c",
      .of (.symbol .closeParen)]
    let tag := .of (.keyword .forTag) :: [.named x] ++ .of (.keyword .inOp) :: iterable ++
      .of (.keyword .ifTag) :: [named "d"] ++ [.of .blockEnd]
    ∃ iter test target' iter' test' span,
      standard.grammar.Consumes (.tuple (.expression false)) iterable (.of .blockEnd) iter ∧
      standard.grammar.Consumes (.expression true) [named "d"] (.of .blockEnd) test ∧
      standard.grammar .statement (Stream.holding (tag ++ [.of .blockBegin, .of (.keyword .endFor)])) 0 =
        .ok (.one (.loop target' iter' [] [] (some test') span)) 14 ∧
      target'.bare = .name x .store .none ∧ iter'.bare = iter.bare ∧ test'.bare = test.bare := by
  intro x named iterable tag
  obtain ⟨iter, hiter⟩ : ∃ iter,
      standard.grammar.Consumes (.tuple (.expression false)) iterable (.of .blockEnd) iter :=
    Consumes.of_check (by decide +kernel)
  obtain ⟨test, htest⟩ : ∃ test, standard.grammar.Consumes (.expression true) [named "d"] (.of .blockEnd) test :=
    Consumes.of_check (by decide +kernel)
  have htarget : standard.grammar.Consumes (.tuple .primary) [.named x] (.of (.keyword .inOp)) (.name x .load .none) :=
    ⟨_, Stream.holding_holds _, rfl⟩
  -- the one test has a parenthesis behind its name
  have hleaves : standard.grammar.LeavesIf iterable (.of .blockEnd) := by
    refine ⟨⟨iterable.dropLast, .of (.symbol .closeParen), rfl, nofun⟩, ?_⟩
    rintro s hs _ _ ⟨i, negated, p, htests, -, rfl, hbare⟩
    have his : (s.get i).kind = .keyword .isOp := by cases htests <;> assumption
    have hkinds (j : Nat) (hj : j < 7) : (s.get j).kind = ((iterable ++ [Token.of .blockEnd]).get ⟨j, hj⟩).kind := by
      rw [hs.get hj]
      rfl
    obtain rfl : i = 1 := by
      rcases Nat.lt_or_ge i 7 with hlt | hge
      · rw [hkinds i hlt] at his
        rcases i with _ | _ | _ | _ | _ | _ | _ | i <;> first | rfl | cases his | omega
      · rw [hs.eof hge] at his
        cases his
    have hname : (s.get 2).kind = .name := hkinds 2 (by decide)
    cases htests with
    | plain =>
      rw [hkinds 3 (by decide)] at hbare
      exact absurd hbare (by decide)
    | negated _ hnot =>
      rw [hname] at hnot
      cases hnot
  have hbuiltin : standard.IsBuiltin := fun x hx => absurd hx List.not_mem_nil
  have hlast := (Stream.holding_holds (tag ++ [.of .blockBegin, .of (.keyword .endFor)])).last
  have hbody : standard.grammar (.statements [.keyword .endFor, .keyword .elseTag] false)
      (Stream.holding (tag ++ [.of .blockBegin, .of (.keyword .endFor)])) 11 = .ok [] 13 := by
    have hmeets : (standard.grammar (.statements [.keyword .endFor, .keyword .elseTag] false)
        (Stream.holding (tag ++ [.of .blockBegin, .of (.keyword .endFor)])) 11).meets
          (fun xs q => xs.isEmpty && q == 13) = true := by decide +kernel
    obtain ⟨xs, q, hread, hcheck⟩ := Reply.exists_of_meets hmeets
    obtain ⟨hxs, hq⟩ := Bool.and_eq_true_iff.1 hcheck
    rw [hread, List.isEmpty_iff.1 hxs, beq_iff_eq.1 hq]
  obtain ⟨target', iter', test', span, hread, htarget', hiter', htest'⟩ := standard.loop_filter_kept
    (b := .of .blockEnd) rfl rfl rfl rfl htarget rfl hiter hleaves htest hlast
    (Stream.shows_append.1 (Stream.holding_holds _).shows).1
    ⟨13, by decide, .of_orderly hbuiltin.orderlyTags hlast (by decide) hbody, .inl ⟨rfl, rfl, rfl⟩⟩
  exact ⟨iter, test, target', iter', test', span, hiter, htest, hread, htarget', hiter', htest'⟩

/-- A test's argument without parentheses takes the filter for the condition of a conditional, so that the loop is
not read. -/
theorem Environment.loop_filter_swallowed :
    let named (n : String) := Token.named (Text.ofString n)
    let iterable := [named "a", .of (.keyword .isOp), named "b", named "c"]
    (∃ iter, standard.grammar.Consumes (.tuple (.expression false)) iterable (.of .blockEnd) iter) ∧
      (∃ test, standard.grammar.Consumes (.expression true) [named "d"] (.of .blockEnd) test) ∧
      ∀ x q, standard.grammar .statement (Stream.holding (.of (.keyword .forTag) :: [named "x"] ++
        .of (.keyword .inOp) :: iterable ++ .of (.keyword .ifTag) :: [named "d"] ++
          [.of .blockEnd, .of .blockBegin, .of (.keyword .endFor)])) 0 ≠ .ok x q := by
  intro named iterable
  refine ⟨?_, ?_, ?_⟩
  · exact Consumes.of_check (by decide +kernel)
  · exact Consumes.of_check (by decide +kernel)
  · intro x q hread
    have hrefused : (standard.grammar .statement (Stream.holding (.of (.keyword .forTag) :: [named "x"] ++
        .of (.keyword .inOp) :: iterable ++ .of (.keyword .ifTag) :: [named "d"] ++
          [.of .blockEnd, .of .blockBegin, .of (.keyword .endFor)])) 0).meets (fun _ _ => true) = false := by
      decide +kernel
    rw [hread] at hrefused
    cases hrefused

end Stencil
