/-
Statements and their bodies, read from the tokens that write them. `Passage.Read` says of a passage and its
tokens that wherever they stand the rule for the passage gives it, up to spans, and ends behind them.
-/
import Stencil.Proofs.Writing.Given
import Stencil.Proofs.Writing.Tag

namespace Stencil

open Stencil.Parser Grammar

variable {find : Text → Option Extension} {s : Stream} {ts us vs : List Token} {t : Token}
variable {rest : List Token} {pos stop : Nat}

/-- The words that end bodies. -/
def TokenKind.closers : List TokenKind :=
  [.keyword .endFor, .keyword .elseTag, .keyword .elifTag, .keyword .endIf, .keyword .endBlock,
    .keyword .endMacro, .keyword .endCall, .keyword .endFilter]

section

variable (find s)

/-- Wherever the tokens stand, the passage is read from them. -/
def Passage.Read (ts : List Token) : Passage → Prop
  | .stmt x => ∀ pos t rest, s.At pos (ts ++ t :: rest) → t.kind = .blockEnd →
    ∃ x', x'.bare = x.bare ∧ Gives find s .statement pos (.one x') (pos + ts.length)
  | .body xs => ∀ ends pos rest stop, ends.getD [] ⊆ TokenKind.closers → s.At pos (ts ++ rest) → rest ≠ [] →
    Gives find s (.content ends []) (pos + ts.length) [] stop →
    ∃ xs', xs'.map Stmt.bare = xs.map Stmt.bare ∧ Gives find s (.content ends []) pos xs' stop
  | .inside xs => ∀ ends pos w rest, ends ⊆ TokenKind.closers → w.kind ∈ ends → s.At pos (ts ++ w :: rest) →
    ∃ xs', xs'.map Stmt.bare = xs.map Stmt.bare ∧
      Gives find s (.statements ends false) pos xs' (pos + ts.length) ∧
      Gives find s (.statements ends true) pos xs' (pos + ts.length + 1)
  | .otherwise k xs => ∀ pos rest, .keyword k ∈ TokenKind.closers → s.At pos (ts ++ rest) →
    ∃ xs', xs'.map Stmt.bare = xs.map Stmt.bare ∧
      ((s.get pos).kind = .keyword k ∧ xs' = [] ∧ ts.length = 1 ∨
        (s.get pos).kind = .keyword .elseTag ∧
          Gives find s (.statements [.keyword k] true) (pos + 1) xs' (pos + ts.length))

end

/-! ## Bodies -/

/-- A statement does not begin with a word that ends a body. -/
theorem Spelled.opens {x : Stmt} (h : Spelled (.stmt x) ts) :
    ∃ t us, ts = t :: us ∧ t.kind ∉ TokenKind.closers := by
  have first {t : Token} {k : TokenKind} (ht : t.kind = k) (us : List Token) (hk : k ∉ TokenKind.closers) :
      ∃ u vs, t :: us = u :: vs ∧ u.kind ∉ TokenKind.closers := ⟨t, us, rfl, by rw [ht]; exact hk⟩
  cases h with
  | expr h =>
    obtain ⟨-, o, us, rfl, ho⟩ := h
    exact first ho _ (by decide)
  | assign hm ht he hv =>
    obtain ⟨-, o, us, rfl, ho⟩ := he
    exact first ho _ (by decide)
  | print ht | extend ht | embed ht | importAs ht | importNames ht | breakLoop ht | continueLoop ht | block ht
  | define ht | callBlock ht | filterBlock ht | branch ht | loop ht => exact first ht _ (by decide)

namespace Grammar

variable {xs : List Stmt} {q : Nat}

/-- A body ends where its last tag begins with a word that ends it. -/
theorem Gives.content_last {ends : List TokenKind} (hpos : pos < s.tokens.size - 1)
    (hbegin : (s.get pos).kind = .blockBegin) (hword : (s.get (pos + 1)).kind ∈ ends) :
    Gives find s (.content (some ends) []) pos [] (pos + 1) := by
  refine .of_step hpos fun g _ => ?_
  show (current >>= fun token => _) s pos = _
  rw [current_bind]
  simp only [hbegin]
  rw [advance_bind (by rw [hbegin]; nofun)]
  exact check_yes hword _ _

/-- A body that begins with the tag of a statement. -/
theorem Gives.content_tag {ends : Option (List TokenKind)} {sp : Splice} (hpos : pos < s.tokens.size - 1)
    (hbegin : (s.get pos).kind = .blockBegin) (hword : (s.get (pos + 1)).kind ∉ ends.getD [])
    (hstmt : Gives find s .statement (pos + 1) sp q) (hend : (s.get q).kind = .blockEnd) (hq : pos < q)
    (hrest : Gives find s (.content ends []) (q + 1) xs stop) :
    Gives find s (.content ends []) pos (sp.toList ++ xs) stop := by
  refine .of_step hpos fun g hg => ?_
  show (current >>= fun token => _) s pos = _
  rw [current_bind]
  simp only [hbegin]
  rw [advance_bind (by rw [hbegin]; nofun)]
  refine (check_no hword _ _).trans ?_
  rw [bind_ok (hg hstmt (.inl (by omega)))]
  refine (expect_bind hend nofun _).trans ?_
  rw [bind_ok (hg hrest (.inl (by omega)))]
  rfl

/-- A body from the end of the tag before it on, up to the word that ends it or behind that. -/
theorem Gives.statements {ends : List TokenKind} (hends : ends ⊆ TokenKind.closers) (hpos : pos < s.tokens.size - 1)
    (hend : (s.get pos).kind = .blockEnd) (hbody : Gives find s (.content (some ends) []) (pos + 1) xs q)
    (hword : (s.get q).kind ∈ ends) :
    Gives find s (.statements ends false) pos xs q ∧ Gives find s (.statements ends true) pos xs (q + 1) := by
  -- the body, whatever is done with the word behind it
  have hread {g : Grammar} (hg : Inherits find s g pos 0) {dropEnd : Bool} {q' : Nat}
      (hdrop : (if dropEnd then advance >>= fun _ => pure xs else pure xs : Parser (List Stmt)) s q = .ok xs q') :
      Grammar.statements g ends dropEnd s pos = .ok xs q' := by
    unfold Grammar.statements
    refine (check_no (by rw [hend]; decide) _ _).trans ?_
    refine (expect_bind hend nofun _).trans ?_
    rw [bind_ok (hg hbody (.inl (Nat.lt_succ_self pos)))]
    exact (check_yes hword _ _).trans hdrop
  refine ⟨.of_step hpos fun g hg => hread hg rfl, .of_step hpos fun g hg => hread hg (advance_bind ?_ _)⟩
  intro heof
  rw [heof] at hword
  exact absurd (hends hword) (by decide)

end Grammar

theorem Passage.Read.more {x : Stmt} {xs : List Stmt} {b e : Token} (hb : b.kind = .blockBegin)
    (he : e.kind = .blockEnd) (hw : Spelled (.stmt x) ts) (h : (Passage.stmt x).Read find s ts)
    (hs : (Passage.body xs).Read find s us) : (Passage.body (x :: xs)).Read find s (b :: ts ++ e :: us) := by
  intro ends pos rest stop hends hat hrest hend
  have hstop : pos + (b :: ts ++ e :: us).length = pos + 1 + ts.length + 1 + us.length := by
    simp only [List.length_append, List.length_cons]; omega
  simp only [List.append_assoc, List.cons_append] at hat
  rw [hstop] at hend
  have hstmt := hat.next
  obtain ⟨x', hx', hread⟩ := h (pos + 1) e _ hstmt he
  obtain ⟨xs', hxs', hbody⟩ := hs ends _ rest stop hends hstmt.append.next hrest hend
  refine ⟨x' :: xs', by rw [List.map_cons, hx', hxs']; rfl, ?_⟩
  refine .content_tag (hat.lt (by simp)) (hat.kind.trans hb) ?_ hread (hstmt.append.kind.trans he) (by omega) hbody
  obtain ⟨t, vs, rfl, ht⟩ := hw.opens
  intro hmem
  rw [hstmt.kind] at hmem
  exact ht (hends hmem)

theorem Passage.Read.inside {xs : List Stmt} {e b : Token} (he : e.kind = .blockEnd) (hb : b.kind = .blockBegin)
    (h : (Passage.body xs).Read find s ts) : (Passage.inside xs).Read find s (e :: ts ++ [b]) := by
  intro ends pos w rest hends hw hat
  have hstop : pos + (e :: ts ++ [b]).length = pos + 1 + ts.length + 1 := by
    simp only [List.length_append, List.length_cons, List.length_nil]; omega
  simp only [List.append_assoc, List.cons_append, List.nil_append] at hat
  have htag := hat.next.append
  have hword : (s.get (pos + 1 + ts.length + 1)).kind ∈ ends := by
    rw [htag.next.kind]
    exact hw
  obtain ⟨xs', hxs', hbody⟩ := h (some ends) _ _ _ hends hat.next (by simp)
    (.content_last (htag.lt (by simp)) (htag.kind.trans hb) hword)
  rw [hstop]
  exact ⟨xs', hxs', Gives.statements hends (hat.lt (by simp)) (hat.kind.trans he) hbody hword⟩

/-- A body whose last tag begins with the one word that ends it. -/
theorem Passage.Read.closed {xs : List Stmt} {k : Keyword} {w : Token} (h : (Passage.inside xs).Read find s ts)
    (hk : .keyword k ∈ TokenKind.closers) (hw : w.kind = .keyword k) (hat : s.At pos (ts ++ w :: rest)) :
    ∃ xs', xs'.map Stmt.bare = xs.map Stmt.bare ∧
      Gives find s (.statements [.keyword k] true) pos xs' (pos + ts.length + 1) := by
  have hends : [TokenKind.keyword k] ⊆ TokenKind.closers := by
    rintro x hx
    rw [List.mem_singleton.1 hx]
    exact hk
  obtain ⟨xs', hxs', -, hread⟩ := h _ _ w rest hends (List.mem_singleton.2 hw) hat
  exact ⟨xs', hxs', hread⟩

theorem Passage.Read.noElse {k : Keyword} {w : Token} (hw : w.kind = .keyword k) :
    (Passage.otherwise k []).Read find s [w] :=
  fun _ _ _ hat => ⟨[], rfl, .inl ⟨hat.kind.trans hw, rfl, rfl⟩⟩

theorem Passage.Read.orElse {k : Keyword} {xs : List Stmt} {e w : Token} (he : e.kind = .keyword .elseTag)
    (hw : w.kind = .keyword k) (h : (Passage.inside xs).Read find s ts) :
    (Passage.otherwise k xs).Read find s (e :: ts ++ [w]) := by
  intro pos rest hk hat
  have hstop : pos + (e :: ts ++ [w]).length = pos + 1 + ts.length + 1 := by
    simp only [List.length_append, List.length_cons, List.length_nil]; omega
  simp only [List.append_assoc, List.cons_append, List.nil_append] at hat
  obtain ⟨xs', hxs', hread⟩ := h.closed hk hw hat.next
  rw [hstop]
  exact ⟨xs', hxs', .inr ⟨hat.kind.trans he, hread⟩⟩

/-! ## Statements of one tag -/

/-- A statement begins with a keyword, which tells the rule for it. -/
theorem Grammar.Gives.statement {k : Keyword} {r : Rule .stmt} {x : Stmt} (hpos : pos < s.tokens.size - 1)
    (hk : (s.get pos).kind = .keyword k) (hr : statementRule? k = some r) (h : Gives find s r pos x stop) :
    Gives find s .statement pos (.one x) stop := by
  have hrank : r.rank < 17 := by
    unfold statementRule? at hr
    split at hr <;> first | cases hr; decide | cases hr
  refine .of_step hpos fun g hg => ?_
  show (current >>= fun token => _) s pos = _
  rw [current_bind]
  simp only [hk, hr]
  rw [bind_ok (hg h (.inr ⟨rfl, hrank⟩))]
  rfl

/-- A statement that begins with a parenthesis is an expression or an assignment to it. -/
theorem Grammar.Gives.simple {x : Splice} (hpos : pos < s.tokens.size - 1)
    (hopen : (s.get pos).kind = .symbol .openParen)
    (h : ∀ g, Inherits find s g pos 17 → simpleStatement g s pos = .ok x stop) :
    Gives find s .statement pos x stop := by
  refine .of_step hpos fun g hg => ?_
  show (current >>= fun token => _) s pos = _
  rw [current_bind]
  simp only [hopen]
  exact h g hg

section

variable (hlast : s.last.kind = .eof)
include hlast

theorem Passage.Read.print {es : List Expr} {span : Span} (ht : t.kind = .keyword .printTag)
    (h : Separated Enclosed es ts) : (Passage.stmt (.output es span)).Read find s (t :: ts) := by
  intro pos e rest hat he
  have hg := @ofExtensions_solves find s hlast
  have hword : (s.get pos).kind = .keyword .printTag := hat.kind.trans ht
  obtain ⟨es', hes', hread⟩ := h.printItems hg hat.next he
  refine ⟨.output es' ⟨(s.get pos).span.start, s.endBefore (pos + 1 + ts.length)⟩, ?_, ?_⟩
  · exact congrArg (Stmt.output · Span.none) hes'
  · refine .statement (hat.lt (by simp)) hword rfl (.of_grammar hlast rfl ?_)
    rw [hg .print pos nofun, List.length_cons, Nat.add_comm ts.length, ← Nat.add_assoc]
    refine (expect_bind hword nofun _).trans ?_
    rw [bind_ok hread]
    rfl

/-- A keyword and an expression behind it. -/
theorem Passage.Read.source {k : Keyword} {r : Rule .stmt} {f : Expr → Span → Stmt} {e : Expr} {span : Span}
    (hr : statementRule? k = some r) (hexpr : r.isStatement = false)
    (hbare : ∀ e' span', e'.bare = e.bare → (f e' span').bare = (f e span).bare)
    (hstep : ∀ g pos, step find g r s pos = (do
      let start := (← expectKeyword k).span.start
      let e ← g (.expression true)
      return f e ⟨start, e.span.finish⟩ : Parser Stmt) s pos)
    (ht : t.kind = .keyword k) (h : Enclosed e ts) : (Passage.stmt (f e span)).Read find s (t :: ts) := by
  intro pos b rest hat hb
  have hg := @ofExtensions_solves find s hlast
  have hword : (s.get pos).kind = .keyword k := hat.kind.trans ht
  obtain ⟨e', he', hread⟩ := h.expression hg hat.next (by rw [hb]; decide)
  refine ⟨f e' ⟨(s.get pos).span.start, e'.span.finish⟩, hbare _ _ he', ?_⟩
  refine .statement (hat.lt (by simp)) hword hr (.of_grammar hlast hexpr ?_)
  have hnot : r.isStatement = true → OrderlyTags find := by
    intro hs
    rw [hexpr] at hs
    cases hs
  rw [hg r pos hnot, hstep, List.length_cons, Nat.add_comm ts.length, ← Nat.add_assoc]
  refine (expect_bind hword nofun _).trans ?_
  rw [bind_ok hread]
  rfl

theorem Passage.Read.extend {e : Expr} {span : Span} (ht : t.kind = .keyword .extendsTag) (h : Enclosed e ts) :
    (Passage.stmt (.extend e span)).Read find s (t :: ts) :=
  .source hlast rfl rfl (fun _ _ => congrArg (Stmt.extend · Span.none)) (fun _ _ => rfl) ht h

theorem Passage.Read.embed {e : Expr} {span : Span} (ht : t.kind = .keyword .includeTag) (h : Enclosed e ts) :
    (Passage.stmt (.embed e span)).Read find s (t :: ts) :=
  .source hlast rfl rfl (fun _ _ => congrArg (Stmt.embed · Span.none)) (fun _ _ => rfl) ht h

theorem Passage.Read.importAs {e : Expr} {name : Text} {a n : Token} {span : Span}
    (ht : t.kind = .keyword .importTag) (ha : a.kind = .name) (has : a.value = Text.ofString "as")
    (hn : n.kind = .name) (hv : n.value = name) (hb : canBind name = true) (h : Enclosed e ts) :
    (Passage.stmt (.importAs e name span)).Read find s (t :: ts ++ [a, n]) := by
  intro pos b rest hat _
  have hstop : pos + (t :: ts ++ [a, n]).length = pos + 1 + ts.length + 1 + 1 := by
    simp only [List.length_append, List.length_cons, List.length_nil]; omega
  simp only [List.append_assoc, List.cons_append, List.nil_append] at hat
  have hg := @ofExtensions_solves find s hlast
  have hword : (s.get pos).kind = .keyword .importTag := hat.kind.trans ht
  have hsource := hat.next
  have hname := hsource.append.next
  obtain ⟨e', he', hread⟩ := h.expression hg hsource (by rw [ha]; decide)
  have hexpect : expectName (Text.ofString "as") s (pos + 1 + ts.length) =
      .ok (s.get (pos + 1 + ts.length)) (pos + 1 + ts.length + 1) := by
    unfold expectName
    simp only [hsource.append.get]
    rw [if_pos ⟨ha, has⟩]
    refine (advance_eq_ok ?_).trans ?_
    · rw [hsource.append.kind, ha]; nofun
    · rw [hsource.append.get]
  refine ⟨.importAs e' name ⟨(s.get pos).span.start, s.endBefore (pos + 1 + ts.length + 1 + 1)⟩,
    congrArg (Stmt.importAs · name Span.none) he', ?_⟩
  refine .statement (hat.lt (by simp)) hword rfl (.of_grammar hlast rfl ?_)
  rw [hg .importAs pos nofun, hstop]
  refine (expect_bind hword nofun _).trans ?_
  rw [bind_ok hread]
  refine (bind_ok hexpect _).trans ?_
  refine (bindable_bind (hname.kind.trans hn) (by rw [hname.get, hv]; exact hb) _).trans ?_
  rw [hname.get, hv]
  rfl

theorem Passage.Read.importNames {e : Expr} {names : List ImportName} {i : Token} {span : Span}
    (ht : t.kind = .keyword .fromTag) (hi : i.kind = .keyword .importTag) (h : Enclosed e ts)
    (hn : Separated ImportName.Spelled names us) :
    (Passage.stmt (.importNames e names span)).Read find s (t :: ts ++ i :: us) := by
  intro pos b rest hat hb
  have hstop : pos + (t :: ts ++ i :: us).length = pos + 1 + ts.length + 1 + us.length := by
    simp only [List.length_append, List.length_cons]; omega
  simp only [List.append_assoc, List.cons_append] at hat
  have hg := @ofExtensions_solves find s hlast
  have hword : (s.get pos).kind = .keyword .fromTag := hat.kind.trans ht
  have hsource := hat.next
  have hlist := hsource.append.next
  have hend : (s.get (pos + 1 + ts.length + 1 + us.length)).kind = .blockEnd := hlist.append.kind.trans hb
  obtain ⟨e', he', hread⟩ := h.expression hg hsource (by rw [hi]; decide)
  have hnames : ofExtensions find (.nameItems true) s (pos + 1 + ts.length + 1) =
      .ok names (pos + 1 + ts.length + 1 + us.length) := by
    cases names with
    | nil =>
      cases hn
      rw [hg (.nameItems true) _ nofun]
      refine check_no ?_ _ _
      rw [Stream.At.kind hlist, hb]
      decide
    | cons x xs => exact hn.nameItems hg hlist hb rfl
  refine ⟨.importNames e' names ⟨(s.get pos).span.start, s.endBefore (pos + 1 + ts.length + 1 + us.length)⟩,
    congrArg (Stmt.importNames · names Span.none) he', ?_⟩
  refine .statement (hat.lt (by simp)) hword rfl (.of_grammar hlast rfl ?_)
  rw [hg .importNames pos nofun, hstop]
  refine (expect_bind hword nofun _).trans ?_
  rw [bind_ok hread]
  refine (expect_bind (hsource.append.kind.trans hi) nofun _).trans ?_
  rw [bind_ok hnames]
  exact check_no (by rw [hend]; decide) _ _

theorem Passage.Read.expr {e : Expr} {span : Span} (h : Enclosed e ts) :
    (Passage.stmt (.expr e span)).Read find s ts := by
  intro pos b rest hat hb
  have hopen := h.opens hat
  have hpos : pos < s.tokens.size - 1 := by
    obtain ⟨-, o, us, rfl, -⟩ := h
    exact hat.lt (by simp)
  obtain ⟨e', he', hread⟩ := h.tuple (@ofExtensions_solves find s hlast) (.expression true) hat
    (by rw [hb]; decide) (by rw [hb]; nofun)
  refine ⟨.expr e' e'.span, congrArg (Stmt.expr · Span.none) he', .simple hpos hopen fun g hg => ?_⟩
  unfold simpleStatement
  rw [bind_ok (hg (.of_grammar hlast rfl hread) (.inr ⟨rfl, by decide⟩))]
  exact check_no (by rw [hat.append.kind, hb]; decide) _ _

theorem Passage.Read.assign {e target value : Expr} {m : Token} {span : Span} (hm : m.kind = .symbol .assign)
    (ht : e.toTarget .store = some target) (he : Enclosed e ts) (hv : Enclosed value us) :
    (Passage.stmt (.assign target value span)).Read find s (ts ++ m :: us) := by
  intro pos b rest hat hb
  have hstop : pos + (ts ++ m :: us).length = pos + ts.length + 1 + us.length := by
    simp only [List.length_append, List.length_cons]; omega
  simp only [List.append_assoc, List.cons_append] at hat
  have hg := @ofExtensions_solves find s hlast
  have hopen := he.opens hat
  have hpos : pos < s.tokens.size - 1 := by
    obtain ⟨-, o, us, rfl, -⟩ := he
    exact hat.lt (by simp)
  have hequals : (s.get (pos + ts.length)).kind = .symbol .assign := hat.append.kind.trans hm
  obtain ⟨e', he', hread⟩ := he.tuple hg (.expression true) hat (by rw [hm]; decide) (by rw [hm]; nofun)
  obtain ⟨value', hvalue, hreadValue⟩ := hv.tuple hg (.expression true) hat.append.next (by rw [hb]; decide)
    (by rw [hb]; nofun)
  obtain ⟨target', hstore, htarget⟩ := Expr.toTarget_of_bare he' ht
  have hassign : ofExtensions find (.assign e') s (pos + ts.length) = .ok
      (.assign target' value' ⟨e'.span.start, value'.span.finish⟩) (pos + ts.length + 1 + us.length) := by
    rw [hg (.assign e') _ nofun]
    refine (expect_bind hequals nofun _).trans ?_
    have htarget : storeTarget e' s (pos + ts.length + 1) = .ok target' (pos + ts.length + 1) := by
      unfold storeTarget
      rw [hstore]
      rfl
    rw [bind_ok htarget, bind_ok hreadValue]
    rfl
  have hbare : Stmt.assign target'.bare value'.bare .none = .assign target.bare value.bare .none := by
    rw [htarget, hvalue]
  refine ⟨.assign target' value' ⟨e'.span.start, value'.span.finish⟩, hbare, .simple hpos hopen fun g hg => ?_⟩
  rw [hstop]
  unfold simpleStatement
  rw [bind_ok (hg (.of_grammar hlast rfl hread) (.inr ⟨rfl, by decide⟩))]
  refine (check_yes (List.mem_singleton.2 hequals) _ _).trans ?_
  have hlen : 0 < ts.length := by
    obtain ⟨-, o, us, rfl, -⟩ := he
    exact Nat.succ_pos _
  rw [bind_ok (hg (.of_grammar hlast rfl hassign) (.inl (by omega)))]
  rfl

end

/-! ## Leaving a loop -/

/-- The tag of an extension is read by it. -/
theorem Grammar.Gives.tag {name : Text} {x : Stmt} (hpos : pos < s.tokens.size - 1)
    (hk : (s.get pos).kind = .name) (hv : (s.get pos).value = name)
    (hfind : find name = some Extension.loopControls)
    (h : (if name = Text.ofString "break" then Stmt.breakLoop (s.get pos).span
      else .continueLoop (s.get pos).span) = x) : Gives find s .statement pos (.one x) (pos + 1) := by
  refine .of_step hpos fun g _ => ?_
  show (current >>= fun token => _) s pos = _
  rw [current_bind]
  simp only [hk, hv, hfind]
  refine (advance_bind (by rw [hk]; nofun) _).trans ?_
  rw [hv, ← h]
  split <;> rfl

theorem Passage.Read.breakLoop {span : Span} (ht : t.kind = .name) (hv : t.value = Text.ofString "break")
    (hfind : find (Text.ofString "break") = some Extension.loopControls) :
    (Passage.stmt (.breakLoop span)).Read find s [t] := by
  intro pos b rest hat _
  refine ⟨.breakLoop (s.get pos).span, rfl, ?_⟩
  exact .tag (hat.lt (by simp)) (hat.kind.trans ht) (hat.get ▸ hv) hfind (if_pos rfl)

theorem Passage.Read.continueLoop {span : Span} (ht : t.kind = .name) (hv : t.value = Text.ofString "continue")
    (hfind : find (Text.ofString "continue") = some Extension.loopControls) :
    (Passage.stmt (.continueLoop span)).Read find s [t] := by
  intro pos b rest hat _
  refine ⟨.continueLoop (s.get pos).span, rfl, ?_⟩
  exact .tag (hat.lt (by simp)) (hat.kind.trans ht) (hat.get ▸ hv) hfind (if_neg (by decide))

end Stencil
