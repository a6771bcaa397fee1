/-
Only properly nested tags are read. `Rule.NestsIn` says of every rule for statements how the tags of the stretch
that it reads and the statements that it gives nest; it holds of all that is composed (`Composes.nests`), and so
the tags of every template that is read are properly nested, and its statements nest as they do
(`tags_nest`).
-/
import Stencil.Proofs.Blocks.Heads
import Stencil.Proofs.Tree.Below

namespace Stencil

open Stencil.Grammar

theorem TokenKind.not_isBlockBegin_of_isKeyword {k : TokenKind} (h : k.isKeyword = true) :
    k.isBlockBegin = false := by
  cases k <;> first | rfl | cases h

namespace Stream

variable (s : Stream)

/-- The stretch holds the tags of a body, and behind them the tag that ends it. -/
def EndsBody (a b : Nat) (ss : List Stmt) (e : Token) : Prop :=
  a ≤ b ∧ ∃ ts, s.heads a b = ts ++ [e] ∧ Nests .body ts ss

/-- The stretch holds the tags of a body up to the end of the source, or up to a word that ends it. -/
def Runs (ends : Option (List TokenKind)) (a b : Nat) (ss : List Stmt) : Prop :=
  a ≤ b ∧ ∃ ts us, s.heads a b = ts ++ us ∧ Nests .body ts ss ∧
    (us = [] ∧ (s.get b).kind = .eof ∨ us = [s.get b] ∧ (s.get b).kind ∈ ends.getD [])

/-- The stretch behind a word holds the tags of a statement that begins with it. -/
def HoldsBlock (a b : Nat) (ss : List Stmt) : Prop := a ≤ b ∧ Nests .body (s.get a :: s.heads a b) ss

variable {s} {a b c p q : Nat} {ss : List Stmt} {e : Token} {ends : Option (List TokenKind)}

theorem EndsBody.before (h : s.EndsBody b c ss e) (hab : s.Headless a b) : s.EndsBody a c ss e := by
  obtain ⟨hle, ts, hts, hnests⟩ := h
  refine ⟨Nat.le_trans hab.1 hle, ts, ?_, hnests⟩
  rw [← heads_append hab.1 hle, hab.2, hts, List.nil_append]

theorem EndsBody.behind (h : s.EndsBody a b ss e) (hbc : s.Headless b c) : s.EndsBody a c ss e := by
  obtain ⟨hle, ts, hts, hnests⟩ := h
  refine ⟨Nat.le_trans hle hbc.1, ts, ?_, hnests⟩
  rw [← heads_append hle hbc.1, hbc.2, hts, List.append_nil]

/-- Behind a body its last word goes on with what follows it. -/
theorem EndsBody.further {us : List Token} (h : s.EndsBody a b ss e) (hbc : b ≤ c) (hus : e :: s.heads b c = us) :
    ∃ ts, s.heads a c = ts ++ us ∧ Nests .body ts ss := by
  obtain ⟨hle, ts, hts, hnests⟩ := h
  refine ⟨ts, ?_, hnests⟩
  rw [← heads_append hle hbc, hts, List.append_assoc, List.singleton_append, hus]

/-- A stretch with the tags of some statements before one with those of a body. -/
theorem Runs.before {ts : List Token} {ss' : List Stmt} (h : s.Runs ends b c ss) (hab : a ≤ b)
    (hts : s.heads a b = ts) (hnests : Nests .body ts ss') : s.Runs ends a c (ss' ++ ss) := by
  obtain ⟨hle, ts', us, hheads, hnests', hend⟩ := h
  refine ⟨Nat.le_trans hab hle, ts ++ ts', us, ?_, hnests.append hnests', hend⟩
  rw [← heads_append hab hle, hts, hheads, List.append_assoc]

/-- A body that a keyword stands behind has not come to the end of the source. -/
theorem Runs.endsBody (h : s.Runs ends a b ss) (hb : (s.get b).kind.isKeyword = true) :
    s.EndsBody a b ss (s.get b) := by
  obtain ⟨hle, ts, us, hheads, hnests, ⟨-, heof⟩ | ⟨rfl, -⟩⟩ := h
  · exact absurd heof (TokenKind.ne_eof_of_isKeyword hb)
  · exact ⟨hle, ts, hheads, hnests⟩

/-- The tags of a body with one word before them and one behind. -/
theorem EndsBody.framed {st : Stmt} {k k' : Keyword} (h : s.EndsBody p q ss e) (hin : s.Inside a p)
    (ha : (s.get a).kind = .keyword k) (he : e.kind = .keyword k') (hf : st.Frames k k' ss)
    (hs : st.span.start = (s.get a).span.start) : s.HoldsBlock a q [st] := by
  obtain ⟨hle, ts, hts, hnests⟩ := h.before hin.headless
  exact ⟨hle, by rw [hts]; exact .framed ha he hf hs hnests⟩

/-- A tag that no body belongs to. -/
theorem Inside.holds {st : Stmt} (h : s.Inside a b) (ha : (s.get a).kind.delimitsBody = false)
    (hst : st.isPlain = true) : s.HoldsBlock a b [st] :=
  ⟨h.1, by rw [h.headless.2]; exact .plain ha hst⟩

/-- The words of the tags from the begin of a tag on, up to behind its end. -/
theorem heads_tag (hk : (s.get a).kind = .blockBegin) (hle : a + 1 ≤ b) (hb : (s.get b).kind = .blockEnd) :
    s.heads a (b + 1) = s.get (a + 1) :: s.heads (a + 1) b := by
  rw [← heads_append (Nat.le_trans (Nat.le_succ a) hle) (Nat.le_succ b), heads_other hb rfl, List.append_nil,
    ← heads_append (Nat.le_succ a) hle, heads_begin hk]
  rfl

end Stream

theorem output_nests (es : List Expr) : Nests .body [] (output es) := by
  cases es with
  | nil => exact .nil
  | cons e es => exact .output _ _

/-! ## Rules -/

/-- How the tags of a body nest; where it ends with a word of a tag, that word is the last one. -/
def Rule.NestsBody (s : Stream) (pos : Nat) (ss : List Stmt) (q : Nat) : Rule .body → Prop
  | .content ends _ => s.Runs ends pos q ss
  | .statements ends dropEnd => ends.all TokenKind.isKeyword = true →
      ∃ e, s.EndsBody pos q ss e ∧ e.kind ∈ ends ∧ (dropEnd = false → e = s.get q)

/-- How the tags of a statement nest. -/
def Rule.NestsStmt (s : Stream) (pos : Nat) (st : Stmt) (q : Nat) : Rule .stmt → Prop
  | .assign _ => s.Inside pos q ∧ st.isPlain = true
  | _ => s.HoldsBlock pos q [st]

/-- How the tags that a rule reads nest, and the statements that it gives with them. -/
def Rule.NestsIn (s : Stream) (pos q : Nat) : {p : Phrase} → Rule p → p.Tree → Prop
  | .stmt, r, (st : Stmt) => r.NestsStmt s pos st q
  | .splice, _, (sp : Splice) => s.Behind pos .blockBegin → s.HoldsBlock pos q sp.toList
  | .body, r, (ss : List Stmt) => r.NestsBody s pos ss q
  | .branches, _, (bs : Branches) => (s.get pos).kind ∈ branchEnds → pos ≤ q ∧
      ∃ ts e, s.get pos :: s.heads pos q = ts ++ [e] ∧ e.kind = .keyword .endIf ∧
        ∀ stop, Nests .branches ts (nestBranches stop bs)
  | .names, _, _ | .signature, _, _ => s.Inside pos q
  | .template, _, (t : Template) => (s.get q).kind = .eof ∧ Nests .body (s.heads pos q) t.body
  | _, _, _ => True

theorem Rule.NestsStmt.holds {s : Stream} {k : Keyword} {r : Rule .stmt} {pos q : Nat} {st : Stmt}
    (hr : statementRule? k = some r) (h : r.NestsStmt s pos st q) : s.HoldsBlock pos q [st] := by
  cases k <;> cases hr <;> exact h

section

variable {s : Stream} {pos q : Nat} {e : Expr}

/-- A statement that is an expression begins where its tag does. -/
theorem Stream.reads_nests (h : s.reads (.tuple (.expression true)) pos e q) (hb : s.Behind pos .blockBegin) :
    s.Inside pos q ∧ (s.get pos).kind.delimitsBody = false := by
  obtain ⟨i, rfl, hbegin⟩ := hb
  exact ⟨h.1.isInside (Stream.opens_succ hbegin (by decide)) rfl, h.1.begins⟩

/-- An expression may stand behind the parameters in parentheses. -/
theorem Composes.opens_behind {sig : Signature} (h : Composes s s.reads .signature pos sig q) : s.Opens q := by
  cases h with
  | signature _ _ hc => exact Stream.opens_succ hc (by decide)

/-- The body of a statement, behind the end of its tag, up to a word that ends it. -/
theorem Stream.Runs.statements {ends : List TokenKind} {p : Nat} {body : List Stmt}
    (h : s.Runs (some ends) p q body) (hp : s.Headless pos p) (hword : (s.get q).kind.isKeyword = true)
    (he : (s.get q).kind ∈ ends) (dropEnd : Bool) :
    ∃ e, s.EndsBody pos (if dropEnd = true then s.next q else q) body e ∧ e.kind ∈ ends ∧
      (dropEnd = false → e = s.get (if dropEnd = true then s.next q else q)) := by
  have hbody := (h.endsBody hword).before hp
  refine ⟨s.get q, ?_, he, fun hdrop => by rw [hdrop]; rfl⟩
  cases dropEnd with
  | false => exact hbody
  | true =>
    rw [if_pos rfl, Stream.next_of_ne (TokenKind.ne_eof_of_isKeyword hword)]
    exact hbody.behind (.one rfl (TokenKind.not_isBlockBegin_of_isKeyword hword))

/-- A body whose last word is kept ends before that word. -/
theorem Rule.NestsIn.kept {ends : List TokenKind} {body : List Stmt}
    (h : (Rule.statements ends false).NestsIn s pos q body) (hends : ends.all TokenKind.isKeyword = true) :
    s.EndsBody pos q body (s.get q) ∧ (s.get q).kind ∈ ends := by
  obtain ⟨e, hbody, he, hlast⟩ := h hends
  obtain rfl := hlast rfl
  exact ⟨hbody, he⟩

/-- The test and the body of a branch, and the branches behind it. -/
theorem Stream.EndsBody.branches {p p' : Nat} {body : List Stmt} {bs : Branches}
    (h : s.EndsBody p p' body (s.get p')) (hin : s.Inside pos p) (he : (s.get p').kind ∈ branchEnds)
    (hbranches : Rule.branches.NestsIn s p' q bs) :
    pos ≤ q ∧ ∃ ts us c, s.heads pos q = ts ++ (us ++ [c]) ∧ c.kind = .keyword .endIf ∧ Nests .body ts body ∧
      ∀ stop, Nests .branches us (nestBranches stop bs) := by
  obtain ⟨hle, us, c, hus, hc, hbranches⟩ := hbranches he
  obtain ⟨ts, hts, hnests⟩ := (h.before hin.headless).further hle hus
  exact ⟨Nat.le_trans hin.1 (Nat.le_trans h.1 hle), ts, us, c, hts, hc, hnests, hbranches⟩

end

/-- The tags of all that is composed nest. -/
theorem Composes.nests {s : Stream} {p : Phrase} {r : Rule p} {pos q : Nat} {t : p.Tree}
    (h : Composes s s.reads r pos t q) : r.NestsIn s pos q t := by
  induction h with
  | keyword _ hr _ ih => exact fun _ => Rule.NestsStmt.holds hr ih
  | simple h _ =>
    intro hb
    obtain ⟨hin, hhead⟩ := Stream.reads_nests h hb
    exact hin.holds hhead rfl
  | assignment h _ ih =>
    intro hb
    obtain ⟨hin, hhead⟩ := Stream.reads_nests h hb
    exact (hin.append ih.1).holds hhead ih.2
  | doStatement hk h =>
    exact fun _ => (h.1.inside_behind id rfl hk rfl (by decide)).holds (by rw [hk]; rfl) rfl
  | breakLoop hk => exact fun _ => (Stream.Inside.one hk rfl).holds (by rw [hk]; rfl) rfl
  | continueLoop hk => exact fun _ => (Stream.Inside.one hk rfl).holds (by rw [hk]; rfl) rfl
  | assign ha _ h => exact ⟨h.1.inside_behind id rfl ha rfl (by decide), rfl⟩
  | @statements ends dropEnd pos p body q hc hb h he ih =>
    have hcolon : s.Headless pos (p + 1) := by
      rcases hc with rfl | ⟨hcolon, rfl⟩
      · exact .one hb rfl
      · exact (Stream.Headless.one hcolon rfl).append (.one hb rfl)
    exact fun hends => Stream.Runs.statements ih hcolon (List.all_eq_true.1 hends _ he) he dropEnd
  | data hk _ ih => exact Stream.Runs.before ih (Nat.le_succ _) (Stream.heads_other hk rfl) .nil
  | interpolation hk h hv _ ih =>
    have hin := h.1.isInside (Stream.opens_succ hk (by decide)) rfl
    have hhead := ((Stream.Headless.one hk rfl).append hin.headless).append (.one hv rfl)
    exact Stream.Runs.before ih hhead.1 hhead.2 .nil
  | @endTag ends pending pos hk he =>
    exact ⟨Nat.le_succ _, [], _, Stream.heads_begin hk, output_nests pending, .inr ⟨rfl, he⟩⟩
  | @tag ends pending pos splice p rest q hk _ _ hb _ ih ihr =>
    obtain ⟨hle, hnests⟩ := ih (Stream.behind_succ.2 hk)
    have hruns : s.Runs ends (p + 1) q rest := ihr
    have hbefore := hruns.before (by omega) (Stream.heads_tag hk hle hb) hnests
    rw [List.append_assoc]
    exact hbefore.before (Nat.le_refl pos) (Stream.Headless.nil pos).2 (output_nests pending)
  | @sourceEnd ends pending pos hk =>
    exact ⟨Nat.le_refl _, [], [], (Stream.Headless.nil _).2, output_nests pending, .inl ⟨rfl, hk⟩⟩
  | template _ ih =>
    obtain ⟨-, ts, us, hheads, hnests, hend⟩ := ih
    rcases hend with ⟨rfl, heof⟩ | ⟨-, hmem⟩
    · rw [List.append_nil] at hheads
      exact ⟨heof, by rw [hheads]; exact hnests⟩
    · exact absurd hmem List.not_mem_nil
  | loop hh _ he ih =>
    obtain ⟨hbody, -⟩ := ih.kept rfl
    obtain ⟨hle, ts, hts, hnests⟩ := (hbody.before hh.isInside.headless).behind (.one he rfl)
    exact ⟨hle, by rw [hts]; exact .loop hh.word he rfl hnests⟩
  | loopElse hh _ he _ ih ihe =>
    obtain ⟨hbody, -⟩ := ih.kept rfl
    obtain ⟨c, helse, hc, -⟩ := ihe rfl
    obtain ⟨hle, us, hus, hnests'⟩ := helse.before (.one he rfl)
    obtain ⟨ts, hts, hnests⟩ := (hbody.before hh.isInside.headless).further hle (congrArg (s.get _ :: ·) hus)
    exact ⟨Nat.le_trans hh.isInside.1 (Nat.le_trans hbody.1 hle),
      by rw [hts]; exact .loopElse hh.word he (List.mem_singleton.1 hc) rfl hnests hnests'⟩
  | conditional hk ht _ _ ih ihr =>
    have hin := ht.1.inside_behind id rfl hk rfl (by decide)
    obtain ⟨hbody, hword⟩ := ih.kept rfl
    obtain ⟨hle, ts, us, c, hts, hc, hnests, hbranches⟩ := hbody.branches hin hword ihr
    exact ⟨hle, by rw [hts]; exact .conditional hk hc rfl hnests (hbranches _)⟩
  | elifBranch hk ht _ _ ih ihr =>
    intro _
    have hin := ht.1.inside_behind id rfl hk rfl (by decide)
    obtain ⟨hbody, hword⟩ := ih.kept rfl
    obtain ⟨hle, ts, us, c, hts, hc, hnests, hbranches⟩ := hbody.branches hin hword ihr
    refine ⟨hle, _, c, ?_, hc, fun stop => .elifBranch hk rfl hnests (hbranches stop)⟩
    rw [hts, List.cons_append, List.append_assoc]
  | elseBranch hk _ ih =>
    intro _
    obtain ⟨e, hbody, he, -⟩ := ih rfl
    obtain ⟨hle, ts, hts, hnests⟩ := hbody.before (.one hk rfl)
    exact ⟨hle, _, e, by rw [hts, List.cons_append], List.mem_singleton.1 he, fun _ => .elseBranch hk hnests⟩
  | @noBranch pos hi he =>
    intro hmem
    simp only [branchEnds, List.mem_cons, List.not_mem_nil, or_false, hi, he, false_or] at hmem
    rw [Stream.next_of_ne (by rw [hmem]; exact TokenKind.noConfusion)]
    refine ⟨Nat.le_succ pos, [], s.get pos, ?_, hmem, fun _ => .noBranch⟩
    rw [(Stream.Headless.one hmem rfl).2]
    rfl
  | block hk hn _ ih =>
    obtain ⟨e, hbody, he, -⟩ := ih rfl
    exact hbody.framed (.cons hk rfl (.one hn rfl)) hk (List.mem_singleton.1 he) (.block ..) rfl
  | extend hk h => exact (h.1.inside_behind id rfl hk rfl (by decide)).holds (by rw [hk]; rfl) rfl
  | embed hk h => exact (h.1.inside_behind id rfl hk rfl (by decide)).holds (by rw [hk]; rfl) rfl
  | importAs hk h ha hb =>
    have hin := ((h.1.inside_behind id rfl hk rfl (by decide)).snoc ha.1 rfl).append hb.isInside
    exact hin.holds (by rw [hk]; rfl) rfl
  | importNames hk h hi _ hq ih =>
    have hnames := ((h.1.inside_behind id rfl hk rfl (by decide)).snoc hi rfl).append ih
    rcases hq with rfl | ⟨hcomma, rfl⟩
    · exact hnames.holds (by rw [hk]; rfl) rfl
    · exact (hnames.snoc hcomma rfl).holds (by rw [hk]; rfl) rfl
  | nameNone hp _ => exact hp.isInside
  | nameLast hp hn _ => exact hp.isInside.append hn.isInside
  | nameMore hp hn _ _ ih => exact (hp.isInside.append hn.isInside).append ih
  | print hk h =>
    exact (h.1.inside_behind (fun ho _ => ho) rfl hk rfl (by decide)).holds (by rw [hk]; rfl) rfl
  | signature ho _ hc ih => exact (Stream.Inside.cons ho rfl ih).snoc hc rfl
  | signatureEnd => exact .nil
  | required hp hb _ _ ih => exact (hp.isInside.append hb.isInside).append ih
  | optional hp hb hd he _ ih =>
    exact ((hp.isInside.append hb.isInside).append (he.1.inside_behind id rfl hd rfl (by decide))).append ih
  | define hk hb _ _ ihs ih =>
    obtain ⟨e, hbody, he, -⟩ := ih rfl
    have hin := (Stream.Inside.cons hk rfl hb.isInside).append ihs
    exact hbody.framed hin hk (List.mem_singleton.1 he) (.define ..) rfl
  | @callBlock pos sig p callee args span p' body q hk hs hs' hcall _ ihs ih =>
    obtain ⟨e, hbody, he, -⟩ := ih rfl
    -- the call stands behind the signature, or behind the word if there is none
    have hsig : s.Inside pos p ∧ s.Opens p := by
      by_cases hopen : (s.get (pos + 1)).kind = .symbol .openParen
      · exact ⟨.cons hk rfl (ihs hopen), (hs hopen).opens_behind⟩
      · obtain ⟨-, rfl⟩ := hs' hopen
        exact ⟨.one hk rfl, Stream.opens_succ hk (by decide)⟩
    have hin := hsig.1.append (hcall.1.isInside hsig.2 rfl)
    exact hbody.framed hin hk (List.mem_singleton.1 he) (.callBlock ..) rfl
  | filterBlock hk hf _ ih =>
    obtain ⟨e, hbody, he, -⟩ := ih rfl
    have hin := Stream.Inside.cons hk rfl (hf.1.isInside (.inr (Stream.behind_succ.2 hk)) rfl)
    exact hbody.framed hin hk (List.mem_singleton.1 he) (.filterBlock ..) rfl

/-! ## Templates -/

namespace Environment

/-- The block tags of a template that is read are properly nested, and the statements with bodies nest as their
tags do. -/
theorem tags_nest (env : Environment) (hb : env.IsBuiltin) (filename : Option Text) (source : Text)
    (doc : Document) (h : env.readTemplate filename source = .ok doc) :
    ∃ ts, env.tokens filename source = .ok ts ∧
      WellNested .body ((Token.heads ts).map Token.kind) ∧ Nests .body (Token.heads ts) doc.template.body := by
  obtain ⟨s, d, z, hts, hlayout, q, hdoc⟩ := readTemplate_composes hb h
  obtain ⟨hlast, hclose⟩ := hlayout.closes
  obtain ⟨heof, hnests⟩ := hdoc.nests
  -- the template ends at the end token, which begins no tag
  have hrest : s.heads (s.tokens.size - 1) q = [] := by
    unfold Stream.heads
    rw [Stream.places_eq_nil fun i hi _ => by rw [(hclose i).2 hi]; rfl, List.map_nil]
  have hheads : Token.heads s.tokens.toList = s.heads 0 q := by
    rw [Stream.heads_toList hlast, ← Stream.heads_append (Nat.zero_le _) ((hclose q).1 heof), hrest, List.append_nil]
  rw [← hheads] at hnests
  exact ⟨s.tokens.toList, hts, hnests.wellNested, hnests⟩

/-- A conditional with further branches in a loop with an `else`, and a macro in one of them. -/
theorem tags_nest_loop :
    let source : Text := Text.ofString (
      "\x7b% for a in b %\x7d\x7b% if a %\x7d\x7b% elif b %\x7d\x7b% macro m() %\x7dx" ++
      "\x7b% endmacro %\x7d\x7b% else %\x7d\x7b% break %\x7d\x7b% endif %\x7d\x7b% else %\x7d\x7b% endfor %\x7d")
    withLoopControls.IsBuiltin ∧ ∃ doc, withLoopControls.readTemplate none source = .ok doc ∧
      doc.template.body.map (fun st => (Node.stmt st).typeName) = ["For"].map Text.ofString ∧
      ∃ ts, withLoopControls.tokens none source = .ok ts ∧
        WellNested .body ((Token.heads ts).map Token.kind) ∧ Nests .body (Token.heads ts) doc.template.body := by
  intro source
  have hread := withLoopControls.readTemplate_of_counted none source (fun
    | .ok t => decide (t.body.map (fun st => (Node.stmt st).typeName) = ["For"].map Text.ofString)
    | .error _ => false) (by decide +kernel)
  clear_value source
  cases hdoc : withLoopControls.readTemplate none source with
  | error e => rw [hdoc] at hread; cases hread
  | ok doc =>
    rw [hdoc] at hread
    exact ⟨withLoopControls_isBuiltin, doc, rfl, of_decide_eq_true hread,
      withLoopControls.tags_nest withLoopControls_isBuiltin none source doc hdoc⟩

end Environment
end Stencil
