/-
Conditionals with further branches. Each further branch is a conditional in the else body of the one before it; written
out that way, with a tag of its own that closes it, it is read as the same tree. Both forms are read branch by branch:
what stands behind a branch is the same list of branches in one form, and a body of one conditional in the other.
-/
import Stencil.Proofs.Context.Body

namespace Stencil

open Stencil.Parser Grammar

/-! ## The two forms -/

/-- The tokens that the tags of conditionals are made of. -/
structure BranchTags where
  opening : Token
  closing : Token
  ifWord : Token
  elifWord : Token
  elseWord : Token
  endWord : Token
  opening_kind : opening.kind = .blockBegin
  closing_kind : closing.kind = .blockEnd
  ifWord_kind : ifWord.kind = .keyword .ifTag
  elifWord_kind : elifWord.kind = .keyword .elifTag
  elseWord_kind : elseWord.kind = .keyword .elseTag
  endWord_kind : endWord.kind = .keyword .endIf

/-- A branch: the tokens of its condition and of its body, and what these are read as. -/
structure Clause where
  test : List Token
  body : List Token
  cond : Expr
  stmts : List Stmt

/-- An else body: its tokens, and what these are read as. -/
structure ElseClause where
  body : List Token
  stmts : List Stmt

namespace BranchTags

variable (w : BranchTags) (last : Option ElseClause)

/-- A branch behind its word, up to the begin of the next tag. -/
def clause (c : Clause) : List Token := c.test ++ w.closing :: c.body ++ [w.opening]

/-- What stands behind the begin of the tag that ends the last branch. -/
def ending : Option ElseClause → List Token
  | none => [w.endWord]
  | some e => w.elseWord :: w.closing :: e.body ++ [w.opening, w.endWord]

/-- Further branches, each behind a word `elif`. -/
def flat : List Clause → List Token
  | [] => w.ending last
  | c :: cs => w.elifWord :: w.clause c ++ flat cs

/-- Further branches, each the first one of a conditional in an else body. -/
def nested : List Clause → List Token
  | [] => w.ending last
  | c :: cs => w.elseWord :: w.closing :: w.opening :: w.ifWord :: w.clause c ++ nested cs ++
      [w.closing, w.opening, w.endWord]

end BranchTags

/-- The else body that further branches amount to. -/
def Clause.nest (elseBody : List Stmt) : List Clause → List Stmt
  | [] => elseBody
  | c :: cs => [.branch c.cond c.stmts (Clause.nest elseBody cs) .none]

/-- The condition is consumed before the end of its tag, and the body up to a tag that ends it. -/
structure Environment.ReadsClause (env : Environment) (w : BranchTags) (c : Clause) : Prop where
  test : env.grammar.Consumes (.tuple (.expression true)) c.test w.closing c.cond
  body : env.ReadsBody branchEnds c.body w.opening c.stmts

/-- The else body is consumed up to the tag that closes the conditional. -/
def Environment.ReadsElse (env : Environment) (w : BranchTags) (last : Option ElseClause) : Prop :=
  ∀ e ∈ last, env.ReadsBody [.keyword .endIf] e.body w.opening e.stmts

/-! ## Branch by branch -/

variable {env : Environment} {w : BranchTags} {c : Clause} {cs : List Clause} {last : Option ElseClause}
variable {s : Stream} {pos stop : Nat} {u : Token} {us : List Token}

namespace BranchTags

variable (w last)

theorem ending_head : ∃ u us, w.ending last = u :: us ∧ u.kind ∈ branchEnds := by
  cases last with
  | none => exact ⟨_, _, rfl, by rw [w.endWord_kind]; decide⟩
  | some e => exact ⟨_, _, rfl, by rw [w.elseWord_kind]; decide⟩

theorem flat_head (cs : List Clause) : ∃ u us, w.flat last cs = u :: us ∧ u.kind ∈ branchEnds := by
  cases cs with
  | nil => exact w.ending_head last
  | cons c cs => exact ⟨_, _, rfl, by rw [w.elifWord_kind]; decide⟩

theorem nested_head (cs : List Clause) : ∃ u us, w.nested last cs = u :: us ∧ u.kind ∈ branchEnds := by
  cases cs with
  | nil => exact w.ending_head last
  | cons c cs => exact ⟨_, _, rfl, by rw [w.elseWord_kind]; decide⟩

end BranchTags

section

variable (hlast : s.last.kind = .eof)
include hlast

/-- A branch before a word that ends it. -/
theorem Environment.ReadsClause.branch (h : env.ReadsClause w c) (hs : s.Shows pos (w.clause c ++ [u]))
    (hu : u.kind ∈ branchEnds) :
    ∃ test body, test.bare = c.cond.bare ∧ body.map Stmt.bare = c.stmts.map Stmt.bare ∧
      ∀ g p start, p < pos → Inherits (Extension.find? env.extensions) s g p 0 →
        Grammar.branch g start s pos = .ok ⟨start, test, body⟩ (pos + (w.clause c).length) := by
  have hlength : pos + (w.clause c).length = pos + c.test.length + c.body.length + 2 := by
    simp only [BranchTags.clause, List.length_append, List.length_cons, List.length_nil]; omega
  simp only [BranchTags.clause, List.append_assoc, List.cons_append, List.nil_append] at hs
  rw [Stream.shows_append, Stream.shows_cons] at hs
  obtain ⟨hs_test, hs_close, hs_body⟩ := hs
  obtain ⟨test, hread, htest⟩ := h.test.gives (by rw [w.closing_kind]; nofun) (by rw [w.closing_kind]; nofun) hlast
    (Stream.shows_append.2 ⟨hs_test, Stream.shows_singleton.2 hs_close⟩)
  obtain ⟨body, hbody, hreadBody, -⟩ := (h.body.body (by decide) w.opening_kind).statements (by decide) hlast
    w.closing_kind (Stream.shows_cons.2 ⟨hs_close, hs_body⟩) hu
  refine ⟨test, body, htest, hbody, fun g p start hp hg => ?_⟩
  unfold Grammar.branch
  rw [hlength, bind_ok (hg hread (.inl hp)), bind_ok (hg hreadBody (.inl (by omega)))]
  rfl

/-- A conditional, of which the branches behind the first one are known. -/
theorem Environment.ReadsClause.conditional (h : env.ReadsClause w c)
    (hs : s.Shows pos (w.ifWord :: w.clause c ++ u :: us)) (hu : u.kind ∈ branchEnds) {rest : Branches}
    (hrest : Gives (Extension.find? env.extensions) s .branches (pos + (w.ifWord :: w.clause c).length) rest stop) :
    ∃ x, Gives (Extension.find? env.extensions) s .conditional pos x stop ∧
      ∀ ys, (∀ place, (nestBranches place rest).map Stmt.bare = ys.map Stmt.bare) →
        x.bare = (Stmt.branch c.cond c.stmts ys .none).bare := by
  have hlength : pos + (w.ifWord :: w.clause c).length = pos + 1 + (w.clause c).length := by
    rw [List.length_cons]; omega
  rw [hlength] at hrest
  rw [List.cons_append, Stream.shows_cons] at hs
  obtain ⟨hs_if, hs_clause⟩ := hs
  have hshows : s.Shows (pos + 1) (w.clause c ++ [u]) := by
    rw [Stream.shows_append, Stream.shows_cons] at hs_clause
    exact Stream.shows_append.2 ⟨hs_clause.1, Stream.shows_singleton.2 hs_clause.2.1⟩
  obtain ⟨test, body, htest, hbody, hread⟩ := h.branch hlast hshows hu
  have hword : (s.get pos).kind = .keyword .ifTag := (Stream.kind_of_content hs_if).trans w.ifWord_kind
  have hpos : pos < s.tokens.size - 1 := Stream.lt_last hlast (by rw [hword]; decide)
  refine ⟨branchStmt (s.endBefore stop) ⟨(s.get pos).span.start, test, body⟩ (nestBranches (s.endBefore stop) rest),
    .of_step hpos fun g hg => ?_, fun ys hys => ?_⟩
  · refine (expect_bind hword (by decide) _).trans ?_
    refine (bind_ok (hread g pos _ (Nat.lt_succ_self pos) hg.behind) _).trans ?_
    rw [bind_ok (hg hrest (.inl (by omega)))]
    rfl
  · rw [branchStmt, Stmt.bare, Stmt.bare, Stmt.bares_eq_map, Stmt.bares_eq_map, Stmt.bares_eq_map, Stmt.bares_eq_map,
      htest, hbody, hys]

/-- What stands behind the last branch holds no further branch. -/
theorem Environment.ReadsElse.ending (he : env.ReadsElse w last) (hs : s.Shows pos (w.ending last)) :
    ∃ body, body.map Stmt.bare = (last.elim [] ElseClause.stmts).map Stmt.bare ∧
      Gives (Extension.find? env.extensions) s .branches pos ⟨[], body⟩ (pos + (w.ending last).length) := by
  cases last with
  | none =>
    have hword : (s.get pos).kind = .keyword .endIf :=
      (Stream.kind_of_content (Stream.shows_singleton.1 hs)).trans w.endWord_kind
    have hpos : pos < s.tokens.size - 1 := Stream.lt_last hlast (by rw [hword]; decide)
    refine ⟨[], rfl, .of_step hpos fun g _ => ?_⟩
    refine (advance_bind (by rw [hword]; decide) _).trans ?_
    rw [hword]
    rfl
  | some e =>
    have hlength : pos + (w.ending (some e)).length = pos + 1 + e.body.length + 3 := by
      simp only [BranchTags.ending, List.length_append, List.length_cons, List.length_nil]; omega
    rw [BranchTags.ending, List.cons_append, Stream.shows_cons] at hs
    obtain ⟨hs_else, hs_body⟩ := hs
    have hword : (s.get pos).kind = .keyword .elseTag := (Stream.kind_of_content hs_else).trans w.elseWord_kind
    have hpos : pos < s.tokens.size - 1 := Stream.lt_last hlast (by rw [hword]; decide)
    obtain ⟨body, hbody, -, hread⟩ := ((he e rfl).body (by decide) w.opening_kind).statements (by decide) hlast
      w.closing_kind hs_body (List.mem_singleton.2 w.endWord_kind)
    rw [hlength]
    refine ⟨body, hbody, .of_step hpos fun g hg => ?_⟩
    refine (advance_bind (by rw [hword]; decide) _).trans ?_
    rw [hword]
    exact bind_ok (hg hread (.inl (Nat.lt_succ_self pos))) _

/-- Further branches behind words `elif` are read as a list. -/
theorem Environment.reads_flat (hc : ∀ c ∈ cs, env.ReadsClause w c) (he : env.ReadsElse w last)
    (hs : s.Shows pos (w.flat last cs)) :
    ∃ rest, Gives (Extension.find? env.extensions) s .branches pos rest (pos + (w.flat last cs).length) ∧
      ∀ place, (nestBranches place rest).map Stmt.bare =
        (Clause.nest (last.elim [] ElseClause.stmts) cs).map Stmt.bare := by
  induction cs generalizing pos with
  | nil =>
    obtain ⟨body, hbody, hread⟩ := he.ending hlast hs
    exact ⟨_, hread, fun _ => hbody⟩
  | cons c cs ih =>
    obtain ⟨hc, hcs⟩ := List.forall_mem_cons.1 hc
    obtain ⟨u, us, hhead, hu⟩ := w.flat_head last cs
    have hlength : pos + (w.flat last (c :: cs)).length = pos + 1 + (w.clause c).length + (w.flat last cs).length := by
      simp only [BranchTags.flat, List.length_append, List.length_cons]; omega
    rw [BranchTags.flat, List.cons_append, Stream.shows_cons, Stream.shows_append] at hs
    obtain ⟨hs_elif, hs_clause, hs_rest⟩ := hs
    obtain ⟨rest, hrest, hnest⟩ := ih hcs hs_rest
    rw [hhead, Stream.shows_cons] at hs_rest
    obtain ⟨test, body, htest, hbody, hread⟩ := hc.branch hlast
      (Stream.shows_append.2 ⟨hs_clause, Stream.shows_singleton.2 hs_rest.1⟩) hu
    have hword : (s.get pos).kind = .keyword .elifTag := (Stream.kind_of_content hs_elif).trans w.elifWord_kind
    have hpos : pos < s.tokens.size - 1 := Stream.lt_last hlast (by rw [hword]; decide)
    refine ⟨⟨⟨(s.get pos).span.start, test, body⟩ :: rest.elifs, rest.elseBody⟩, .of_step hpos fun g hg => ?_,
      fun place => ?_⟩
    · rw [hlength]
      refine (advance_bind (by rw [hword]; decide) _).trans ?_
      rw [hword]
      refine (bind_ok (hread g pos _ (Nat.lt_succ_self pos) hg.behind) _).trans ?_
      rw [bind_ok (hg hrest (.inl (by omega)))]
      rfl
    · show [(branchStmt place ⟨_, test, body⟩ (nestBranches place rest)).bare] =
        [(Stmt.branch c.cond c.stmts (Clause.nest _ cs) .none).bare]
      rw [branchStmt, Stmt.bare, Stmt.bare, Stmt.bares_eq_map, Stmt.bares_eq_map, Stmt.bares_eq_map,
        Stmt.bares_eq_map, htest, hbody, hnest]

/-- Further branches in else bodies are read as a body of one conditional. -/
theorem Environment.reads_nested (hc : ∀ c ∈ cs, env.ReadsClause w c) (he : env.ReadsElse w last)
    (hs : s.Shows pos (w.nested last cs)) :
    ∃ rest, Gives (Extension.find? env.extensions) s .branches pos rest (pos + (w.nested last cs).length) ∧
      ∀ place, (nestBranches place rest).map Stmt.bare =
        (Clause.nest (last.elim [] ElseClause.stmts) cs).map Stmt.bare := by
  induction cs generalizing pos with
  | nil =>
    obtain ⟨body, hbody, hread⟩ := he.ending hlast hs
    exact ⟨_, hread, fun _ => hbody⟩
  | cons c cs ih =>
    obtain ⟨hc, hcs⟩ := List.forall_mem_cons.1 hc
    obtain ⟨u, us, hhead, hu⟩ := w.nested_head last cs
    have hlength : pos + (w.nested last (c :: cs)).length =
        pos + 1 + 1 + 1 + (w.ifWord :: w.clause c).length + (w.nested last cs).length + 2 + 1 := by
      simp only [BranchTags.nested, List.length_append, List.length_cons, List.length_nil]; omega
    simp only [BranchTags.nested, List.append_assoc, List.cons_append] at hs
    rw [Stream.shows_cons, Stream.shows_cons, Stream.shows_cons] at hs
    obtain ⟨hs_else, hs_close, hs_open, hs_inner⟩ := hs
    rw [← List.cons_append, Stream.shows_append, Stream.shows_append] at hs_inner
    obtain ⟨hs_first, hs_rest, hs_end⟩ := hs_inner
    rw [Stream.shows_cons, Stream.shows_cons, Stream.shows_singleton] at hs_end
    obtain ⟨hs_close', hs_open', hs_word'⟩ := hs_end
    obtain ⟨rest, hrest, hnest⟩ := ih hcs hs_rest
    obtain ⟨x, hx, hbare⟩ := hc.conditional hlast
      (Stream.shows_append.2 ⟨hs_first, hhead ▸ hs_rest⟩) hu hrest
    have kind {i : Nat} {t : Token} (h : (s.get i).content = t.content) : (s.get i).kind = t.kind :=
      Stream.kind_of_content h
    have hpos {i : Nat} {k : TokenKind} (hk : (s.get i).kind = k) (hne : k ≠ .eof) : i < s.tokens.size - 1 :=
      Stream.lt_last hlast (by rwa [hk])
    have helse := (kind hs_else).trans w.elseWord_kind
    have hclose := (kind hs_close).trans w.closing_kind
    have hopen := (kind hs_open).trans w.opening_kind
    have hif := (kind (Stream.shows_cons.1 hs_first).1).trans w.ifWord_kind
    have hclose' := (kind hs_close').trans w.closing_kind
    have hopen' := (kind hs_open').trans w.opening_kind
    have hend' := (kind hs_word').trans w.endWord_kind
    -- the conditional is all that stands in the else body
    have hrest' : Gives (Extension.find? env.extensions) s (.content (some [.keyword .endIf]) []) _ [] _ :=
      .content_last (hpos hopen' nofun) hopen' (List.mem_singleton.2 hend')
    have hcontent : Gives (Extension.find? env.extensions) s (.content (some [.keyword .endIf]) []) _ [x] _ :=
      .content_tag (hpos hopen nofun) hopen (by rw [hif]; decide) (.statement (hpos hif nofun) hif rfl hx) hclose'
        (by omega) hrest'
    have hbody := (Gives.statements (by decide) (hpos hclose nofun) hclose hcontent
      (List.mem_singleton.2 hend')).2
    refine ⟨⟨[], [x]⟩, .of_step (hpos helse nofun) fun g hg => ?_, fun place => ?_⟩
    · rw [hlength]
      refine (advance_bind (by rw [helse]; decide) _).trans ?_
      rw [helse]
      exact bind_ok (hg hbody (.inl (Nat.lt_succ_self pos))) _
    · rw [Clause.nest, List.map_singleton, ← hbare _ hnest]
      rfl

end

/-! ## Both forms -/

/-- A conditional with further branches is read as the same tree, up to spans, as the one in which each of them is a
conditional of its own in the else body of the branch before it, closed just before that one: for all branches, and for
all else bodies, that are read by themselves, wherever the two stand. -/
theorem Environment.chain_reads_nested (env : Environment) (w : BranchTags) {c : Clause} {cs : List Clause}
    {last : Option ElseClause} (hc : ∀ c' ∈ c :: cs, env.ReadsClause w c') (he : env.ReadsElse w last)
    {s s' : Stream} {pos pos' : Nat} (hlast : s.last.kind = .eof) (hlast' : s'.last.kind = .eof)
    (hs : s.Shows pos (w.ifWord :: w.clause c ++ w.flat last cs))
    (hs' : s'.Shows pos' (w.ifWord :: w.clause c ++ w.nested last cs)) :
    ∃ x x', env.grammar .conditional s pos = .ok x (pos + (w.ifWord :: w.clause c ++ w.flat last cs).length) ∧
      env.grammar .conditional s' pos' = .ok x' (pos' + (w.ifWord :: w.clause c ++ w.nested last cs).length) ∧
      x.bare = x'.bare ∧
      x.bare = (Stmt.branch c.cond c.stmts (Clause.nest (last.elim [] ElseClause.stmts) cs) .none).bare := by
  obtain ⟨hc, hcs⟩ := List.forall_mem_cons.1 hc
  obtain ⟨u, us, hhead, hu⟩ := w.flat_head last cs
  obtain ⟨u', us', hhead', hu'⟩ := w.nested_head last cs
  obtain ⟨rest, hrest, hnest⟩ := reads_flat hlast hcs he (Stream.shows_append.1 hs).2
  obtain ⟨rest', hrest', hnest'⟩ := reads_nested hlast' hcs he (Stream.shows_append.1 hs').2
  rw [Nat.add_assoc, ← List.length_append] at hrest hrest'
  rw [hhead] at hs
  rw [hhead'] at hs'
  obtain ⟨x, hx, hbare⟩ := hc.conditional hlast hs hu hrest
  obtain ⟨x', hx', hbare'⟩ := hc.conditional hlast' hs' hu' hrest'
  exact ⟨x, x', hx.grammar, hx'.grammar, (hbare _ hnest).trans (hbare' _ hnest').symm, hbare _ hnest⟩

/-- Tags whose tokens have no values. -/
def BranchTags.plain : BranchTags where
  opening := .of .blockBegin
  closing := .of .blockEnd
  ifWord := .of (.keyword .ifTag)
  elifWord := .of (.keyword .elifTag)
  elseWord := .of (.keyword .elseTag)
  endWord := .of (.keyword .endIf)
  opening_kind := rfl
  closing_kind := rfl
  ifWord_kind := rfl
  elifWord_kind := rfl
  elseWord_kind := rfl
  endWord_kind := rfl

/-- Two branches, of which the second one prints, and an empty else body. -/
theorem Environment.chain_reads_nested_print :
    let named (n : String) := Token.named (Text.ofString n)
    let w := BranchTags.plain
    ∃ c d e x x', c.test = [named "a"] ∧ c.body = [] ∧ d.test = [named "b"] ∧
      d.body = [.of .variableBegin, named "x", .of .variableEnd] ∧ e.body = [] ∧
      standard.grammar .conditional
        (Stream.holding (w.ifWord :: w.clause c ++ w.flat (some e) [d])) 0 = .ok x 15 ∧
      standard.grammar .conditional
        (Stream.holding (w.ifWord :: w.clause c ++ w.nested (some e) [d])) 0 = .ok x' 21 ∧
      x.bare = x'.bare := by
  intro named w
  have hbuiltin : standard.IsBuiltin := fun x hx => absurd hx List.not_mem_nil
  have hend : w.endWord.kind ∈ branchEnds := by decide
  obtain ⟨a, ha⟩ : ∃ a, standard.grammar.Consumes (.tuple (.expression true)) [named "a"] w.closing a :=
    Consumes.of_check (by decide +kernel)
  obtain ⟨b, hb⟩ : ∃ b, standard.grammar.Consumes (.tuple (.expression true)) [named "b"] w.closing b :=
    Consumes.of_check (by decide +kernel)
  obtain ⟨xs, hxs⟩ : ∃ xs, standard.ReadsBody branchEnds [] w.opening xs :=
    ReadsBody.of_check hbuiltin hend (by decide +kernel)
  obtain ⟨ys, hys⟩ : ∃ ys, standard.ReadsBody branchEnds [.of .variableBegin, named "x", .of .variableEnd]
      w.opening ys := ReadsBody.of_check hbuiltin hend (by decide +kernel)
  obtain ⟨zs, hzs⟩ : ∃ zs, standard.ReadsBody [.keyword .endIf] [] w.opening zs :=
    ReadsBody.of_check (w := w.endWord) hbuiltin (by decide) (by decide +kernel)
  have hclauses : ∀ c ∈ [Clause.mk _ _ a xs, .mk _ _ b ys], standard.ReadsClause w c :=
    List.forall_mem_cons.2 ⟨⟨ha, hxs⟩, List.forall_mem_singleton.2 ⟨hb, hys⟩⟩
  have helse : standard.ReadsElse w (some ⟨[], zs⟩) := by
    rintro _ ⟨⟩
    exact hzs
  obtain ⟨x, x', hx, hx', hbare, -⟩ := standard.chain_reads_nested w hclauses helse (Stream.holding_holds _).last
    (Stream.holding_holds _).last (Stream.holding_holds _).shows (Stream.holding_holds _).shows
  exact ⟨_, _, _, x, x', rfl, rfl, rfl, rfl, rfl, hx, hx', hbare⟩

end Stencil
