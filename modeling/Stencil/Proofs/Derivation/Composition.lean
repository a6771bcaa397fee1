/-
The rules for statements: what they read is composed of what is read of expressions, if that holds of the rules
inside them, and the grammar as a whole (`run_keepsTo`).
-/
import Stencil.Grammar.Builtin
import Stencil.Proofs.Derivation.Statement
import Stencil.Proofs.Derivation.Suffix
import Stencil.Proofs.Progress.Termination

namespace Stencil

/-- What the grammar reads of expressions is in the relation, and what it reads of statements is composed of
that. -/
structure Grammar.KeepsTo (g : Grammar) (s : Stream) (reads : Reading) : Prop where
  expression : ∀ ⦃p : Phrase⦄, p.isExpression = true → ∀ ⦃r : Rule p⦄ ⦃pos : Nat⦄ ⦃t : p.Tree⦄ ⦃q : Nat⦄,
    g r s pos = .ok t q → reads r pos t q
  statement : ∀ ⦃p : Phrase⦄, p.isExpression = false → ∀ ⦃r : Rule p⦄ ⦃pos : Nat⦄ ⦃t : p.Tree⦄ ⦃q : Nat⦄,
    g r s pos = .ok t q → Composes s reads r pos t q

namespace Grammar

open Stencil.Parser

variable {g : Grammar} {s : Stream} {reads : Reading} {pos q : Nat}

namespace KeepsTo

theorem expr (hg : g.KeepsTo s reads) {r : Rule .expr} {e : Expr} (h : g r s pos = .ok e q) : reads r pos e q :=
  hg.expression rfl h

theorem stmt (hg : g.KeepsTo s reads) {r : Rule .stmt} {st : Stmt} (h : g r s pos = .ok st q) :
    Composes s reads r pos st q := hg.statement rfl h

theorem body (hg : g.KeepsTo s reads) {r : Rule .body} {ss : List Stmt} (h : g r s pos = .ok ss q) :
    Composes s reads r pos ss q := hg.statement rfl h

end KeepsTo

/-! ## One statement -/

theorem simpleStatement_composes (hg : g.KeepsTo s reads) {sp : Splice} (h : simpleStatement g s pos = .ok sp q) :
    Composes s reads .statement pos sp q := by
  unfold simpleStatement at h
  obtain ⟨e, p, he, h⟩ := bind_eq_ok.1 h
  obtain ⟨-, h⟩ | ⟨hassign, h⟩ := checkSymbol_eq_ok.1 h
  · obtain ⟨st, p', hst, h⟩ := bind_eq_ok.1 h
    obtain ⟨rfl, rfl⟩ := pure_eq_ok.1 h
    exact .assignment (hg.expr he) (hg.stmt hst)
  · obtain ⟨rfl, rfl⟩ := pure_eq_ok.1 h
    exact .simple (hg.expr he) hassign

/-- The statement of an extension of the library. -/
theorem builtin_composes (hg : g.KeepsTo s reads) {x : Extension} (hx : x ∈ Extension.builtin)
    (hk : (s.get pos).kind = .name) {sp : Splice} (h : x.parse g s pos = .ok sp q) :
    Composes s reads .statement pos sp q := by
  rcases List.mem_cons.1 hx with rfl | hx
  · unfold Extension.doStatement at h
    simp only [advance_bind_of hk nofun] at h
    obtain ⟨e, p, he, h⟩ := bind_eq_ok.1 h
    obtain ⟨rfl, rfl⟩ := pure_eq_ok.1 h
    exact .doStatement hk (hg.expr he)
  · rw [List.mem_singleton.1 hx] at h
    unfold Extension.loopControls at h
    simp only [advance_bind_of hk nofun] at h
    obtain ⟨-, h⟩ | ⟨-, h⟩ := ite_eq_ok.1 h
    · obtain ⟨rfl, rfl⟩ := pure_eq_ok.1 h
      exact .breakLoop hk
    · obtain ⟨rfl, rfl⟩ := pure_eq_ok.1 h
      exact .continueLoop hk

theorem statement_composes (hg : g.KeepsTo s reads) {find : Text → Option Extension}
    (hx : ∀ ⦃name x⦄, find name = some x → x ∈ Extension.builtin) {sp : Splice}
    (h : statement g find s pos = .ok sp q) : Composes s reads .statement pos sp q := by
  unfold statement at h
  rw [current_bind] at h
  generalize hk : (s.get pos).kind = k at h
  split at h
  · rename_i k
    cases hr : statementRule? k with
    | some r =>
      simp only [hr] at h
      obtain ⟨st, p, hst, h⟩ := bind_eq_ok.1 h
      obtain ⟨rfl, rfl⟩ := pure_eq_ok.1 h
      exact .keyword hk hr (hg.stmt hst)
    | none =>
      simp only [hr] at h
      exact simpleStatement_composes hg h
  · cases hf : find (s.get pos).value with
    | some x =>
      simp only [hf] at h
      exact builtin_composes hg (hx hf) hk h
    | none =>
      simp only [hf] at h
      exact simpleStatement_composes hg h
  · exact simpleStatement_composes hg h

/-! ## Bodies -/

theorem statements_composes (hg : g.KeepsTo s reads) {ends : List TokenKind} {dropEnd : Bool} {body : List Stmt}
    (h : statements g ends dropEnd s pos = .ok body q) :
    Composes s reads (.statements ends dropEnd) pos body q := by
  have behind {p : Nat} (hp : p = pos ∨ (s.get pos).kind = .symbol .colon ∧ p = pos + 1)
      (h : (do
        let _ ← expect .blockEnd
        let body ← g (.content (some ends) [])
        if ← check ends then
          if dropEnd then
            let _ ← advance
          return body
        else
          Parser.unexpected ends none : Parser (List Stmt)) s p = .ok body q) :
      Composes s reads (.statements ends dropEnd) pos body q := by
    obtain ⟨hend, h⟩ := (expect_eq_ok (k := .blockEnd) nofun).1 h
    obtain ⟨body, p', hbody, h⟩ := bind_eq_ok.1 h
    obtain ⟨hmem, h⟩ | ⟨-, h⟩ := check_eq_ok.1 h
    · have hresult : Composes s reads (.statements ends dropEnd) pos body (if dropEnd = true then s.next p' else p') :=
        .statements hp hend (hg.body hbody) hmem
      cases dropEnd with
      | true =>
        simp only [if_true, advance_bind_eq] at h
        obtain ⟨rfl, rfl⟩ := pure_eq_ok.1 h
        exact hresult
      | false =>
        simp only [Bool.false_eq_true, if_false] at h
        obtain ⟨rfl, rfl⟩ := pure_eq_ok.1 h
        exact hresult
    · exact (unexpected_ne_ok.1 h).elim
  unfold statements at h
  obtain ⟨hcolon, h⟩ | ⟨-, h⟩ := checkSymbol_eq_ok.1 h
  · rw [advance_bind_of hcolon nofun] at h
    exact behind (.inr ⟨hcolon, rfl⟩) h
  · exact behind (.inl rfl) h

theorem content_composes (hg : g.KeepsTo s reads) {ends : Option (List TokenKind)} {pending : List Expr}
    {body : List Stmt} (h : content g ends pending s pos = .ok body q) :
    Composes s reads (.content ends pending) pos body q := by
  unfold content at h
  rw [current_bind] at h
  generalize hk : (s.get pos).kind = k at h
  split at h
  · simp only [advance_bind_of hk nofun] at h
    exact .data hk (hg.body h)
  · simp only [advance_bind_of hk nofun] at h
    obtain ⟨e, p, he, h⟩ := bind_eq_ok.1 h
    obtain ⟨hend, h⟩ := (expect_eq_ok (k := .variableEnd) nofun).1 h
    exact .interpolation hk (hg.expr he) hend (hg.body h)
  · simp only [advance_bind_of hk nofun] at h
    obtain ⟨hmem, h⟩ | ⟨hmem, h⟩ := check_eq_ok.1 h
    · obtain ⟨rfl, rfl⟩ := pure_eq_ok.1 h
      exact .endTag hk hmem
    · obtain ⟨splice, p, hsplice, h⟩ := bind_eq_ok.1 h
      obtain ⟨hend, h⟩ := (expect_eq_ok (k := .blockEnd) nofun).1 h
      obtain ⟨rest, p', hrest, h⟩ := bind_eq_ok.1 h
      obtain ⟨rfl, rfl⟩ := pure_eq_ok.1 h
      exact .tag hk hmem (hg.statement rfl hsplice) hend (hg.body hrest)
  · obtain ⟨rfl, rfl⟩ := pure_eq_ok.1 h
    exact .sourceEnd hk
  · exact (faultWith_ne_ok.1 h).elim

theorem template_composes (hg : g.KeepsTo s reads) {t : Template} (h : template g s pos = .ok t q) :
    Composes s reads .template pos t q := by
  unfold template at h
  obtain ⟨body, p, hbody, h⟩ := bind_eq_ok.1 h
  rw [current_bind] at h
  obtain ⟨rfl, rfl⟩ := pure_eq_ok.1 h
  exact .template (hg.body hbody)

/-! ## Assignments, loops and conditionals -/

theorem storeTarget_ok {e : Expr} {f : Expr → Parser Stmt} {st : Stmt}
    (h : (storeTarget e >>= f) s pos = .ok st q) : ∃ t, e.toTarget .store = some t ∧ f t s pos = .ok st q := by
  unfold storeTarget at h
  cases ht : e.toTarget .store with
  | some t =>
    simp only [ht] at h
    exact ⟨t, rfl, h⟩
  | none =>
    simp only [ht] at h
    obtain ⟨_, _, hreport, -⟩ := bind_eq_ok.1 h
    exact (report_ne_ok.1 hreport).elim

theorem assign_composes (hg : g.KeepsTo s reads) {target : Expr} {st : Stmt} (h : assign g target s pos = .ok st q) :
    Composes s reads (.assign target) pos st q := by
  unfold assign at h
  obtain ⟨hassign, h⟩ := expectSymbol_eq_ok.1 h
  obtain ⟨t, ht, h⟩ := storeTarget_ok h
  obtain ⟨value, p, hvalue, h⟩ := bind_eq_ok.1 h
  obtain ⟨rfl, rfl⟩ := pure_eq_ok.1 h
  exact .assign hassign ht (hg.expr hvalue)

theorem loopTest_ok (hg : g.KeepsTo s reads) {test : Option Expr} (h : loopTest g s pos = .ok test q) :
    (∀ e, test = some e → (s.get pos).kind = .keyword .ifTag ∧ reads (.expression true) (pos + 1) e q) ∧
      (test = none → q = pos) := by
  unfold loopTest at h
  obtain ⟨hif, h⟩ | ⟨-, h⟩ := checkKeyword_eq_ok.1 h
  · rw [advance_bind_of hif nofun] at h
    obtain ⟨e, p, he, h⟩ := bind_eq_ok.1 h
    obtain ⟨rfl, rfl⟩ := pure_eq_ok.1 h
    exact ⟨fun _ hsome => Option.some.inj hsome ▸ ⟨hif, hg.expr he⟩, nofun⟩
  · obtain ⟨rfl, rfl⟩ := pure_eq_ok.1 h
    exact ⟨nofun, fun _ => rfl⟩

theorem loop_composes (hg : g.KeepsTo s reads) {st : Stmt} (h : loop g s pos = .ok st q) :
    Composes s reads .loop pos st q := by
  unfold loop at h
  obtain ⟨hfor, h⟩ := expectKeyword_eq_ok.1 h
  obtain ⟨target, p, htarget, h⟩ := bind_eq_ok.1 h
  obtain ⟨t, ht, h⟩ := storeTarget_ok h
  obtain ⟨hin, h⟩ := expectKeyword_eq_ok.1 h
  obtain ⟨iter, p', hiter, h⟩ := bind_eq_ok.1 h
  obtain ⟨test, r, htest, h⟩ := bind_eq_ok.1 h
  obtain ⟨hfilter, hnofilter⟩ := loopTest_ok hg htest
  have hhead : s.HeadsLoop reads pos t iter test r :=
    ⟨hfor, hg.expr htarget, ht, hin, hg.expr hiter, hfilter, hnofilter⟩
  obtain ⟨body, r', hbody, h⟩ := bind_eq_ok.1 h
  have hbody := hg.body hbody
  rw [advance_bind_eq] at h
  obtain ⟨hword, h⟩ | ⟨hword, h⟩ := ite_eq_ok.1 h
  · rw [Stream.next_of_ne (by rw [hword]; nofun)] at h
    obtain ⟨elseBody, r'', hnone, h⟩ := bind_eq_ok.1 h
    obtain ⟨rfl, rfl⟩ := pure_eq_ok.1 hnone
    simp only [previousEnd_bind] at h
    obtain ⟨rfl, rfl⟩ := pure_eq_ok.1 h
    exact .loop hhead hbody hword
  · have helse : (s.get r').kind = .keyword .elseTag := by
      have hmem := hbody.ends_mem
      rw [List.mem_cons, List.mem_singleton] at hmem
      exact hmem.resolve_left hword
    rw [Stream.next_of_ne (by rw [helse]; nofun)] at h
    obtain ⟨elseBody, r'', hother, h⟩ := bind_eq_ok.1 h
    simp only [previousEnd_bind] at h
    obtain ⟨rfl, rfl⟩ := pure_eq_ok.1 h
    exact .loopElse hhead hbody helse (hg.body hother)

theorem branch_ok (hg : g.KeepsTo s reads) {α : Type} {a : α} {start : Location} {f : Branch → Parser α}
    (h : (branch g start >>= f) s pos = .ok a q) : ∃ test p body p',
      reads (.tuple (.expression true)) pos test p ∧ Composes s reads (.statements branchEnds false) p body p' ∧
      f ⟨start, test, body⟩ s p' = .ok a q := by
  obtain ⟨b, r, hb, h⟩ := bind_eq_ok.1 h
  unfold branch at hb
  obtain ⟨test, p, htest, hb⟩ := bind_eq_ok.1 hb
  obtain ⟨body, p', hbody, hb⟩ := bind_eq_ok.1 hb
  obtain ⟨rfl, rfl⟩ := pure_eq_ok.1 hb
  exact ⟨test, p, body, _, hg.expr htest, hg.body hbody, h⟩

theorem branches_composes (hg : g.KeepsTo s reads) {bs : Branches} (h : Grammar.branches g s pos = .ok bs q) :
    Composes s reads .branches pos bs q := by
  unfold Grammar.branches at h
  rw [advance_bind_eq] at h
  obtain ⟨helif, h⟩ | ⟨helif, h⟩ := ite_eq_ok.1 h
  · rw [Stream.next_of_ne (by rw [helif]; nofun)] at h
    obtain ⟨test, p, body, p', htest, hbody, h⟩ := branch_ok hg h
    obtain ⟨rest, r, hrest, h⟩ := bind_eq_ok.1 h
    obtain ⟨rfl, rfl⟩ := pure_eq_ok.1 h
    exact .elifBranch helif htest hbody (hg.statement rfl hrest)
  obtain ⟨helse, h⟩ | ⟨helse, h⟩ := ite_eq_ok.1 h
  · rw [Stream.next_of_ne (by rw [helse]; nofun)] at h
    obtain ⟨body, p, hbody, h⟩ := bind_eq_ok.1 h
    obtain ⟨rfl, rfl⟩ := pure_eq_ok.1 h
    exact .elseBranch helse (hg.body hbody)
  · obtain ⟨rfl, rfl⟩ := pure_eq_ok.1 h
    exact .noBranch helif helse

theorem conditional_composes (hg : g.KeepsTo s reads) {st : Stmt} (h : Grammar.conditional g s pos = .ok st q) :
    Composes s reads .conditional pos st q := by
  unfold Grammar.conditional at h
  obtain ⟨hif, h⟩ := expectKeyword_eq_ok.1 h
  obtain ⟨test, p, body, p', htest, hbody, h⟩ := branch_ok hg h
  obtain ⟨rest, r, hrest, h⟩ := bind_eq_ok.1 h
  rw [previousEnd_bind] at h
  obtain ⟨rfl, rfl⟩ := pure_eq_ok.1 h
  exact .conditional hif htest hbody (hg.statement rfl hrest)

/-! ## Parts of templates -/

theorem block_composes (hg : g.KeepsTo s reads) {st : Stmt} (h : block g s pos = .ok st q) :
    Composes s reads .block pos st q := by
  unfold block at h
  obtain ⟨hblock, h⟩ := expectKeyword_eq_ok.1 h
  obtain ⟨hname, h⟩ := expect_name_eq_ok.1 h
  obtain ⟨body, p, hbody, h⟩ := bind_eq_ok.1 h
  rw [previousEnd_bind] at h
  obtain ⟨rfl, rfl⟩ := pure_eq_ok.1 h
  exact .block hblock hname (hg.body hbody)

theorem extend_composes (hg : g.KeepsTo s reads) {st : Stmt} (h : extend g s pos = .ok st q) :
    Composes s reads .extend pos st q := by
  unfold extend at h
  obtain ⟨hword, h⟩ := expectKeyword_eq_ok.1 h
  obtain ⟨source, p, hsource, h⟩ := bind_eq_ok.1 h
  obtain ⟨rfl, rfl⟩ := pure_eq_ok.1 h
  exact .extend hword (hg.expr hsource)

theorem embed_composes (hg : g.KeepsTo s reads) {st : Stmt} (h : embed g s pos = .ok st q) :
    Composes s reads .embed pos st q := by
  unfold embed at h
  obtain ⟨hword, h⟩ := expectKeyword_eq_ok.1 h
  obtain ⟨source, p, hsource, h⟩ := bind_eq_ok.1 h
  obtain ⟨rfl, rfl⟩ := pure_eq_ok.1 h
  exact .embed hword (hg.expr hsource)

theorem print_composes (hg : g.KeepsTo s reads) {st : Stmt} (h : print g s pos = .ok st q) :
    Composes s reads .print pos st q := by
  unfold print at h
  obtain ⟨hword, h⟩ := expectKeyword_eq_ok.1 h
  obtain ⟨nodes, p, hnodes, h⟩ := bind_eq_ok.1 h
  rw [previousEnd_bind] at h
  obtain ⟨rfl, rfl⟩ := pure_eq_ok.1 h
  exact .print hword (hg.expression rfl hnodes)

/-! ## Imports -/

theorem bindable_eq_ok {α : Type} {f : Token → Parser α} {a : α} :
    (bindable >>= f) s pos = .ok a q ↔ s.Binds pos ∧ f (s.get pos) s (pos + 1) = .ok a q := by
  have hbindable : ∀ {t p}, bindable s pos = .ok t p ↔ s.Binds pos ∧ s.get pos = t ∧ pos + 1 = p := by
    intro t p
    unfold bindable
    rw [expect_name_eq_ok, ite_eq_ok, pure_eq_ok, report_ne_ok, and_false, or_false, ← and_assoc]
    rfl
  rw [bind_eq_ok]
  constructor
  · rintro ⟨t, p, ht, h⟩
    obtain ⟨hb, rfl, rfl⟩ := hbindable.1 ht
    exact ⟨hb, h⟩
  · rintro ⟨hb, h⟩
    exact ⟨_, _, hbindable.2 ⟨hb, rfl, rfl⟩, h⟩

theorem checkName_eq_ok {α : Type} {name : Text} {x y : Parser α} {a : α} :
    (checkName name >>= fun b => if b = true then x else y) s pos = .ok a q ↔
      s.Names pos name ∧ x s pos = .ok a q ∨ ¬s.Names pos name ∧ y s pos = .ok a q := by
  have hb : ((s.get pos).kind == .name && (s.get pos).value == name) = true ↔ s.Names pos name := by
    rw [Bool.and_eq_true, beq_iff_eq, beq_iff_eq]
    rfl
  show (if ((s.get pos).kind == .name && (s.get pos).value == name) = true then x else y) s pos = _ ↔ _
  rw [ite_eq_ok, hb]

theorem expectName_eq_ok {α : Type} {name : Text} {f : Token → Parser α} {a : α} :
    (expectName name >>= f) s pos = .ok a q ↔ s.Names pos name ∧ f (s.get pos) s (pos + 1) = .ok a q := by
  by_cases h : s.Names pos name
  · have hread : expectName name s pos = .ok (s.get pos) (pos + 1) :=
      (if_pos h).trans (advance_eq_ok (by rw [h.1]; nofun))
    rw [bind_ok hread, and_iff_right h]
  · have hread : expectName name s pos = unexpected [] (some (TokenKind.quoted name)) s pos := if_neg h
    rw [bind_eq_ok, hread]
    simp [unexpected, h]

theorem importAs_composes (hg : g.KeepsTo s reads) {st : Stmt} (h : importAs g s pos = .ok st q) :
    Composes s reads .importAs pos st q := by
  unfold importAs at h
  obtain ⟨hword, h⟩ := expectKeyword_eq_ok.1 h
  obtain ⟨source, p, hsource, h⟩ := bind_eq_ok.1 h
  obtain ⟨has, h⟩ := expectName_eq_ok.1 h
  obtain ⟨hbinds, h⟩ := bindable_eq_ok.1 h
  rw [previousEnd_bind] at h
  obtain ⟨rfl, rfl⟩ := pure_eq_ok.1 h
  exact .importAs hword (hg.expr hsource) has hbinds

/-- A name to import and the name that it gets. -/
theorem imports_of_ok {α : Type} {f : ImportName → Parser α} {a : α}
    (h : (do
      ensurePublic (← current)
      let name := (← bindable).value
      let localName ← localName?
      f ⟨name, localName⟩ : Parser α) s pos = .ok a q) :
    ∃ n p, s.Imports pos n p ∧ f n s p = .ok a q := by
  rw [current_bind] at h
  unfold ensurePublic at h
  cases hpublic : (s.get pos).value.startsWith "__" with
  | true =>
    simp only [hpublic, if_true] at h
    obtain ⟨_, _, hreport, -⟩ := bind_eq_ok.1 h
    exact (report_ne_ok.1 hreport).elim
  | false =>
    simp only [hpublic, Bool.false_eq_true, if_false] at h
    obtain ⟨hbinds, h⟩ := bindable_eq_ok.1 h
    obtain ⟨localName, p, hlocal, h⟩ := bind_eq_ok.1 h
    unfold localName? at hlocal
    obtain ⟨has, hlocal⟩ | ⟨has, hlocal⟩ := checkName_eq_ok.1 hlocal
    · rw [advance_bind_of has.1 nofun] at hlocal
      obtain ⟨hbinds', hlocal⟩ := bindable_eq_ok.1 hlocal
      obtain ⟨rfl, rfl⟩ := pure_eq_ok.1 hlocal
      exact ⟨_, _, .renamed hbinds hpublic has hbinds', h⟩
    · obtain ⟨rfl, rfl⟩ := pure_eq_ok.1 hlocal
      exact ⟨_, _, .plain hbinds hpublic has, h⟩

theorem nameItems_composes (hg : g.KeepsTo s reads) {first : Bool} {ns : List ImportName}
    (h : nameItems g first s pos = .ok ns q) : Composes s reads (.nameItems first) pos ns q := by
  unfold nameItems at h
  obtain ⟨p, hp, h⟩ := enters_of_ok h
  obtain ⟨-, h⟩ | ⟨hname, h⟩ := check_eq_ok.1 h
  · obtain ⟨n, p', hn, h⟩ := imports_of_ok (f := fun n => checkSymbol .comma >>= fun more =>
      if more = true then g (.nameItems false) >>= fun rest => pure (n :: rest) else pure [n]) h
    obtain ⟨hcomma, h⟩ | ⟨hcomma, h⟩ := checkSymbol_eq_ok.1 h
    · obtain ⟨rest, q', hrest, h⟩ := bind_eq_ok.1 h
      obtain ⟨rfl, rfl⟩ := pure_eq_ok.1 h
      exact .nameMore hp hn hcomma (hg.statement rfl hrest)
    · obtain ⟨rfl, rfl⟩ := pure_eq_ok.1 h
      exact .nameLast hp hn hcomma
  · obtain ⟨rfl, rfl⟩ := pure_eq_ok.1 h
    exact .nameNone hp fun hk => hname (List.mem_singleton.2 hk)

theorem importNames_composes (hg : g.KeepsTo s reads) {st : Stmt} (h : importNames g s pos = .ok st q) :
    Composes s reads .importNames pos st q := by
  unfold importNames at h
  obtain ⟨hword, h⟩ := expectKeyword_eq_ok.1 h
  obtain ⟨source, p, hsource, h⟩ := bind_eq_ok.1 h
  obtain ⟨himport, h⟩ := expectKeyword_eq_ok.1 h
  obtain ⟨names, p', hnames, h⟩ := bind_eq_ok.1 h
  have hnames : Composes s reads (.nameItems true) (p + 1) names p' := hg.statement rfl hnames
  obtain ⟨hcomma, h⟩ | ⟨-, h⟩ := checkSymbol_eq_ok.1 h
  · simp only [advance_bind_of hcomma nofun, previousEnd_bind] at h
    obtain ⟨rfl, rfl⟩ := pure_eq_ok.1 h
    exact .importNames hword (hg.expr hsource) himport hnames (.inr ⟨hcomma, rfl⟩)
  · simp only [previousEnd_bind] at h
    obtain ⟨rfl, rfl⟩ := pure_eq_ok.1 h
    exact .importNames hword (hg.expr hsource) himport hnames (.inl rfl)

/-! ## Macros and the blocks that call -/

theorem signature_composes (hg : g.KeepsTo s reads) {sig : Signature} (h : Grammar.signature g s pos = .ok sig q) :
    Composes s reads .signature pos sig q := by
  unfold Grammar.signature at h
  obtain ⟨hopen, h⟩ := expectSymbol_eq_ok.1 h
  obtain ⟨sig', p, hsig, h⟩ := bind_eq_ok.1 h
  obtain ⟨hclose, h⟩ := expectSymbol_eq_ok.1 h
  obtain ⟨rfl, rfl⟩ := pure_eq_ok.1 h
  exact .signature hopen (hg.statement rfl hsig) hclose

theorem signatureRest_composes (hg : g.KeepsTo s reads) {sofar sig : Signature}
    (h : signatureRest g sofar s pos = .ok sig q) : Composes s reads (.signatureRest sofar) pos sig q := by
  obtain ⟨params, defaults⟩ := sofar
  unfold signatureRest at h
  obtain ⟨hclose, h⟩ | ⟨-, h⟩ := checkSymbol_eq_ok.1 h
  · obtain ⟨rfl, rfl⟩ := pure_eq_ok.1 h
    exact .signatureEnd hclose
  · obtain ⟨p, hp, h⟩ := enters_of_ok h
    obtain ⟨hbinds, h⟩ := bindable_eq_ok.1 h
    obtain ⟨defaults', p', hdefault, h⟩ := bind_eq_ok.1 h
    have hrest := hg.statement rfl h
    unfold default? at hdefault
    obtain ⟨hassign, hdefault⟩ | ⟨hassign, hdefault⟩ := checkSymbol_eq_ok.1 hdefault
    · rw [advance_bind_of hassign nofun] at hdefault
      obtain ⟨e, p'', he, hdefault⟩ := bind_eq_ok.1 hdefault
      obtain ⟨rfl, rfl⟩ := pure_eq_ok.1 hdefault
      exact .optional hp hbinds hassign (hg.expr he) hrest
    obtain ⟨hnone, hdefault⟩ | ⟨-, hdefault⟩ := ite_eq_ok.1 hdefault
    · obtain ⟨rfl, rfl⟩ := pure_eq_ok.1 hdefault
      rw [List.isEmpty_iff] at hnone
      subst hnone
      exact .required hp hbinds hassign hrest
    · exact (report_ne_ok.1 hdefault).elim

theorem define_composes (hg : g.KeepsTo s reads) {st : Stmt} (h : define g s pos = .ok st q) :
    Composes s reads .define pos st q := by
  unfold define at h
  obtain ⟨hword, h⟩ := expectKeyword_eq_ok.1 h
  obtain ⟨hbinds, h⟩ := bindable_eq_ok.1 h
  obtain ⟨sig, p, hsig, h⟩ := bind_eq_ok.1 h
  obtain ⟨body, p', hbody, h⟩ := bind_eq_ok.1 h
  rw [previousEnd_bind] at h
  obtain ⟨rfl, rfl⟩ := pure_eq_ok.1 h
  exact .define hword hbinds (hg.statement rfl hsig) (hg.body hbody)

theorem callBlock_composes (hg : g.KeepsTo s reads) {st : Stmt} (h : callBlock g s pos = .ok st q) :
    Composes s reads .callBlock pos st q := by
  unfold callBlock at h
  obtain ⟨hword, h⟩ := expectKeyword_eq_ok.1 h
  obtain ⟨sig, p, hsig, h⟩ := bind_eq_ok.1 h
  obtain ⟨e, p', he, h⟩ := bind_eq_ok.1 h
  obtain ⟨_, _, hcall, h⟩ := bind_eq_ok.1 h
  obtain ⟨body, q', hbody, h⟩ := bind_eq_ok.1 h
  rw [previousEnd_bind] at h
  obtain ⟨rfl, rfl⟩ := pure_eq_ok.1 h
  have he : reads (.expression true) p e p' := hg.expr he
  unfold optionalSignature at hsig
  unfold ensureCall at hcall
  split at hcall
  · obtain ⟨-, rfl⟩ := pure_eq_ok.1 hcall
    obtain ⟨hopen, hsig⟩ | ⟨hopen, hsig⟩ := checkSymbol_eq_ok.1 hsig
    · exact .callBlock hword (fun _ => hg.statement rfl hsig) (fun hno => absurd hopen hno) he (hg.body hbody)
    · obtain ⟨rfl, rfl⟩ := pure_eq_ok.1 hsig
      exact .callBlock hword (fun hyes => absurd hyes hopen) (fun _ => ⟨rfl, rfl⟩) he (hg.body hbody)
  · exact (report_ne_ok.1 hcall).elim

theorem filterBlock_composes (hg : g.KeepsTo s reads) {st : Stmt} (h : filterBlock g s pos = .ok st q) :
    Composes s reads .filterBlock pos st q := by
  unfold filterBlock at h
  obtain ⟨hword, h⟩ := expectKeyword_eq_ok.1 h
  obtain ⟨e, p, he, h⟩ := bind_eq_ok.1 h
  obtain ⟨body, q', hbody, h⟩ := bind_eq_ok.1 h
  rw [previousEnd_bind] at h
  obtain ⟨rfl, rfl⟩ := pure_eq_ok.1 h
  exact .filterBlock hword (hg.expr he) (hg.body hbody)

/-! ## The whole grammar -/

/-- Every extension that is found by a tag is one of the library. -/
def FindsBuiltin (find : Text → Option Extension) : Prop :=
  ∀ ⦃name : Text⦄ ⦃x : Extension⦄, find name = some x → x ∈ Extension.builtin

/-- One step of the grammar composes statements of what the rules inside them read. -/
theorem step_composes (hg : g.KeepsTo s reads) {find : Text → Option Extension} (hx : FindsBuiltin find)
    {p : Phrase} (hp : p.isExpression = false) {r : Rule p} {t : p.Tree} (h : step find g r s pos = .ok t q) :
    Composes s reads r pos t q := by
  cases r with
  | statement => exact statement_composes hg hx h
  | statements ends dropEnd => exact statements_composes hg h
  | content ends pending => exact content_composes hg h
  | assign target => exact assign_composes hg h
  | loop => exact loop_composes hg h
  | conditional => exact conditional_composes hg h
  | branches => exact branches_composes hg h
  | block => exact block_composes hg h
  | extend => exact extend_composes hg h
  | embed => exact embed_composes hg h
  | importAs => exact importAs_composes hg h
  | importNames => exact importNames_composes hg h
  | nameItems first => exact nameItems_composes hg h
  | print => exact print_composes hg h
  | signature => exact signature_composes hg h
  | signatureRest sofar => exact signatureRest_composes hg h
  | define => exact define_composes hg h
  | callBlock => exact callBlock_composes hg h
  | filterBlock => exact filterBlock_composes hg h
  | template => exact template_composes hg h
  | _ => cases hp

/-- The grammar keeps to a relation if it does so with every expression, at every depth. -/
theorem run_keepsTo {find : Text → Option Extension} (hx : FindsBuiltin find)
    (he : ∀ n ⦃p : Phrase⦄, p.isExpression = true → ∀ ⦃r : Rule p⦄ ⦃pos : Nat⦄ ⦃t : p.Tree⦄ ⦃q : Nat⦄,
      run find n r s pos = .ok t q → reads r pos t q) (n : Nat) : (run find n).KeepsTo s reads := by
  refine ⟨he n, ?_⟩
  induction n with
  | zero => exact fun _ _ _ _ _ _ h => (faultWith_ne_ok.1 h).elim
  | succ n ih => exact fun _ hp _ _ _ _ h => step_composes ⟨he n, ih⟩ hx hp h

end Grammar

theorem Environment.IsBuiltin.findsBuiltin {env : Environment} (h : env.IsBuiltin) :
    Grammar.FindsBuiltin (Extension.find? env.extensions) := fun _ _ hx => h _ (Extension.mem_of_find? hx)

end Stencil
