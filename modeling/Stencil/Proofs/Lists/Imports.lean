/-
The names of an import. They are read just if each of them can be imported, and a comma stands between any two; but
neither is a name asked for, nor are the commas behind the names as few as one (`importNames_exact`,
`imports_loosely_listed`).
-/
import Stencil.Proofs.Context.Elsewhere
import Stencil.Proofs.Derivation.Composition
import Stencil.Proofs.Lists.Basic
import Stencil.Proofs.Writing.Tag

namespace Stencil

open Stencil.Parser

namespace Stream

variable (s : Stream)

/-- Behind the names a comma is read over if one stands there, but none where no name has been read; no name stands
where they end. -/
def NamesEnd (none : Bool) (pos stop : Nat) : Prop :=
  if none then stop = pos ∧ (s.get pos).kind ≠ .name
  else (s.get pos).kind = .symbol .comma ∧ (s.get (pos + 1)).kind ≠ .name ∧ stop = pos + 1 ∨
    (s.get pos).kind ≠ .symbol .comma ∧ stop = pos

end Stream

namespace Grammar

variable {g : Grammar} {find : Text → Option Extension} {s : Stream} {statements : Prop}
variable {n : ImportName} {pos start p q : Nat}

/-- A name to import is read with the name that it gets. -/
theorem imports_bind {α : Type} (h : s.Imports pos n p) (f : ImportName → Parser α) :
    (do
      ensurePublic (← current)
      let name := (← bindable).value
      let localName ← localName?
      f ⟨name, localName⟩ : Parser α) s pos = f n s p := by
  rw [current_bind]
  unfold ensurePublic
  cases h with
  | plain h hp ha =>
    have hlocal : localName? s (pos + 1) = .ok none (pos + 1) := checkName_eq_ok.2 (.inr ⟨ha, rfl⟩)
    rw [if_neg (by rw [hp]; exact Bool.false_ne_true)]
    exact (bindable_bind h.1 h.2 _).trans (bind_ok hlocal _)
  | renamed h hp ha h' =>
    have hlocal : localName? s (pos + 1) = .ok (some (s.get (pos + 2)).value) (pos + 3) := by
      refine checkName_eq_ok.2 (.inl ⟨ha, ?_⟩)
      rw [advance_bind_of ha.1 nofun]
      exact bindable_eq_ok.2 ⟨h', rfl⟩
    rw [if_neg (by rw [hp]; exact Bool.false_ne_true)]
    exact (bindable_bind h.1 h.2 _).trans (bind_ok hlocal _)

theorem name_of_imports (h : s.Imports pos n p) : (s.get pos).kind = .name := by
  cases h with
  | plain h => exact h.1
  | renamed h => exact h.1

/-- The loop comes to a name, or to what is none, where it ends; behind a name it goes on at a comma. -/
theorem nameItems_step (hg : g.Solves find s statements) {first : Bool} {names : List ImportName} :
    g (.nameItems first) s start = .ok names q ↔ ∃ p, s.Enters first start p ∧
      ((s.get p).kind ≠ .name ∧ names = [] ∧ q = p ∨ ∃ n m, s.Imports p n m ∧
        ((s.get m).kind = .symbol .comma ∧ (∃ rest, g (.nameItems false) s m = .ok rest q ∧ names = n :: rest) ∨
          (s.get m).kind ≠ .symbol .comma ∧ names = [n] ∧ q = m)) := by
  rw [hg (.nameItems first) start nofun]
  show nameItems g first s start = _ ↔ _
  unfold nameItems
  let next (n : ImportName) : Parser (List ImportName) := checkSymbol .comma >>= fun more =>
    if more = true then g (.nameItems false) >>= fun rest => pure (n :: rest) else pure [n]
  constructor
  · intro h
    obtain ⟨p, hp, h⟩ := enters_of_ok h
    refine ⟨p, hp, ?_⟩
    obtain ⟨-, h⟩ | ⟨hname, h⟩ := check_eq_ok.1 h
    · obtain ⟨n, m, hn, h⟩ := imports_of_ok (f := next) h
      refine .inr ⟨n, m, hn, ?_⟩
      obtain ⟨hcomma, h⟩ | ⟨hcomma, h⟩ := checkSymbol_eq_ok.1 h
      · obtain ⟨rest, q', hrest, h⟩ := bind_eq_ok.1 h
        obtain ⟨rfl, rfl⟩ := pure_eq_ok.1 h
        exact .inl ⟨hcomma, rest, hrest, rfl⟩
      · obtain ⟨rfl, rfl⟩ := pure_eq_ok.1 h
        exact .inr ⟨hcomma, rfl, rfl⟩
    · obtain ⟨rfl, rfl⟩ := pure_eq_ok.1 h
      exact .inl ⟨fun hk => hname (List.mem_singleton.2 hk), rfl, rfl⟩
  · rintro ⟨p, hp, h⟩
    refine (hp.comma _).trans ?_
    rcases h with ⟨hk, rfl, rfl⟩ | ⟨n, m, hn, h⟩
    · exact check_no (fun hmem => hk (List.mem_singleton.1 hmem)) _ _
    · refine (check_yes (List.mem_singleton.2 (name_of_imports hn)) _ _).trans ((imports_bind hn next).trans ?_)
      refine checkSymbol_eq_ok.2 ?_
      rcases h with ⟨hcomma, rest, hrest, rfl⟩ | ⟨hcomma, rfl, rfl⟩
      · exact .inl ⟨hcomma, bind_ok hrest _⟩
      · exact .inr ⟨hcomma, rfl⟩

/-- The names that the loop reads are just those that stand there one after another; where it comes to another one a
comma has been seen. -/
theorem nameItems_eq_ok (hg : g.Solves find s statements) {first : Bool} {names : List ImportName}
    (hcomma : first = false → (s.get start).kind = .symbol .comma) :
    g (.nameItems first) s start = .ok names q ↔
      ∃ m, s.Listed s.Imports first names start m ∧ s.NamesEnd (first && names.isEmpty) m q := by
  induction names generalizing first start with
  | nil =>
    rw [nameItems_step hg]
    constructor
    · rintro ⟨p, hp, ⟨hk, -, rfl⟩ | ⟨n, m, -, ⟨-, rest, -, h⟩ | ⟨-, h, -⟩⟩⟩
      · refine ⟨start, .nil, ?_⟩
        cases first with
        | true =>
          cases (show start = q from hp)
          exact ⟨rfl, hk⟩
        | false =>
          obtain ⟨hc, rfl⟩ := hp
          exact .inl ⟨hc, hk, rfl⟩
      · cases h
      · cases h
    · rintro ⟨m, ⟨⟩, hend⟩
      cases first with
      | true => exact ⟨start, rfl, .inl ⟨hend.2, rfl, hend.1⟩⟩
      | false =>
        obtain ⟨hc, hk, rfl⟩ | ⟨hc, -⟩ := hend
        · exact ⟨start + 1, ⟨hc, rfl⟩, .inl ⟨hk, rfl, rfl⟩⟩
        · exact absurd (hcomma rfl) hc
  | cons n names ih =>
    rw [nameItems_step hg, List.isEmpty_cons, Bool.and_false]
    constructor
    · rintro ⟨p, hp, ⟨-, h, -⟩ | ⟨n', m, hn, ⟨hc, rest, hrest, h⟩ | ⟨hc, h, rfl⟩⟩⟩
      · cases h
      · obtain ⟨rfl, rfl⟩ := List.cons.inj h
        obtain ⟨m', hnames, hend⟩ := (ih fun _ => hc).1 hrest
        exact ⟨m', .cons hp hn hnames, hend⟩
      · obtain ⟨rfl, rfl⟩ := List.cons.inj h
        exact ⟨q, .cons hp hn .nil, .inr ⟨hc, rfl⟩⟩
    · rintro ⟨m, hnames, hend⟩
      obtain - | @⟨_, _, p, _, m', _, _, hp, hn, hnames⟩ := hnames
      refine ⟨p, hp, .inr ⟨n, m', hn, ?_⟩⟩
      by_cases hc : (s.get m').kind = .symbol .comma
      · exact .inl ⟨hc, names, (ih fun _ => hc).2 ⟨m, hnames, hend⟩, rfl⟩
      · obtain - | ⟨hp, -, -⟩ := hnames
        · obtain ⟨hc', -⟩ | ⟨-, rfl⟩ := hend
          · exact absurd hc' hc
          · exact .inr ⟨hc, rfl, rfl⟩
        · exact absurd hp.1 hc

/-- Behind the template and the word that it stands before, the names are read, and a comma where they end. -/
theorem importNames_eq_ok (hg : g.Solves find s statements) {source : Expr} {st : Stmt}
    (hfrom : (s.get pos).kind = .keyword .fromTag) (hsource : g (.expression true) s (pos + 1) = .ok source p)
    (himport : (s.get p).kind = .keyword .importTag) :
    g .importNames s pos = .ok st q ↔ ∃ names m, g (.nameItems true) s (p + 1) = .ok names m ∧
      ((s.get m).kind = .symbol .comma ∧ q = m + 1 ∨ (s.get m).kind ≠ .symbol .comma ∧ q = m) ∧
      st = .importNames source names ⟨(s.get pos).span.start, s.endBefore q⟩ := by
  have hstep : g .importNames s pos = (g (.nameItems true) >>= fun names => checkSymbol .comma >>= fun more =>
      if more = true then advance >>= fun _ => previousEnd >>= fun stop =>
        (pure (.importNames source names ⟨(s.get pos).span.start, stop⟩) : Parser Stmt)
      else previousEnd >>= fun stop => pure (.importNames source names ⟨(s.get pos).span.start, stop⟩)) s (p + 1) := by
    rw [hg .importNames pos nofun]
    refine (expect_bind hfrom nofun _).trans ((bind_ok hsource _).trans ?_)
    exact expect_bind himport nofun _
  rw [hstep, bind_eq_ok]
  refine exists_congr fun names => exists_congr fun m => and_congr_right fun _ => ?_
  rw [checkSymbol_eq_ok]
  constructor
  · rintro (⟨hc, h⟩ | ⟨hc, h⟩)
    · rw [advance_bind_of hc nofun, previousEnd_bind] at h
      obtain ⟨rfl, rfl⟩ := pure_eq_ok.1 h
      exact ⟨.inl ⟨hc, rfl⟩, rfl⟩
    · rw [previousEnd_bind] at h
      obtain ⟨rfl, rfl⟩ := pure_eq_ok.1 h
      exact ⟨.inr ⟨hc, rfl⟩, rfl⟩
  · rintro ⟨⟨hc, rfl⟩ | ⟨hc, rfl⟩, rfl⟩
    · exact .inl ⟨hc, by rw [advance_bind_of hc nofun]; rfl⟩
    · exact .inr ⟨hc, rfl⟩

end Grammar

/-- Where the names end another comma is read over, so that one comma may stand before the end of a tag if there are no
names, and up to two if there are some. -/
theorem Stream.namesEnd_blockEnd {s : Stream} {none : Bool} {pos q : Nat} (hq : (s.get q).kind = .blockEnd) :
    (∃ p, s.NamesEnd none pos p ∧
      ((s.get p).kind = .symbol .comma ∧ q = p + 1 ∨ (s.get p).kind ≠ .symbol .comma ∧ q = p)) ↔
    ∃ n, s.Commas pos n ∧ n ≤ (if none then 1 else 2) ∧ q = pos + n := by
  have hname : (s.get q).kind ≠ .name := by rw [hq]; nofun
  have hcomma : (s.get q).kind ≠ .symbol .comma := by rw [hq]; nofun
  constructor
  · rintro ⟨p, hend, hmore⟩
    cases none with
    | true =>
      obtain ⟨rfl, -⟩ := hend
      obtain ⟨hc, rfl⟩ | ⟨-, rfl⟩ := hmore
      · exact ⟨1, commas_succ.2 ⟨hc, commas_zero⟩, Nat.le_refl 1, rfl⟩
      · exact ⟨0, commas_zero, Nat.zero_le 1, rfl⟩
    | false =>
      obtain ⟨hc, -, rfl⟩ | ⟨hc, rfl⟩ := hend
      · obtain ⟨hc', rfl⟩ | ⟨-, rfl⟩ := hmore
        · exact ⟨2, commas_succ.2 ⟨hc, commas_succ.2 ⟨hc', commas_zero⟩⟩, Nat.le_refl 2, rfl⟩
        · exact ⟨1, commas_succ.2 ⟨hc, commas_zero⟩, Nat.le_succ 1, rfl⟩
      · obtain ⟨hc', -⟩ | ⟨-, rfl⟩ := hmore
        · exact absurd hc' hc
        · exact ⟨0, commas_zero, Nat.zero_le 2, rfl⟩
  · rintro ⟨n, hcommas, hn, rfl⟩
    match n, none with
    | 0, true => exact ⟨pos, ⟨rfl, hname⟩, .inr ⟨hcomma, rfl⟩⟩
    | 0, false => exact ⟨pos, .inr ⟨hcomma, rfl⟩, .inr ⟨hcomma, rfl⟩⟩
    | 1, true =>
      have hc := (commas_succ.1 hcommas).1
      exact ⟨pos, ⟨rfl, by rw [hc]; nofun⟩, .inl ⟨hc, rfl⟩⟩
    | 1, false => exact ⟨pos + 1, .inl ⟨(commas_succ.1 hcommas).1, hname, rfl⟩, .inr ⟨hcomma, rfl⟩⟩
    | 2, false =>
      obtain ⟨hc, hrest⟩ := commas_succ.1 hcommas
      have hc' := (commas_succ.1 hrest).1
      exact ⟨pos + 1, .inl ⟨hc, by rw [hc']; nofun, rfl⟩, .inl ⟨hc', rfl⟩⟩
    | n + 2, true => exact absurd hn (by simp)
    | n + 3, false => exact absurd hn (by simp)

/-! ## The names of an import -/

/-- Behind the template that is imported from, a tag is read just if names that can be imported, each perhaps with the
name that it gets, stand there with commas between them, and behind them no more than two commas, or one if there are
no names. The statement has the names in their order. -/
theorem Environment.importNames_exact (env : Environment) {s : Stream} (hlast : s.last.kind = .eof) {pos p : Nat}
    {source : Expr} (hfrom : (s.get pos).kind = .keyword .fromTag)
    (hsource : env.grammar (.expression true) s (pos + 1) = .ok source p)
    (himport : (s.get p).kind = .keyword .importTag) (st : Stmt) (r : Nat) :
    (do
      let st ← env.grammar .importNames
      let _ ← expect .blockEnd
      return st : Parser Stmt) s pos = .ok st r ↔
    ∃ names q n, s.Listed s.Imports true names (p + 1) q ∧ s.Commas q n ∧ n ≤ (if names = [] then 1 else 2) ∧
      (s.get (q + n)).kind = .blockEnd ∧ r = q + n + 1 ∧
      st = .importNames source names ⟨(s.get pos).span.start, s.endBefore (q + n)⟩ := by
  have hg : env.grammar.Solves (Extension.find? env.extensions) s _ := Grammar.ofExtensions_solves hlast
  have hlen (names : List ImportName) : (if names = [] then 1 else 2) = if names.isEmpty then 1 else 2 := by
    cases names <;> rfl
  have hloop {names : List ImportName} {m : Nat} : env.grammar (.nameItems true) s (p + 1) = .ok names m ↔
      ∃ q, s.Listed s.Imports true names (p + 1) q ∧ s.NamesEnd names.isEmpty q m := Grammar.nameItems_eq_ok hg nofun
  rw [bind_eq_ok]
  constructor
  · rintro ⟨st', q', hread, h⟩
    obtain ⟨names, m, hnames, hmore, rfl⟩ := (Grammar.importNames_eq_ok hg hfrom hsource himport).1 hread
    obtain ⟨q, hlisted, hend⟩ := hloop.1 hnames
    obtain ⟨hblock, h⟩ := (expect_eq_ok (k := .blockEnd) nofun).1 h
    obtain ⟨rfl, rfl⟩ := pure_eq_ok.1 h
    obtain ⟨n, hcommas, hn, rfl⟩ := (Stream.namesEnd_blockEnd hblock).1 ⟨m, hend, hmore⟩
    exact ⟨names, q, n, hlisted, hcommas, by rw [hlen]; exact hn, hblock, rfl, rfl⟩
  · rintro ⟨names, q, n, hlisted, hcommas, hn, hblock, rfl, rfl⟩
    rw [hlen] at hn
    obtain ⟨m, hend, hmore⟩ := (Stream.namesEnd_blockEnd hblock).2 ⟨n, hcommas, hn, rfl⟩
    have hnames := hloop.2 ⟨q, hlisted, hend⟩
    exact ⟨_, q + n, (Grammar.importNames_eq_ok hg hfrom hsource himport).2 ⟨names, m, hnames, hmore, rfl⟩,
      (expect_eq_ok (k := .blockEnd) nofun).2 ⟨hblock, rfl⟩⟩

/-- Two names, the first of them under another one, with a comma behind the second. -/
theorem Environment.importNames_exact_renamed :
    let word (n : String) := Token.named (Text.ofString n)
    let sign (x : Symbol) := Token.of (.symbol x)
    let s := Stream.holding [.of (.keyword .fromTag), word "t", .of (.keyword .importTag), word "a", word "as",
      word "b", sign .comma, word "c", sign .comma, .of .blockEnd]
    ∃ source span, (do
      let st ← standard.grammar .importNames
      let _ ← expect .blockEnd
      return st : Parser Stmt) s 0 = .ok (.importNames source
        [⟨Text.ofString "a", some (Text.ofString "b")⟩, ⟨Text.ofString "c", none⟩] span) 10 := by
  intro word sign s
  obtain ⟨source, hsource⟩ : ∃ e, standard.grammar (.expression true) s 1 = .ok e 2 :=
    Reply.exists_ok_of_meets (by decide +kernel)
  have hnames : s.Listed s.Imports true
      [⟨Text.ofString "a", some (Text.ofString "b")⟩, ⟨Text.ofString "c", none⟩] 3 8 := by
    refine .cons rfl (.renamed ⟨rfl, rfl⟩ (by decide) ⟨rfl, rfl⟩ ⟨rfl, rfl⟩) (.cons ⟨rfl, rfl⟩ ?_ .nil)
    exact .plain ⟨rfl, rfl⟩ (by decide) fun h => absurd h.1 (by decide)
  exact ⟨source, _, (standard.importNames_exact (Stream.holding_holds _).last rfl hsource rfl _ 10).2
    ⟨_, 8, 1, hnames, Stream.commas_succ.2 ⟨rfl, Stream.commas_zero⟩, Nat.le_succ 1, rfl, rfl, rfl⟩⟩

/-- No name at all, a lone comma, and two commas behind a name are read as well. -/
theorem Environment.imports_loosely_listed :
    let tag (ts : List Token) := Stream.holding (.of (.keyword .fromTag) :: .named (Text.ofString "t") ::
      .of (.keyword .importTag) :: ts ++ [.of .blockEnd])
    let comma := Token.of (.symbol .comma)
    let statement := (do
      let st ← standard.grammar .importNames
      let _ ← expect .blockEnd
      return st : Parser Stmt)
    (∃ st, statement (tag []) 0 = .ok st 4) ∧ (∃ st, statement (tag [comma]) 0 = .ok st 5) ∧
      ∃ st, statement (tag [.named (Text.ofString "a"), comma, comma]) 0 = .ok st 7 := by
  refine ⟨?_, ?_, ?_⟩ <;> exact Reply.exists_ok_of_meets (by decide +kernel)

end Stencil
