/-
The brackets that a reading has open. A rule calls another one where its outcome depends on what the grammar
reads for the other one (`Grammar.Calls`); the calls that start from the rule for templates make up a reading,
and with each goes the list of the brackets that its callers have opened and not yet closed
(`Grammar.Reaches`). These are the brackets whose closers the scan awaits (`Grammar.Reaches.awaits`), and where
a tag ends there are none (`Grammar.Reaches.none_open`).
-/
import Stencil.Proofs.Brackets.Run

namespace Stencil

/-- The closer of a kind that opens a bracket. -/
def TokenKind.closer? : TokenKind → Option Symbol
  | .symbol o => o.closer?
  | _ => none

theorem TokenKind.closer?_eq_some_iff {k : TokenKind} {x : Symbol} :
    k.closer? = some x ↔ ∃ o, Symbol.Pairs o x ∧ k = .symbol o := by
  constructor
  · intro h
    cases k with
    | symbol o => exact ⟨o, Symbol.closer?_eq_some_iff.1 h, rfl⟩
    | _ => cases h
  · rintro ⟨o, hp, rfl⟩
    exact Symbol.closer?_eq_some_iff.2 hp

/-- Opening brackets stand at the positions, and the closers close them, one by one. -/
def Stream.OpenedBy (s : Stream) : List Nat → List Symbol → Prop :=
  List.Forall₂ fun pos x => (s.get pos).kind.closer? = some x

/-- The bracket that a rule has opened where it calls another one: the token that it begins with, if that token
opens a bracket and is all that has been read. -/
def Stream.opened (s : Stream) (pos pos' : Nat) : List Nat :=
  if pos' = pos + 1 ∧ (s.get pos).kind.closer?.isSome = true then [pos] else []

namespace Grammar

/-- A rule that begins at a position calls another one at a second position: its outcome depends on what the
grammar reads there for the other rule. -/
def Calls (find : Text → Option Extension) (g : Grammar) (s : Stream) {p p' : Phrase} (r : Rule p) (pos : Nat)
    (r' : Rule p') (pos' : Nat) : Prop :=
  ∃ g' : Grammar,
    (∀ ⦃q : Phrase⦄ (r'' : Rule q) (i : Nat), (⟨q, r''⟩ : Sigma Rule) ≠ ⟨p', r'⟩ ∨ i ≠ pos' →
      g' r'' s i = g r'' s i) ∧
    step find g' r s pos ≠ step find g r s pos

/-- A reading of a template comes to a rule at a position, with some brackets open, the one that was opened last
in front. -/
inductive Reaches (find : Text → Option Extension) (g : Grammar) (s : Stream) :
    {p : Phrase} → Rule p → Nat → List Nat → Prop
  | template : Reaches find g s .template 0 []
  | call {p p' : Phrase} {r : Rule p} {r' : Rule p'} {pos pos' : Nat} {os : List Nat}
      (h : Reaches find g s r pos os) (hc : Calls find g s r pos r' pos') :
      Reaches find g s r' pos' (s.opened pos pos' ++ os)

variable {find : Text → Option Extension} {s : Stream} {p p' : Phrase} {r : Rule p} {r' : Rule p'} {pos pos' : Nat}
  {os : List Nat}

/-! ## Calls -/

/-- A rule whose outcome is a failure wherever that failure is what is read for another rule, calls that rule. -/
theorem Calls.of_fails {g : Grammar}
    (h : ∀ (g' : Grammar) (e : Failure) (n : Nat), g' r' s pos' = .fail e n → step find g' r s pos = .fail e n) :
    Calls find g s r pos r' pos' := by
  classical
  -- the failure ends where the outcome does not
  let n := (step find g r s pos).pos + 1
  let g' : Grammar := fun q r'' t i =>
    if (⟨q, r''⟩ : Sigma Rule) = ⟨p', r'⟩ ∧ i = pos' then .fail (.fault .depth) n else g r'' t i
  have hfail : step find g' r s pos = .fail (.fault .depth) n := h g' _ n (if_pos ⟨rfl, rfl⟩)
  refine ⟨g', fun q r'' i hne => if_neg fun heq => ?_, fun heq => ?_⟩
  · exact hne.elim (fun hr => hr heq.1) fun hi => hi heq.2
  · have hpos := congrArg Reply.pos (heq.symm.trans hfail)
    exact absurd hpos (Nat.ne_of_lt (Nat.lt_succ_self _))

/-- A rule calls others only where its enclosure allows it. -/
theorem Calls.allowed {c : Enclosure} (hx : LevelTags find) (hf : r.Fits c.stream c.entry)
    (h : Calls find (ofExtensions find) c.stream r c.entry r' pos') : c.Calls pos' ∧ r'.Fits c.stream pos' := by
  obtain ⟨g', hsame, hne⟩ := h
  by_contra hnot
  -- otherwise the two grammars agree wherever the rule may call, and the outcome is the same
  have below : c.Below (ofExtensions find) g' := by
    intro q r'' i hc hf''
    refine (ofExtensions_levels hx r'' hf'').congr rfl (hsame r'' i ?_)
    by_contra heq
    rw [not_or, not_not, not_not] at heq
    obtain ⟨heq, rfl⟩ := heq
    cases heq
    exact hnot ⟨hc, hf''⟩
  exact hne (step_levels r below hx hf).1.symm

/-! ## Parentheses -/

namespace Reaches

variable {g : Grammar} {op : BinaryOp}

/-- A rule leaves its first token to another one. -/
theorem here (h : Reaches find g s r pos os)
    (hc : ∀ (g' : Grammar) (e : Failure) (n : Nat), g' r' s pos = .fail e n → step find g' r s pos = .fail e n) :
    Reaches find g s r' pos os := by
  have hnone : s.opened pos pos = [] := if_neg fun heq => Nat.ne_of_lt (Nat.lt_succ_self pos) heq.1
  have hreaches := h.call (Calls.of_fails hc)
  rwa [hnone] at hreaches

theorem operand (h : Reaches find g s (.binary op) pos os) : Reaches find g s (operandRule op) pos os :=
  h.here fun _ _ _ hf => Parser.bind_eq_fail.2 (.inl hf)

/-- An expression begins with a primary expression, unless an operator stands before it. -/
theorem primary (h : Reaches find g s (.expression true) pos os) (hk : unaryOp? (s.get pos).kind = none) :
    Reaches find g s (.primary true) pos os := by
  have hcond : Reaches find g s .cond pos os := h.here fun _ _ _ hf => hf
  have hor : Reaches find g s (.binary .or) pos os := hcond.here fun _ _ _ hf => Parser.bind_eq_fail.2 (.inl hf)
  have hcompare : Reaches find g s .compare pos os := hor.operand.operand
  have hadd : Reaches find g s (.binary .add) pos os := hcompare.here fun _ _ _ hf => Parser.bind_eq_fail.2 (.inl hf)
  have hmul : Reaches find g s (.binary .mul) pos os := hadd.operand.operand.operand
  have hunary : Reaches find g s .unary pos os := hmul.operand.operand.operand.operand.operand
  refine hunary.here fun g' e n hf => ?_
  have hstep : step find g' .unary s pos = g' (.primary true) s pos := by
    show unary g' s pos = _
    unfold unary
    rw [Parser.current_bind, hk]
  rw [hstep, hf]

/-- A tuple that begins with a parenthesis comes to a tuple inside of it. -/
theorem in_parens (h : Reaches find g s (.tuple (.expression true)) pos os)
    (hk : (s.get pos).kind = .symbol .openParen) :
    Reaches find g s (.tuple (.expression true)) (pos + 1) (pos :: os) := by
  have hexpression : Reaches find g s (.expression true) pos os := h.here fun g' e n hf => by
    have hnot : ¬tupleEnds.contains (s.get pos).kind = true := by rw [hk]; decide
    show tuple g' (.expression true) s pos = _
    unfold tuple
    rw [Parser.current_bind, Parser.check_bind, if_neg hnot]
    exact Parser.bind_eq_fail.2 (.inl hf)
  have hopened : s.opened pos (pos + 1) = [pos] := if_pos ⟨rfl, by rw [hk]; rfl⟩
  have hprimary := hexpression.primary (by rw [hk]; rfl)
  have hcall : Calls find g s (.primary true) pos (.tuple (.expression true)) (pos + 1) := by
    refine .of_fails fun g' e n hf => ?_
    refine Parser.bind_eq_fail.2 (.inl ?_)
    unfold atom
    rw [Parser.current_bind]
    simp only [hk]
    rw [Parser.advance_bind (by rw [hk]; nofun)]
    exact Parser.bind_eq_fail.2 (.inl hf)
  have hreaches := hprimary.call hcall
  rwa [hopened] at hreaches

/-- An interpolation comes to its tuple. -/
theorem interpolation (hk : (s.get 0).kind = .variableBegin) :
    Reaches find g s (.tuple (.expression true)) 1 [] := by
  have hcontent : Reaches find g s (.content none []) 0 [] :=
    Reaches.template.here fun _ _ _ hf => Parser.bind_eq_fail.2 (.inl hf)
  have hcall : Calls find g s (.content none []) 0 (.tuple (.expression true)) 1 := .of_fails fun g' e n hf => by
    show content g' none [] s 0 = _
    unfold content
    rw [Parser.current_bind]
    simp only [hk]
    rw [Parser.advance_bind (by rw [hk]; nofun)]
    exact Parser.bind_eq_fail.2 (.inl hf)
  have hnone : s.opened 0 1 = [] := if_neg fun heq => by rw [hk] at heq; cases heq.2
  have hreaches := hcontent.call hcall
  rwa [hnone] at hreaches

end Reaches

/-! ## Readings -/

/-- Where no closer is awaited at the end of a tag, the brackets that are open are those whose closers are
awaited. -/
theorem Reaches.awaits (hx : LevelTags find) (hclosed : ∀ i, Stream.endsTag (s.get i).kind = true → s.awaited i = [])
    (h : Reaches find (ofExtensions find) s r pos os) : r.Fits s pos ∧ s.OpenedBy os (s.awaited pos) := by
  induction h with
  | template => exact ⟨trivial, .nil⟩
  | @call _ _ r r' pos pos' os _ hc ih =>
    let c : Enclosure := ⟨s, pos, hclosed⟩
    obtain ⟨hcalls, hf⟩ := Calls.allowed (c := c) hx ih.1 hc
    refine ⟨hf, ?_⟩
    unfold Stream.opened
    split
    · rename_i hopen
      obtain ⟨rfl, hopen⟩ := hopen
      obtain ⟨x, hcloser⟩ := Option.isSome_iff_exists.1 hopen
      obtain ⟨o, hp, hk⟩ := TokenKind.closer?_eq_some_iff.1 hcloser
      rw [Stream.awaited_opens hp hk]
      exact .cons hcloser ih.2
    · rename_i hplain
      rcases hcalls with hat | ⟨heq, o, x, hp, hk⟩
      · rw [show s.awaited pos' = s.awaited pos from hat.awaited]
        exact ih.2
      · refine absurd ⟨heq, ?_⟩ hplain
        rw [show (s.get pos).kind = .symbol o from hk]
        exact Option.isSome_iff_exists.2 ⟨x, TokenKind.closer?_eq_some_iff.2 ⟨o, hp, rfl⟩⟩

/-- Where the reading comes by the end of a tag, no bracket is open. -/
theorem Reaches.none_open (hx : LevelTags find)
    (hclosed : ∀ i, Stream.endsTag (s.get i).kind = true → s.awaited i = [])
    (h : Reaches find (ofExtensions find) s r pos os) {i : Nat} (hle : pos ≤ i)
    (hi : i ≤ (ofExtensions find r s pos).pos) (hend : Stream.endsTag (s.get i).kind = true) : os = [] := by
  obtain ⟨hf, hopen⟩ := h.awaits hx hclosed
  let c : Enclosure := ⟨s, pos, hclosed⟩
  have hkeeps : c.Keeps pos (ofExtensions find r s pos).pos := (ofExtensions_levels (c := c) hx r hf).2.1
  have hsuffix : s.awaited pos <:+ s.awaited i := by
    rcases Nat.eq_or_lt_of_le hle with rfl | hlt
    · exact List.suffix_rfl
    · exact hkeeps.2 i hlt hi
  rw [hclosed i hend, List.suffix_nil] at hsuffix
  rw [hsuffix] at hopen
  exact List.forall₂_nil_right_iff.1 hopen

end Grammar
end Stencil
