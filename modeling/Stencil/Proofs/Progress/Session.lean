/-
Sessions of a parser: looks at its tokens, moves over them and readings of rules, in any order. Every call begins where
the one before it has ended, with an answer or with a failure. The position only moves forward, and never over the
first end token of the stream, whatever stands behind that token (`Environment.sessions_move_forward`).
-/
import Stencil.Proofs.Progress.Termination

namespace Stencil

/-! ## The first end token -/

namespace Stream

variable {s : Stream} {pos : Nat}

/-- An end token is among the tokens, at their end or between others. -/
def HasEnd (s : Stream) : Prop := ∃ t ∈ s.tokens, t.kind = .eof

/-- The index of the first end token; the number of tokens if there is none. -/
def firstEnd (s : Stream) : Nat := s.tokens.findIdx (·.kind == .eof)

theorem HasEnd.firstEnd_lt (h : s.HasEnd) : s.firstEnd < s.tokens.size := by
  obtain ⟨t, ht, hk⟩ := h
  exact Array.findIdx_lt_size_of_exists ⟨t, ht, beq_iff_eq.2 hk⟩

theorem get_of_lt {i : Nat} (h : i < s.tokens.size) : s.get i = s.tokens[i] := by
  unfold get
  rw [Array.getElem?_eq_getElem h]
  rfl

theorem HasEnd.get_firstEnd (h : s.HasEnd) : (s.get s.firstEnd).kind = .eof := by
  rw [get_of_lt h.firstEnd_lt]
  exact beq_iff_eq.1 (Array.findIdx_getElem (w := h.firstEnd_lt))

/-- Up to the first end token, the token before a position is no end token. -/
theorem getElem?_before (hpos : 0 < pos) (hle : pos ≤ s.firstEnd) :
    ∃ t, s.tokens[pos - 1]? = some t ∧ t.kind ≠ .eof := by
  have hlt : pos - 1 < s.firstEnd := by omega
  have hsize : pos - 1 < s.tokens.size := Nat.lt_of_lt_of_le hlt Array.findIdx_le_size
  refine ⟨s.tokens[pos - 1], Array.getElem?_eq_getElem hsize, fun hk => ?_⟩
  have hnot := Array.not_of_lt_findIdx hlt
  exact absurd (beq_iff_eq.2 hk) (by simpa using hnot)

end Stream

/-! ## Moving forward -/

namespace Parser

variable {α : Type} {x : Parser α} {s : Stream} {pos finish : Nat}

/-- Begun at a position, a parser ends there or further on, but not behind another position. -/
def Forward (x : Parser α) (s : Stream) (pos finish : Nat) : Prop :=
  pos ≤ (x s pos).pos ∧ (x s pos).pos ≤ finish

theorem forward_of_stays (h : (x s pos).pos = pos) (hpos : pos ≤ finish) : x.Forward s pos finish := by
  unfold Forward
  rw [h]
  exact ⟨Nat.le_refl _, hpos⟩

/-- A move stops at an end token. -/
theorem advance_forward (hend : (s.get finish).kind = .eof) (hpos : pos ≤ finish) : advance.Forward s pos finish := by
  show pos ≤ (if (s.get pos).kind = .eof then pos else pos + 1) ∧
    (if (s.get pos).kind = .eof then pos else pos + 1) ≤ finish
  split
  · exact ⟨Nat.le_refl _, hpos⟩
  · rename_i hk
    have hne : pos ≠ finish := fun h => hk (h ▸ hend)
    omega

theorem skip_forward (hend : (s.get finish).kind = .eof) (count : Nat) (hpos : pos ≤ finish) :
    (skip count).Forward s pos finish := by
  induction count using skip.induct generalizing pos with
  | case1 => exact forward_of_stays rfl hpos
  | case2 => exact advance_forward hend hpos
  | case3 n ih =>
    obtain ⟨hle, hfin⟩ := advance_forward hend hpos
    have hskip : skip (n + 2) s pos = skip (n + 1) s (advance s pos).pos := rfl
    unfold Forward
    rw [hskip]
    exact ⟨Nat.le_trans hle (ih hfin).1, (ih hfin).2⟩

/-- The current token is moved over if it is the right one; if not, the parser fails where it stands. -/
def Expects (x : Parser Token) (s : Stream) (pos : Nat) : Prop :=
  x s pos = advance s pos ∨ ∃ e, x s pos = .fail e pos

theorem expect_expects (kind : TokenKind) : (expect kind).Expects s pos := by
  unfold Expects expect
  split
  · exact .inl rfl
  · exact .inr ⟨_, rfl⟩

theorem expectName_expects (name : Text) : (expectName name).Expects s pos := by
  unfold Expects expectName
  simp only
  split
  · exact .inl rfl
  · exact .inr ⟨_, rfl⟩

theorem Expects.forward {x : Parser Token} (h : x.Expects s pos) (hend : (s.get finish).kind = .eof)
    (hpos : pos ≤ finish) : x.Forward s pos finish := by
  rcases h with h | ⟨e, h⟩
  · unfold Forward
    rw [h]
    exact advance_forward hend hpos
  · exact forward_of_stays (by rw [h]; rfl) hpos

theorem Expects.pos_of_fail {x : Parser Token} (h : x.Expects s pos) {e : Failure} {q : Nat}
    (hx : x s pos = .fail e q) : q = pos := by
  rcases h with h | ⟨e', h⟩
  · rw [h] at hx
    cases hx
  · rw [h] at hx
    cases hx
    rfl

end Parser

/-! ## Rules -/

/-- The rule is a level of expressions, from conditional ones to primary ones. -/
def Rule.isLevel : {p : Phrase} → Rule p → Bool
  | _, .expression _ | _, .cond | _, .binary _ | _, .compare | _, .unary | _, .primary _ => true
  | _, _ => false

theorem Rule.least_of_isLevel {p : Phrase} {r : Rule p} (h : r.isLevel = true) (k : TokenKind) : r.least k = 1 := by
  cases r <;> first | rfl | cases h

theorem Grammar.Settles.forward {find : Text → Option Extension} {s : Stream} {finish pos : Nat} {p : Phrase}
    {r : Rule p} (h : Settles find s finish r pos) : (ofExtensions find r).Forward s pos finish := by
  unfold Parser.Forward
  cases hr : ofExtensions find r s pos with
  | ok t q =>
    obtain ⟨hle, hfin⟩ := h.advances t q hr
    exact ⟨Nat.le_trans (Nat.le_add_right ..) hle, hfin⟩
  | fail e q => exact (h.fails e q hr).2

/-! ## Calls -/

/-- What a host can ask of a parser. -/
inductive Call
  | current
  | peek (offset : Int)
  | previousEnd
  | isAtEnd
  | check (kinds : List TokenKind)
  | checkName (name : Text)
  | advance
  | skip (count : Nat)
  | expect (kind : TokenKind)
  | expectName (name : Text)
  | rule {p : Phrase} (r : Rule p)

namespace Call

/-- What a call answers with. -/
@[reducible] def Answer : Call → Type
  | current | peek _ | advance | skip _ | expect _ | expectName _ => Token
  | previousEnd => Location
  | isAtEnd | check _ | checkName _ => Bool
  | @rule p _ => p.Tree

/-- The parser that a call runs. -/
def parser (g : Grammar) : (c : Call) → Parser c.Answer
  | current => .current
  | peek offset => .peek offset
  | previousEnd => .previousEnd
  | isAtEnd => .isAtEnd
  | check kinds => .check kinds
  | checkName name => .checkName name
  | advance => .advance
  | skip count => .skip count
  | expect kind => .expect kind
  | expectName name => .expectName name
  | rule r => g r

/-- The positions that a session comes to: the one it begins at and the end of every call, a failed one too. -/
def positions (g : Grammar) (s : Stream) : Nat → List Call → List Nat
  | pos, [] => [pos]
  | pos, c :: calls => pos :: positions g s (c.parser g s pos).pos calls

variable {g : Grammar} {find : Text → Option Extension} {s : Stream} {pos finish : Nat}

/-- One call moves forward. -/
theorem parser_forward (hx : Grammar.OrderlyTags find) (hend : s.HasEnd) (hpos : pos ≤ s.firstEnd) (c : Call) :
    (c.parser (Grammar.ofExtensions find)).Forward s pos s.firstEnd := by
  have hfirst := hend.get_firstEnd
  cases c with
  | current | peek | previousEnd | isAtEnd | check | checkName => exact Parser.forward_of_stays rfl hpos
  | advance => exact Parser.advance_forward hfirst hpos
  | skip count => exact Parser.skip_forward hfirst count hpos
  | expect kind => exact (Parser.expect_expects kind).forward hfirst hpos
  | expectName name => exact (Parser.expectName_expects name).forward hfirst hpos
  | rule r => exact (Grammar.settles_to hx hfirst hend.firstEnd_lt r hpos).forward

/-- If every call moves forward, so does every session. -/
theorem positions_forward (h : ∀ (c : Call) pos, pos ≤ finish → (c.parser g).Forward s pos finish) (calls : List Call)
    (hpos : pos ≤ finish) :
    (positions g s pos calls).Pairwise (· ≤ ·) ∧ ∀ q ∈ positions g s pos calls, pos ≤ q ∧ q ≤ finish := by
  induction calls generalizing pos with
  | nil =>
    refine ⟨List.pairwise_singleton _ _, fun q hq => ?_⟩
    rw [List.mem_singleton.1 hq]
    exact ⟨Nat.le_refl _, hpos⟩
  | cons c calls ih =>
    obtain ⟨hle, hfin⟩ := h c pos hpos
    obtain ⟨hsorted, hbetween⟩ := ih hfin
    have hbehind (q : Nat) (hq : q ∈ positions g s (c.parser g s pos).pos calls) : pos ≤ q :=
      Nat.le_trans hle (hbetween q hq).1
    refine ⟨List.pairwise_cons.2 ⟨hbehind, hsorted⟩, fun q hq => ?_⟩
    rcases List.mem_cons.1 hq with rfl | hq
    · exact ⟨Nat.le_refl _, hpos⟩
    · exact ⟨hbehind q hq, (hbetween q hq).2⟩

end Call

/-- The position of a parser only moves forward and stops at the first end token, whatever is asked of the parser in
whatever order, provided that no foreign extension takes part. A token that has to be there and is not leaves the
position where it is, and no rule fails for its depth. A level of expressions that is read takes one token at least,
and the last one it takes is no end token. -/
theorem Environment.sessions_move_forward (env : Environment) (hb : env.IsBuiltin) (s : Stream) (hend : s.HasEnd)
    (start : Nat) (hstart : start ≤ s.firstEnd) (calls : List Call) :
    (Call.positions env.grammar s start calls).Pairwise (· ≤ ·) ∧
    ∀ pos ∈ Call.positions env.grammar s start calls,
      pos ≤ s.firstEnd ∧
      (∀ kind e q, Parser.expect kind s pos = .fail e q → q = pos) ∧
      (∀ name e q, Parser.expectName name s pos = .fail e q → q = pos) ∧
      (∀ ⦃p : Phrase⦄ (r : Rule p) e q, env.grammar r s pos = .fail e q → e ≠ .fault .depth) ∧
      ∀ ⦃p : Phrase⦄ (r : Rule p), r.isLevel = true → ∀ t q, env.grammar r s pos = .ok t q →
        pos < q ∧ ∃ u, s.tokens[q - 1]? = some u ∧ u.kind ≠ .eof := by
  have hx := hb.orderlyTags
  obtain ⟨hsorted, hbetween⟩ :=
    Call.positions_forward (fun c pos hpos => Call.parser_forward hx hend hpos c) calls hstart
  refine ⟨hsorted, fun pos hpos => ?_⟩
  have hle := (hbetween pos hpos).2
  have hsettles {p : Phrase} (r : Rule p) := Grammar.settles_to hx hend.get_firstEnd hend.firstEnd_lt r hle
  refine ⟨hle, fun kind e q => (Parser.expect_expects kind).pos_of_fail,
    fun name e q => (Parser.expectName_expects name).pos_of_fail, ?_, ?_⟩
  · intro p r e q h
    exact ((hsettles r).fails e q h).1
  · intro p r hlevel t q h
    obtain ⟨hread, hfin⟩ := (hsettles r).advances t q h
    rw [Rule.least_of_isLevel hlevel] at hread
    exact ⟨hread, Stream.getElem?_before (Nat.zero_lt_of_lt hread) hfin⟩

/-- A stream with its end token between others: the one behind it is never read. -/
def Stream.endedEarly : Stream :=
  ⟨#[⟨.name, "a", ⟨.origin, .origin⟩⟩, Token.atEnd .origin, ⟨.name, "b", ⟨.origin, .origin⟩⟩], by decide, none,
    .standard⟩

/-- A comma that is not there, a name, a move over more tokens than there are, and an operand at the end. -/
theorem Environment.sessions_move_forward_endedEarly :
    let calls : List Call := [.expect (.symbol .comma), .rule (.expression true), .skip 5, .rule .unary]
    let visited := Call.positions withLoopControls.grammar .endedEarly 0 calls
    withLoopControls.IsBuiltin ∧ Stream.endedEarly.HasEnd ∧ 0 ≤ Stream.endedEarly.firstEnd ∧
      visited = [0, 0, 1, 1, 1] ∧ visited.Pairwise (· ≤ ·) ∧
      (∃ e, Parser.expect (.symbol .comma) .endedEarly 0 = .fail e 0) ∧
      ∃ t, withLoopControls.grammar (.expression true) .endedEarly 0 = .ok t 1 ∧
        ∃ u, Stream.endedEarly.tokens[0]? = some u ∧ u.kind ≠ .eof := by
  intro calls visited
  have hb := withLoopControls_isBuiltin
  have hend : Stream.endedEarly.HasEnd := ⟨Token.atEnd .origin, by simp [Stream.endedEarly], rfl⟩
  have hvisited : visited = [0, 0, 1, 1, 1] := by decide +kernel
  obtain ⟨hsorted, hforward⟩ := sessions_move_forward withLoopControls hb .endedEarly hend 0 (Nat.zero_le _) calls
  have hread : ∃ t, withLoopControls.grammar (.expression true) .endedEarly 0 = .ok t 1 := ⟨_, rfl⟩
  obtain ⟨-, -, -, -, hlevels⟩ := hforward 0 (by rw [show Call.positions _ _ _ _ = _ from hvisited]; decide)
  obtain ⟨t, ht⟩ := hread
  exact ⟨hb, hend, Nat.zero_le _, hvisited, hsorted, ⟨_, rfl⟩, t, ht, (hlevels (.expression true) rfl t 1 ht).2⟩

end Stencil
