/-
Lists of items where they stand in a stream. What an item is, is left to a relation between a position, the item and
the position behind it; between any two items stands a comma (`Stream.Listed`). That an expression is read says how it
begins, and that it is no name before an equals sign if none stands behind it (`Derives.opens`).
-/
import Stencil.Grammar.Run
import Stencil.Proofs.Derivation.Suffix
import Stencil.Proofs.Writing.Reading

namespace Stencil

open Grammar

/-! ## Lists in place -/

namespace Stream

variable {α : Type} (s : Stream)

/-- So many commas stand from the position on. -/
def Commas (pos n : Nat) : Prop := ∀ i < n, (s.get (pos + i)).kind = .symbol .comma

/-- The items stand one after another, each where the list has come to: the first one of a list where it starts, every
other one behind a comma. -/
inductive Listed (stands : Nat → α → Nat → Prop) : (first : Bool) → List α → Nat → Nat → Prop
  | nil {first pos} : Listed stands first [] pos pos
  | cons {first start pos x m xs stop} (hp : s.Enters first start pos) (hx : stands pos x m)
      (hxs : Listed stands false xs m stop) : Listed stands first (x :: xs) start stop

variable {s} {stands : Nat → α → Nat → Prop} {xs : List α} {start stop pos n : Nat} {k : TokenKind}

/-- Behind an item stands a comma, or what stands behind the list. -/
theorem Listed.behind {P : TokenKind → Prop} (h : s.Listed stands false xs start stop)
    (hcomma : P (.symbol .comma)) (hstop : P (s.get stop).kind) : P (s.get start).kind := by
  cases h with
  | nil => exact hstop
  | cons hp => exact hp.1 ▸ hcomma

theorem Commas.behind {P : TokenKind → Prop} (h : s.Commas pos n) (hcomma : P (.symbol .comma))
    (hend : P (s.get (pos + n)).kind) : P (s.get pos).kind := by
  cases n with
  | zero => exact hend
  | succ n => exact h 0 (Nat.succ_pos n) ▸ hcomma

theorem commas_zero : s.Commas pos 0 := fun _ hi => absurd hi (Nat.not_lt_zero _)

theorem commas_succ : s.Commas pos (n + 1) ↔ (s.get pos).kind = .symbol .comma ∧ s.Commas (pos + 1) n := by
  constructor
  · refine fun h => ⟨h 0 (Nat.succ_pos n), fun i hi => ?_⟩
    rw [Nat.add_assoc, Nat.add_comm 1]
    exact h (i + 1) (Nat.succ_lt_succ hi)
  · rintro ⟨hfirst, h⟩ (_ | i) hi
    · exact hfirst
    · rw [Nat.add_comm i, ← Nat.add_assoc]
      exact h i (Nat.lt_of_succ_lt_succ hi)

end Stream

/-! ## How expressions begin -/

/-- A rule for expressions begins with a token that opens one, and reads nothing but that token if it is a name before
an equals sign; what may follow an expression does not begin with an equals sign. -/
def Rule.Opens (s : Stream) (pos stop : Nat) : {p : Phrase} → Rule p → Prop
  | _, .expression _ | _, .cond | _, .binary _ | _, .compare | _, .unary | _, .primary _ =>
    (s.get pos).kind.opensExpr = true ∧
      ((s.get pos).kind = .name → (s.get (pos + 1)).kind = .symbol .assign → stop = pos + 1)
  | _, .condRest _ | _, .binaryRest .. | _, .compareRest | _, .suffixes _ =>
    (s.get pos).kind = .symbol .assign → stop = pos
  | _, _ => True

theorem Derives.opens {s : Stream} {ph : Phrase} {r : Rule ph} {pos q : Nat} {t : ph.Tree}
    (h : Derives s r pos t q) : r.Opens s pos q := by
  -- a rule that begins with an operand, before what may follow it
  have operand {p pos q : Nat} (h : (s.get pos).kind.opensExpr = true ∧
      ((s.get pos).kind = .name → (s.get (pos + 1)).kind = .symbol .assign → p = pos + 1))
      (hr : (s.get p).kind = .symbol .assign → q = p) : (s.get pos).kind.opensExpr = true ∧
        ((s.get pos).kind = .name → (s.get (pos + 1)).kind = .symbol .assign → q = pos + 1) := by
    refine ⟨h.1, fun hname hassign => ?_⟩
    obtain rfl := h.2 hname hassign
    exact hr hassign
  have other {pos q : Nat} {k : TokenKind} (hk : (s.get pos).kind = k) (hne : k ≠ .symbol .assign) :
      (s.get pos).kind = .symbol .assign → q = pos := fun hassign => absurd (hk.symm.trans hassign) hne
  have bracket {pos q : Nat} {k : TokenKind} (hk : (s.get pos).kind = k) (hopen : k.opensExpr = true)
      (hne : k ≠ .name) : (s.get pos).kind.opensExpr = true ∧
        ((s.get pos).kind = .name → (s.get (pos + 1)).kind = .symbol .assign → q = pos + 1) :=
    ⟨hk ▸ hopen, fun hname => absurd (hk.symm.trans hname) hne⟩
  induction h with
  | conditional _ ih | unconditional _ ih | unaryEnd _ _ ih => exact ih
  | cond _ _ ih ihr | compareOne _ _ ih ihr | compareMany _ _ _ ih ihr | suffixed _ _ ih ihr => exact operand ih ihr
  | @binary op _ _ _ _ _ _ _ ih ihr => cases op <;> exact operand ih ihr
  | condEnd | binaryEnd | operandEnd | suffixEnd => exact fun _ => rfl
  | condMore hi => exact other hi nofun
  | @binaryMore op _ _ _ _ _ _ hk => exact other hk (by cases op <;> nofun)
  | @operandMore pos op _ _ _ _ _ ho =>
    intro hassign
    cases ho with
    | one h => rw [hassign] at h; cases h
    | notIn hn => rw [hassign] at hn; cases hn
  | @suffixMore e pos _ _ _ _ _ hk =>
    intro hassign
    rw [hassign] at hk
    cases hk
  | @unaryMore pos op _ _ hk =>
    generalize hkind : (s.get pos).kind = k at hk
    refine bracket hkind ?_ ?_
    · cases k with
      | keyword k => cases k <;> first | rfl | cases hk
      | symbol x => cases x <;> first | rfl | cases hk
      | _ => cases hk
    · rintro rfl
      cases hk
  | @literal pos e h =>
    refine ⟨?_, fun _ _ => rfl⟩
    unfold Token.literal? at h
    generalize (s.get pos).kind = k at h
    cases k <;> first | rfl | cases h
  | parens hk | bracket hk | brace hk => exact bracket hk rfl nofun
  | _ => trivial

namespace Grammar

variable {find : Text → Option Extension} {s : Stream} {pos q : Nat} {e : Expr}

theorem ofExtensions_opens (h : ofExtensions find (.expression true) s pos = .ok e q) :
    (s.get pos).kind.opensExpr = true := (ofExtensions_sound find s rfl h).opens.1

/-- An expression behind which no equals sign stands does not begin as an argument by name. -/
theorem ofExtensions_no_key (h : ofExtensions find (.expression true) s pos = .ok e q)
    (hq : (s.get q).kind ≠ .symbol .assign) :
    ¬((s.get pos).kind = .name ∧ (s.get (pos + 1)).kind = .symbol .assign) := by
  rintro ⟨hname, hassign⟩
  rw [(ofExtensions_sound find s rfl h).opens.2 hname hassign] at hq
  exact hq hassign

end Grammar
end Stencil
