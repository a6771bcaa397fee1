/-
What stands inside of tags. A stretch of tokens stands inside of tags if every token in it is of a kind that
expressions have (`Stream.Inside`); all that is read of expressions does, and so do the heads of statements.
-/
import Stencil.Proofs.Derivation.Scanned
import Stencil.Proofs.Leaves.Reading

namespace Stencil

open Stencil.Grammar

def TokenKind.isKeyword : TokenKind → Bool
  | keyword _ => true
  | _ => false

theorem TokenKind.ne_eof_of_isKeyword {k : TokenKind} (h : k.isKeyword = true) : k ≠ .eof := by
  rintro rfl
  cases h

/-! ## Stretches -/

namespace Stream

/-- The tokens from one position up to another stand inside of tags. -/
def Inside (s : Stream) (a b : Nat) : Prop := a ≤ b ∧ ∀ i, a ≤ i → i < b → (s.get i).kind.inExpression = true

namespace Inside

variable {s : Stream} {a b c : Nat} {k : TokenKind}

theorem nil : s.Inside a a := ⟨Nat.le_refl a, fun _ hi hi' => absurd hi (Nat.not_le.2 hi')⟩

theorem append (h : s.Inside a b) (h' : s.Inside b c) : s.Inside a c := by
  refine ⟨Nat.le_trans h.1 h'.1, fun i hi hi' => ?_⟩
  rcases Nat.lt_or_ge i b with hlt | hge
  · exact h.2 i hi hlt
  · exact h'.2 i hge hi'

theorem one (hk : (s.get a).kind = k) (hin : k.inExpression = true) : s.Inside a (a + 1) := by
  refine ⟨Nat.le_succ a, fun i hi hi' => ?_⟩
  rw [Nat.le_antisymm (Nat.le_of_lt_succ hi') hi, hk, hin]

theorem cons (hk : (s.get a).kind = k) (hin : k.inExpression = true) (h : s.Inside (a + 1) b) : s.Inside a b :=
  (one hk hin).append h

theorem snoc (h : s.Inside a b) (hk : (s.get b).kind = k) (hin : k.inExpression = true) : s.Inside a (b + 1) :=
  h.append (one hk hin)

end Inside
end Stream

/-! ## Expressions stand inside of tags -/

section

variable {s : Stream} {pos p q : Nat}

theorem Stream.Bears.isInside {ls : List Leaf} (h : s.Bears pos q ls) : s.Inside pos q := ⟨h.le, h.inside⟩

variable {ph : Phrase} {r : Rule ph} {t : ph.Tree}

/-- What is read where it may stand stands inside of tags. -/
theorem Derives.isInside (h : Derives s r pos t q) (hf : r.Follows s pos) (hr : r.leaves = []) : s.Inside pos q := by
  refine (h.bears hf pos ?_).isInside
  rw [hr]
  exact .nil

/-- What is read up to the end of a source from its beginning on is read up to the end token. -/
theorem Stream.Closes.eq_end {n : Nat} {e : Expr} (hs : s.Closes n)
    (h : Derives s (.tuple (.expression true)) 0 e q) (hend : (s.get q).kind = .eof) : q = n := by
  refine Nat.le_antisymm ?_ ((hs.2 q).1 hend)
  by_contra hlt
  -- the end token does not stand inside of an expression
  have hinside := (h.isInside Stream.opens_zero rfl).2 n (Nat.zero_le n) (by omega)
  rw [(hs.2 n).2 (Nat.le_refl n)] at hinside
  cases hinside

/-- What is read behind a token that does not bind what follows it stands inside of tags together with it. -/
theorem Derives.inside_behind {k : TokenKind} (h : Derives s r (pos + 1) t q)
    (hf : s.Opens (pos + 1) → r.Follows s (pos + 1)) (hr : r.leaves = []) (hk : (s.get pos).kind = k)
    (hin : k.inExpression = true) (hb : k ∉ Stream.binding) : s.Inside pos q :=
  .cons hk hin (h.isInside (hf (Stream.opens_succ hk hb)) hr)

theorem Stream.Enters.isInside {first : Bool} (h : s.Enters first pos p) : s.Inside pos p := by
  cases first with
  | true =>
    cases (show pos = p from h)
    exact .nil
  | false =>
    obtain ⟨hcomma, rfl⟩ := h
    exact .one hcomma rfl

theorem Stream.Binds.isInside (h : s.Binds pos) : s.Inside pos (pos + 1) := .one h.1 rfl

theorem Stream.Imports.isInside {n : ImportName} (h : s.Imports pos n q) : s.Inside pos q := by
  cases h with
  | plain hb => exact hb.isInside
  | renamed hb _ ha hb' => exact (hb.isInside.snoc ha.1 rfl).append hb'.isInside

/-- The head of a loop stands inside of its tag. -/
theorem Stream.HeadsLoop.isInside {t iter : Expr} {test : Option Expr} (h : s.HeadsLoop s.reads pos t iter test q) :
    s.Inside pos q := by
  obtain ⟨hfor, ht, -, hin, hi, hf, hf'⟩ := h
  have hiter := (ht.1.inside_behind id rfl hfor rfl (by decide)).append (hi.1.inside_behind id rfl hin rfl (by decide))
  cases test with
  | none =>
    rw [hf' rfl]
    exact hiter
  | some e =>
    obtain ⟨hif, he⟩ := hf e rfl
    exact hiter.append (he.1.inside_behind id rfl hif rfl (by decide))

theorem Stream.HeadsLoop.word {t iter : Expr} {test : Option Expr} (h : s.HeadsLoop s.reads pos t iter test q) :
    (s.get pos).kind = .keyword .forTag := by
  obtain ⟨hfor, -⟩ := h
  exact hfor

end

end Stencil
