/-
The words that block tags begin with. `Stream.heads` lists them for a stretch of tokens; there are none where
the stretch stands inside of tags (`Stream.Inside`), as all that is read of expressions does. What begins as
an expression begins with no word that delimits a body (`Derives.begins`).
-/
import Stencil.Proofs.Blocks.Nesting
import Stencil.Proofs.Leaves.Inside

namespace Stencil

open Stencil.Grammar

/-- The tokens right behind those that begin block tags. -/
def Token.heads (ts : List Token) : List Token :=
  (ts.zip ts.tail).filterMap fun p => if p.1.kind = .blockBegin then some p.2 else none

theorem Token.heads_cons_cons (t u : Token) (ts : List Token) :
    heads (t :: u :: ts) = (if t.kind = .blockBegin then [u] else []) ++ heads (u :: ts) := by
  unfold heads
  rw [List.tail_cons, List.zip_cons_cons, List.filterMap_cons]
  by_cases h : t.kind = .blockBegin
  · simp only [if_pos h]
    rfl
  · simp only [if_neg h]
    rfl

def TokenKind.isBlockBegin : TokenKind → Bool
  | blockBegin => true
  | _ => false

theorem TokenKind.not_isBlockBegin_of_inExpression {k : TokenKind} (h : k.inExpression = true) :
    k.isBlockBegin = false := by
  cases k <;> first | rfl | cases h

namespace Stream

variable (s : Stream)

/-- The first tokens of the block tags that begin from one position up to another. -/
def heads (a b : Nat) : List Token := (s.places TokenKind.isBlockBegin a b).map fun i => s.get (i + 1)

/-- No block tag begins from one position up to another. -/
def Headless (a b : Nat) : Prop := a ≤ b ∧ s.heads a b = []

variable {s} {a b c pos : Nat} {k : TokenKind}

theorem heads_append (hab : a ≤ b) (hbc : b ≤ c) : s.heads a b ++ s.heads b c = s.heads a c := by
  unfold heads
  rw [← places_append hab hbc, List.map_append]

theorem Inside.headless (h : s.Inside a b) : s.Headless a b := by
  refine ⟨h.1, ?_⟩
  unfold heads
  rw [places_eq_nil fun i hi hi' => TokenKind.not_isBlockBegin_of_inExpression (h.2 i hi hi'), List.map_nil]

theorem heads_begin (hk : (s.get a).kind = .blockBegin) : s.heads a (a + 1) = [s.get (a + 1)] := by
  unfold heads
  rw [places_succ, if_pos (by rw [hk]; rfl)]
  rfl

theorem heads_other (hk : (s.get a).kind = k) (hb : k.isBlockBegin = false) : s.heads a (a + 1) = [] := by
  unfold heads
  rw [places_succ, if_neg (by rw [hk, hb]; exact Bool.false_ne_true), List.map_nil]

theorem Headless.nil (a : Nat) : s.Headless a a := Inside.nil.headless

theorem Headless.one (hk : (s.get a).kind = k) (hb : k.isBlockBegin = false) : s.Headless a (a + 1) :=
  ⟨Nat.le_succ a, heads_other hk hb⟩

theorem Headless.append (h : s.Headless a b) (h' : s.Headless b c) : s.Headless a c :=
  ⟨Nat.le_trans h.1 h'.1, by rw [← heads_append h.1 h'.1, h.2, h'.2, List.nil_append]⟩

theorem heads_map_get (a n : Nat) : Token.heads ((List.range' a (n + 1)).map s.get) = s.heads a (a + n) := by
  induction n generalizing a with
  | zero =>
    show Token.heads [s.get a] = s.heads a a
    unfold heads
    rw [places_self]
    rfl
  | succ n ih =>
    have hfirst : (if (s.get a).kind = .blockBegin then [s.get (a + 1)] else []) = s.heads a (a + 1) := by
      split
      · rename_i hk
        exact (heads_begin hk).symm
      · rename_i hk
        refine (heads_other rfl ?_).symm
        generalize (s.get a).kind = k at hk ⊢
        cases k <;> first | rfl | exact absurd rfl hk
    have hrest := ih (a + 1)
    rw [List.range'_succ, List.map_cons] at hrest ⊢
    rw [List.range'_succ, List.map_cons, Token.heads_cons_cons, hrest, hfirst, heads_append (Nat.le_succ a) (by omega)]
    congr 1
    omega

/-- The words of the block tags of a stream are read off its tokens, if the last one begins no tag. -/
theorem heads_toList {n : Nat} (hn : n + 1 = s.tokens.size) : Token.heads s.tokens.toList = s.heads 0 n := by
  rw [s.toList_eq_map_get, ← hn, heads_map_get, Nat.zero_add]

end Stream

/-! ## How expressions begin -/

/-- A rule that begins with an operand, or with nothing, does not begin with a word that delimits a body. -/
def Rule.Begins (s : Stream) (pos : Nat) : {p : Phrase} → Rule p → Prop
  | _, .expression _ | _, .cond | _, .binary _ | _, .compare | _, .unary | _, .primary _ | _, .tuple _ =>
    (s.get pos).kind.delimitsBody = false
  | _, _ => True

theorem Derives.begins {s : Stream} {ph : Phrase} {r : Rule ph} {pos q : Nat} {t : ph.Tree}
    (h : Derives s r pos t q) : r.Begins s pos := by
  induction h with
  | conditional _ ih | unconditional _ ih | cond _ _ ih | compareOne _ _ ih | compareMany _ _ _ ih
  | unaryEnd _ _ ih | suffixed _ _ ih => exact ih
  | @binary op _ _ _ _ _ _ _ ih => cases op <;> exact ih
  | @unaryMore pos op _ _ hk =>
    show (s.get pos).kind.delimitsBody = false
    generalize (s.get pos).kind = k at hk
    cases k with
    | keyword k => cases k <;> first | rfl | cases hk
    | _ => rfl
  | @literal pos e h =>
    show (s.get pos).kind.delimitsBody = false
    unfold Token.literal? at h
    generalize (s.get pos).kind = k at h
    cases k <;> first | rfl | cases h
  | @parens pos _ _ hk | @bracket pos _ _ hk | @brace pos _ _ hk =>
    show (s.get pos).kind.delimitsBody = false
    rw [hk]
    rfl
  | @tupleNone item pos hk =>
    show (s.get pos).kind.delimitsBody = false
    simp only [tupleEnds, printEnds, List.mem_cons, List.not_mem_nil, or_false] at hk
    rcases hk with hk | hk | hk | hk <;> rw [hk] <;> rfl
  | @tupleOne item _ _ _ _ _ _ ih => cases item <;> exact ih
  | @tupleMany item _ _ _ _ _ _ _ _ _ ih => cases item <;> exact ih
  | _ => trivial

end Stencil
