/-
Positions of tokens by their kinds. `Stream.places` lists the positions of a stretch whose tokens are of some
kinds; it is taken apart where the stretch is.
-/
import Stencil.Grammar.Stream

namespace Stencil.Stream

theorem toList_eq_map_get (s : Stream) : s.tokens.toList = (List.range' 0 s.tokens.size).map s.get := by
  refine List.ext_getElem (by simp) fun i hi _ => ?_
  rw [Array.length_toList] at hi
  rw [List.getElem_map, List.getElem_range', Nat.zero_add, Nat.one_mul, get, Array.getElem?_eq_getElem hi]
  rfl

/-- The positions from one up to another at which tokens of some kinds stand. -/
def places (s : Stream) (among : TokenKind → Bool) (a b : Nat) : List Nat :=
  (List.range' a (b - a)).filter fun i => among (s.get i).kind

variable {s : Stream} {among : TokenKind → Bool} {a b c i : Nat}

@[simp] theorem places_self : s.places among a a = [] := by simp [places]

theorem mem_places : i ∈ s.places among a b ↔ a ≤ i ∧ i < b ∧ among (s.get i).kind = true := by
  have hrange : i < a + (b - a) ∧ a ≤ i ↔ i < b ∧ a ≤ i := by omega
  rw [places, List.mem_filter, List.mem_range'_1, and_comm (a := a ≤ i), hrange, and_comm (a := i < b), and_assoc]

theorem places_append (hab : a ≤ b) (hbc : b ≤ c) :
    s.places among a b ++ s.places among b c = s.places among a c := by
  have hb : b = a + (b - a) := by omega
  have hc : c - a = (b - a) + (c - b) := by omega
  unfold places
  rw [← List.filter_append, hc, ← List.range'_append_1, ← hb]

theorem places_succ : s.places among a (a + 1) = if among (s.get a).kind then [a] else [] := by
  have h : a + 1 - a = 1 := by omega
  rw [places, h, List.range'_one, List.filter_cons, List.filter_nil]

theorem places_snoc (h : a ≤ b) :
    s.places among a (b + 1) = s.places among a b ++ if among (s.get b).kind then [b] else [] := by
  rw [← places_append h (Nat.le_succ b), places_succ]

theorem places_pairwise : (s.places among a b).Pairwise (· < ·) :=
  (List.pairwise_lt_range' ..).filter _

/-- No token of the kinds stands in the stretch. -/
theorem places_eq_nil (h : ∀ i, a ≤ i → i < b → among (s.get i).kind = false) : s.places among a b = [] := by
  refine List.filter_eq_nil_iff.2 fun i hi => ?_
  obtain ⟨ha, hb⟩ := List.mem_range'_1.1 hi
  simp [h i ha (by omega)]

end Stencil.Stream
