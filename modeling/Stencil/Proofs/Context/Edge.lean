/-
Readings that come to an edge. Two readings run beside each other up to the horizon, and behind it different tokens
stand on the two sides. A reading that ends before them, or at them, without having told them apart is the same on
both sides (`Parallel.Meets`).
-/
import Stencil.Proofs.Derivation.Outcome
import Stencil.Proofs.Parallel.Run

namespace Stencil.Parallel

variable {α β : Type} (m : Parallel)

/-- What the reader on the left reads the one on the right reads, if it does not end further on than one position
behind the horizon. -/
def Meets (mv : α → α) (x y : Parser α) (pos : Nat) : Prop :=
  ∀ ⦃a q⦄, x m.left pos = .ok a q →
    pos ≤ q ∧ (q ≤ m.horizon + 1 → y m.right (pos + m.offset) = .ok (mv a) (q + m.offset))

variable {m} {mv : α → α}
variable {mv' : β → β} {x y : Parser α} {f f' : α → Parser β} {g g' : Token → Parser β} {pos : Nat}

namespace Meets

/-! ## Putting readers together -/

theorem pure {a b : α} (h : b = mv a) : m.Meets mv (Pure.pure a) (Pure.pure b) pos := by
  intro a' q hok
  obtain ⟨rfl, rfl⟩ := Parser.pure_eq_ok.1 hok
  exact ⟨Nat.le_refl _, fun _ => Parser.pure_eq_ok.2 ⟨h, rfl⟩⟩

/-- A first part of which the outcome is known. -/
theorem known (mv : α → α) {a : α} (hx : x m.left pos = .ok a pos)
    (hy : y m.right (pos + m.offset) = .ok (mv a) (pos + m.offset))
    (k : m.Meets mv' (f a) (f' (mv a)) pos) : m.Meets mv' (x >>= f) (y >>= f') pos := by
  intro b r hok
  rw [Parser.bind_ok hx] at hok
  rw [Parser.bind_ok hy]
  exact k hok

theorem fail (h : ∀ a q, x m.left pos ≠ .ok a q) : m.Meets mv x y pos := fun a q hok => absurd hok (h a q)

theorem bind (h : m.Meets mv x y pos) (k : ∀ a q, m.Meets mv' (f a) (f' (mv a)) q) :
    m.Meets mv' (x >>= f) (y >>= f') pos := by
  intro b r hok
  obtain ⟨a, q, hx, hf⟩ := Parser.bind_eq_ok.1 hok
  obtain ⟨hle, hy⟩ := h hx
  obtain ⟨hle', hf'⟩ := k a q hf
  refine ⟨Nat.le_trans hle hle', fun hr => ?_⟩
  exact Parser.bind_eq_ok.2 ⟨mv a, _, hy (Nat.le_trans hle' hr), hf' hr⟩

/-- A first part that is carried on does not come to the edge, since nothing is read on from there. -/
theorem within (h : m.Carries mv x y pos) (hf : ∀ a b r, f a m.left (m.horizon + 1) ≠ .ok b r)
    (k : ∀ a q, m.Meets mv' (f a) (f' (mv a)) q) : m.Meets mv' (x >>= f) (y >>= f') pos := by
  intro b r hok
  obtain ⟨a, q, hx, hfa⟩ := Parser.bind_eq_ok.1 hok
  obtain ⟨hle, hy⟩ := h.of_ok hx
  obtain ⟨hle', hf'⟩ := k a q hfa
  refine ⟨Nat.le_trans hle hle', fun hr => ?_⟩
  have hne : q ≠ m.horizon + 1 := by
    rintro rfl
    exact hf a b r hfa
  exact Parser.bind_eq_ok.2 ⟨mv a, _, hy (by omega), hf' hr⟩

theorem ite {b b' : Prop} [Decidable b] [Decidable b'] {z w : Parser α} (hb : b' ↔ b)
    (ht : b → m.Meets mv x y pos) (he : ¬b → m.Meets mv z w pos) :
    m.Meets mv (if b then x else z) (if b' then y else w) pos := by
  by_cases h : b
  · rw [if_pos h, if_pos (hb.2 h)]
    exact ht h
  · rw [if_neg h, if_neg fun h' => h (hb.1 h')]
    exact he h

/-! ## Looking and moving -/

/-- Before the edge the current token is the same on both sides. -/
theorem here (hle : pos ≤ m.horizon)
    (h : m.Meets mv' (g (m.left.get pos)) (g' ((m.left.get pos).mapPlaces m.move)) pos) :
    m.Meets mv' (Parser.current >>= g) (Parser.current >>= g') pos := by
  intro b r hok
  refine ⟨(h hok).1, fun hr => ?_⟩
  rw [Parser.current_bind, m.same pos hle]
  exact (h hok).2 hr

/-- Kinds are asked for that do not tell the two sides of the edge apart. -/
theorem alike {ks : List TokenKind} (hedge : pos = m.horizon + 1 →
      ks.contains (m.right.get (pos + m.offset)).kind = ks.contains (m.left.get pos).kind) {f f' : Bool → Parser β}
    (k : ∀ b, (b = true → (m.left.get pos).kind ∈ ks) → (b = false → (m.left.get pos).kind ∉ ks) →
      m.Meets mv' (f b) (f' b) pos) :
    m.Meets mv' (Parser.check ks >>= f) (Parser.check ks >>= f') pos := by
  have hsame (hle : pos ≤ m.horizon + 1) :
      ks.contains (m.right.get (pos + m.offset)).kind = ks.contains (m.left.get pos).kind := by
    rcases Nat.eq_or_lt_of_le hle with rfl | hlt
    · exact hedge rfl
    · rw [m.same pos (Nat.le_of_lt_succ hlt), Token.kind_mapPlaces]
  intro b r hok
  rw [Parser.check_bind] at hok
  have hmeets := k (ks.contains (m.left.get pos).kind) List.contains_iff_mem.1 fun hb hmem => by
    rw [List.contains_iff_mem.2 hmem] at hb
    cases hb
  refine ⟨(hmeets hok).1, fun hr => ?_⟩
  rw [Parser.check_bind, hsame (Nat.le_trans (hmeets hok).1 hr)]
  exact (hmeets hok).2 hr

/-- Both move over a token of a known kind. -/
theorem past {k : TokenKind} (hk : (m.left.get pos).kind = k) (hne : k ≠ .eof)
    (h : m.Meets mv' (g (m.left.get pos)) (g' ((m.left.get pos).mapPlaces m.move)) (pos + 1)) :
    m.Meets mv' (Parser.advance >>= g) (Parser.advance >>= g') pos := by
  intro b r hok
  rw [Parser.advance_bind_of hk hne] at hok
  obtain ⟨hle, hy⟩ := h hok
  refine ⟨by omega, fun hr => ?_⟩
  have hsame := m.same pos (by omega)
  have hright : (m.right.get (pos + m.offset)).kind = k := by rw [hsame, Token.kind_mapPlaces, hk]
  rw [Parser.advance_bind_of hright hne, hsame, Nat.add_right_comm]
  exact hy hr

theorem expect {k : TokenKind} (hne : k ≠ .eof)
    (h : (m.left.get pos).kind = k →
      m.Meets mv' (g (m.left.get pos)) (g' ((m.left.get pos).mapPlaces m.move)) (pos + 1)) :
    m.Meets mv' (Parser.expect k >>= g) (Parser.expect k >>= g') pos := by
  intro b r hok
  obtain ⟨hk, hok⟩ := (Parser.expect_eq_ok hne).1 hok
  obtain ⟨hle, hy⟩ := h hk hok
  refine ⟨by omega, fun hr => (Parser.expect_eq_ok hne).2 ?_⟩
  rw [m.same pos (by omega), Token.kind_mapPlaces, Nat.add_right_comm]
  exact ⟨hk, hy hr⟩

theorem previousEnd : m.Meets m.move Parser.previousEnd Parser.previousEnd pos := by
  intro l q hok
  have hend (s : Stream) (i : Nat) : s.endBefore (i + 1) = (s.get i).span.finish := by
    have hedge : 2 * (i + 1) - 1 = 2 * i + 1 := by omega
    rw [Stream.endBefore_eq (Nat.succ_pos i), hedge, Stream.edge_finish]
  obtain ⟨rfl, rfl⟩ := Reply.ok.inj hok
  refine ⟨Nat.le_refl _, fun hle => ?_⟩
  show Reply.ok (m.right.endBefore (pos + m.offset)) _ = .ok (m.move (m.left.endBefore pos)) _
  cases pos with
  | zero => rw [Nat.zero_add, m.start]
  | succ i =>
    rw [Nat.add_right_comm, hend, hend, m.same i (by omega)]
    rfl

end Meets
end Stencil.Parallel
