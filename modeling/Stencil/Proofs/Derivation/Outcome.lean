/-
Taking a successful reading apart. Each lemma says what the success of looking, moving, expecting or
choosing, with the reader that follows it, comes to.
-/
import Stencil.Proofs.Writing.Items

namespace Stencil

/-- The position behind the current token, which stays where the source ends. -/
def Stream.next (s : Stream) (pos : Nat) : Nat := if (s.get pos).kind = .eof then pos else pos + 1

theorem Stream.next_of_ne {s : Stream} {pos : Nat} (h : (s.get pos).kind ≠ .eof) : s.next pos = pos + 1 := if_neg h

namespace Parser

variable {α β : Type} {s : Stream} {pos q : Nat} {a : α} {b : β} {x y : Parser α} {f : Token → Parser α}

theorem pure_eq_ok {c : α} : (pure c : Parser α) s pos = .ok a q ↔ c = a ∧ pos = q := by
  show Reply.ok c pos = .ok a q ↔ _
  rw [Reply.ok.injEq]

theorem ite_eq_ok {c : Prop} [Decidable c] :
    (if c then x else y) s pos = .ok a q ↔ c ∧ x s pos = .ok a q ∨ ¬c ∧ y s pos = .ok a q := by
  by_cases hc : c
  · simp [hc]
  · simp [hc]

theorem check_eq_ok {ks : List TokenKind} :
    (check ks >>= fun c => if c = true then x else y) s pos = .ok a q ↔
      (s.get pos).kind ∈ ks ∧ x s pos = .ok a q ∨ (s.get pos).kind ∉ ks ∧ y s pos = .ok a q := by
  rw [check_bind, ite_eq_ok, List.contains_iff_mem]

theorem checkSymbol_eq_ok {c : Symbol} :
    (checkSymbol c >>= fun b => if b = true then x else y) s pos = .ok a q ↔
      (s.get pos).kind = .symbol c ∧ x s pos = .ok a q ∨ (s.get pos).kind ≠ .symbol c ∧ y s pos = .ok a q := by
  rw [checkSymbol, check_eq_ok, List.mem_singleton]

theorem checkKeyword_eq_ok {k : Keyword} :
    (checkKeyword k >>= fun b => if b = true then x else y) s pos = .ok a q ↔
      (s.get pos).kind = .keyword k ∧ x s pos = .ok a q ∨ (s.get pos).kind ≠ .keyword k ∧ y s pos = .ok a q := by
  rw [checkKeyword, check_eq_ok, List.mem_singleton]

theorem advance_bind_eq : (advance >>= f) s pos = f (s.get pos) s (s.next pos) := rfl

theorem advance_bind_of {k : TokenKind} (h : (s.get pos).kind = k) (hk : k ≠ .eof) :
    (advance >>= f) s pos = f (s.get pos) s (pos + 1) := advance_bind (h ▸ hk) f

theorem expect_eq_ok {k : TokenKind} (hk : k ≠ .eof) :
    (expect k >>= f) s pos = .ok a q ↔ (s.get pos).kind = k ∧ f (s.get pos) s (pos + 1) = .ok a q := by
  by_cases h : (s.get pos).kind = k
  · rw [expect_bind h hk, and_iff_right h]
  · have hfail : expect k s pos = unexpected [k] none s pos := if_neg h
    rw [bind_eq_ok, hfail]
    simp [unexpected, h]

theorem expectSymbol_eq_ok {c : Symbol} :
    (expectSymbol c >>= f) s pos = .ok a q ↔ (s.get pos).kind = .symbol c ∧ f (s.get pos) s (pos + 1) = .ok a q :=
  expect_eq_ok nofun

theorem expectKeyword_eq_ok {k : Keyword} :
    (expectKeyword k >>= f) s pos = .ok a q ↔ (s.get pos).kind = .keyword k ∧ f (s.get pos) s (pos + 1) = .ok a q :=
  expect_eq_ok nofun

theorem expect_name_eq_ok :
    (expect .name >>= f) s pos = .ok a q ↔ (s.get pos).kind = .name ∧ f (s.get pos) s (pos + 1) = .ok a q :=
  expect_eq_ok nofun

/-- Behind the comma that stands before every item but the first one. -/
theorem enters_of_ok {first : Bool}
    (h : (if (!first) = true then do let _ ← expectSymbol .comma; x else x) s pos = .ok a q) :
    ∃ p, s.Enters first pos p ∧ x s p = .ok a q := by
  cases first with
  | true => exact ⟨pos, rfl, h⟩
  | false =>
    obtain ⟨hcomma, h⟩ := expectSymbol_eq_ok.1 h
    exact ⟨pos + 1, ⟨hcomma, rfl⟩, h⟩

theorem report_ne_ok {id : ErrorId} {context : MessageContext} {place : Location} :
    report id context place s pos = .ok a q ↔ False := by
  simp [report]

theorem unexpected_ne_ok {ks : List TokenKind} {t : Option Text} : unexpected ks t s pos = .ok a q ↔ False := by
  simp [unexpected]

theorem faultWith_ne_ok {e : Fault} : faultWith e s pos = .ok a q ↔ False := by
  simp [faultWith, failWith]

end Parser
end Stencil
