/-
The closers that a scan awaits, told from the tokens before a position of a stream. At the tokens of a
template that stand outside of tags, or begin or end one, none is awaited (`Scan.Word.awaited_eq_nil`).
-/
import Stencil.Proofs.Derivation.Places
import Stencil.Proofs.Progress.Run
import Stencil.Proofs.Words.Template

namespace Stencil

/-- The kind is one of the six brackets. -/
def TokenKind.isBracket : TokenKind → Bool
  | .symbol .openParen | .symbol .closeParen | .symbol .openBracket | .symbol .closeBracket
  | .symbol .openBrace | .symbol .closeBrace => true
  | _ => false

theorem Symbol.Pairs.isBracket {o c : Symbol} (h : o.Pairs c) :
    (TokenKind.symbol o).isBracket = true ∧ (TokenKind.symbol c).isBracket = true := by
  cases h <;> exact ⟨rfl, rfl⟩

namespace Scan

theorem trackBrackets_plain {σ : List Symbol} (hσ : Closers σ) {k : TokenKind} (hk : k.isBracket = false) :
    trackBrackets σ k = σ := by
  refine trackBrackets_ignores (fun o c hp => ?_) fun c hc => ?_
  · rintro rfl
    rw [hp.isBracket.1] at hk
    cases hk
  · rintro rfl
    obtain ⟨o, hp⟩ := hσ c (List.mem_of_mem_head? hc)
    rw [hp.isBracket.2] at hk
    cases hk

/-- In a word no closer is awaited at a token that stands in no expression. -/
theorem Word.foldl_eq_nil {us vs : List Token} {t : Token} (h : Word (us ++ t :: vs))
    (ht : t.kind.inExpression = false) : (us.map Token.kind).foldl trackBrackets [] = [] := by
  generalize hts : us ++ t :: vs = ts at h
  induction h generalizing us with
  | finish _ =>
    have hus : us = [] := by
      have := congrArg List.length hts
      simp only [List.length_append, List.length_cons, List.length_nil] at this
      exact List.length_eq_zero_iff.1 (by omega)
    rw [hus]
    rfl
  | data hk _ _ ih =>
    cases us with
    | nil => rfl
    | cons u us =>
      obtain ⟨rfl, hrest⟩ := List.cons.inj hts
      rw [List.map_cons, List.foldl_cons, hk]
      exact ih hrest
  | @tag tag b e inner ts hb hi he _ ih =>
    cases us with
    | nil => rfl
    | cons u us =>
      obtain ⟨rfl, hrest⟩ := List.cons.inj hts
      have hbegin : trackBrackets [] u.kind = [] := by rw [hb]; cases tag <;> rfl
      have hend : trackBrackets [] e.kind = [] := by rw [he]; cases tag <;> rfl
      rw [List.map_cons, List.foldl_cons, hbegin]
      rcases List.append_eq_append_iff.1 hrest with ⟨ws, rfl, hws⟩ | ⟨ws, rfl, hws⟩
      · -- the token would stand inside of the tag, or it ends the tag
        cases ws with
        | nil =>
          rw [List.append_nil] at hi
          exact hi.brackets.foldl
        | cons w ws =>
          obtain ⟨rfl, -⟩ := List.cons.inj hws
          rw [hi.inExpression t (List.mem_append_right _ List.mem_cons_self)] at ht
          cases ht
      · cases ws with
        | nil =>
          rw [List.append_nil]
          exact hi.brackets.foldl
        | cons w ws =>
          obtain ⟨rfl, hbehind⟩ := List.cons.inj hws
          rw [List.map_append, List.foldl_append, hi.brackets.foldl, List.map_cons, List.foldl_cons, hend]
          exact ih hbehind.symm

/-- A word ends with the end of the source. -/
theorem Word.getLast? {ts : List Token} (h : Word ts) : ∃ t, ts.getLast? = some t ∧ t.kind = .eof := by
  induction h with
  | @finish t hk => exact ⟨t, rfl, hk⟩
  | data _ _ _ ih =>
    obtain ⟨t, ht, hk⟩ := ih
    exact ⟨t, by rw [List.getLast?_cons, ht, Option.getD_some], hk⟩
  | tag _ _ _ _ _ ih =>
    obtain ⟨t, ht, hk⟩ := ih
    refine ⟨t, ?_, hk⟩
    rw [List.getLast?_cons, List.getLast?_append, List.getLast?_cons, ht]
    rfl

end Scan

namespace Stream

/-- The closers that a scan awaits before a token, the one that was opened last in front. -/
def awaited (s : Stream) : Nat → List Symbol
  | 0 => []
  | i + 1 => Scan.trackBrackets (s.awaited i) (s.get i).kind

variable {s : Stream} {i : Nat} {o c : Symbol}

/-- The tokens up to a position, the one there, and those behind it. -/
theorem toList_eq_at (hi : i < s.tokens.size) : s.tokens.toList = (List.range' 0 i).map s.get ++
    s.get i :: (List.range' (i + 1) (s.tokens.size - (i + 1))).map s.get := by
  have hrange : List.range' 0 s.tokens.size =
      List.range' 0 i ++ i :: List.range' (i + 1) (s.tokens.size - (i + 1)) := by
    obtain ⟨n, hn⟩ := Nat.exists_eq_add_of_le hi
    rw [← List.range'_succ, hn, Nat.add_sub_cancel_left, Nat.succ_add, ← Nat.add_succ,
      ← List.range'_append_1, Nat.zero_add]
  rw [s.toList_eq_map_get, hrange, List.map_append, List.map_cons]

theorem awaited_eq_foldl (s : Stream) (i : Nat) :
    s.awaited i = (((List.range' 0 i).map s.get).map Token.kind).foldl Scan.trackBrackets [] := by
  induction i with
  | zero => rfl
  | succ i ih =>
    rw [List.range'_1_concat, List.map_append, List.map_append, List.foldl_append, ← ih, Nat.zero_add]
    rfl

theorem awaited_closers (s : Stream) (i : Nat) : Scan.Closers (s.awaited i) := by
  induction i with
  | zero => exact .nil
  | succ i ih => exact ih.trackBrackets _

theorem awaited_plain (hk : (s.get i).kind.isBracket = false) : s.awaited (i + 1) = s.awaited i :=
  Scan.trackBrackets_plain (s.awaited_closers i) hk

theorem awaited_opens (hp : o.Pairs c) (hk : (s.get i).kind = .symbol o) : s.awaited (i + 1) = c :: s.awaited i := by
  rw [awaited, hk, Scan.trackBrackets_opens hp]

theorem awaited_closes {σ : List Symbol} (hp : o.Pairs c) (hk : (s.get i).kind = .symbol c)
    (hσ : s.awaited i = c :: σ) : s.awaited (i + 1) = σ := by
  rw [awaited, hσ, hk, Scan.trackBrackets_closes hp]

end Stream

namespace Scan.Word

variable {s : Stream} {i : Nat}

theorem last_kind (h : Word s.tokens.toList) : s.last.kind = .eof := by
  obtain ⟨t, ht, heof⟩ := h.getLast?
  have hback : s.tokens[s.tokens.size - 1]? = some t := by rw [← ht, Array.getLast?_toList, Array.back?]
  rw [← s.get_last, Stream.get, hback]
  exact heof

/-- In the tokens of a template no closer is awaited at a token that stands in no expression. -/
theorem awaited_eq_nil (h : Word s.tokens.toList) (hi : (s.get i).kind.inExpression = false) :
    s.awaited i = [] := by
  have within {j : Nat} (hj : j < s.tokens.size) (hk : (s.get j).kind.inExpression = false) : s.awaited j = [] := by
    rw [s.awaited_eq_foldl]
    exact (Stream.toList_eq_at hj ▸ h).foldl_eq_nil hk
  rcases Nat.lt_or_ge i s.tokens.size with hlt | hge
  · exact within hlt hi
  -- behind its tokens the stream repeats the end token
  · have hlast (n : Nat) : (s.get (s.tokens.size - 1 + n)).kind = .eof := by
      cases n with
      | zero => rw [Nat.add_zero, s.get_last, h.last_kind]
      | succ n => rw [s.get_of_size_le (by omega), h.last_kind]
    have hbehind (n : Nat) : s.awaited (s.tokens.size - 1 + n) = [] := by
      induction n with
      | zero => exact within (Nat.sub_lt s.ne_empty Nat.one_pos) (by rw [hlast 0]; rfl)
      | succ n ih => rw [← Nat.add_assoc, Stream.awaited_plain (by rw [hlast n]; rfl), ih]
    have := hbehind (i - (s.tokens.size - 1))
    rwa [Nat.add_sub_cancel' (by omega)] at this

end Scan.Word

end Stencil
