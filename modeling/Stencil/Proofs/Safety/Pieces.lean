/-
Which lists of tokens a scan gives. Outside of tags there is nothing but data, the begin of a tag and the
end token (`Pieces`), and the value of an integer token is an integer. What a scan reports instead is a
mistake in a token.
-/
import Stencil.Proofs.Progress.Frame
import Stencil.Proofs.Progress.Scan
import Stencil.Proofs.Text.Digit

namespace Stencil

/-! ## Integers -/

/-- A run of digits is the constant of some integer. -/
theorem Constant.ofInteger?_digits {c : CodeUnit} {t : Text} (h : (c :: t).all Text.isDigit = true) :
    (ofInteger? (c :: t)).isSome := by
  unfold ofInteger?
  simp only
  split
  · rfl
  · rw [Option.isSome_map]
    exact Text.integer?_digits h

/-! ## Tokens of expressions -/

/-- The value of an integer token is an integer. -/
def Token.Readable (t : Token) : Prop := t.kind = .integer → (Constant.ofInteger? t.value).isSome

namespace Lexeme

theorem all_takeWhile_isDigit {c : CodeUnit} (t : Text) (hc : Text.isDigit c = true) :
    (c :: t.takeWhile Text.isDigit).all Text.isDigit = true := by
  rw [List.all_cons, hc, List.all_takeWhile]
  rfl

/-- A token of an expression does not end a tag, and if it is an integer, it writes one. -/
theorem read_kind {afterDot : Bool} {t : Text} {l : Lexeme} (h : read afterDot t = .ok l) :
    l.kind.endsPiece = false ∧ (l.kind = .integer → (Constant.ofInteger? l.value).isSome) := by
  cases t with
  | nil => cases h
  | cons c t =>
    rw [read] at h
    split at h
    · split at h
      · cases h; exact ⟨rfl, by rintro ⟨⟩⟩
      · cases h
    · split at h
      · rename_i hdigit
        cases h
        have hint := Constant.ofInteger?_digits (all_takeWhile_isDigit t hdigit)
        unfold number
        simp only
        split
        · split
          · exact ⟨rfl, by rintro ⟨⟩⟩
          · exact ⟨rfl, fun _ => hint⟩
        · exact ⟨rfl, fun _ => hint⟩
      · split at h
        · cases h
          unfold word
          simp only
          split <;> exact ⟨rfl, by rintro ⟨⟩⟩
        · split at h
          · cases h; exact ⟨rfl, by rintro ⟨⟩⟩
          · cases h

end Lexeme

/-! ## Pieces of a template -/

/-- A list of tokens as a scan gives it from outside of tags on, or from inside of one: an end token last,
integer tokens with integers, and outside of tags only what belongs there. -/
def Pieces : (outside : Bool) → List Token → Prop
  | _, [] => False
  | outside, t :: ts =>
    (outside = true → t.kind.opensPiece = true) ∧ t.Readable ∧
      (ts = [] ∧ t.kind = .eof ∨ Pieces t.kind.endsPiece ts)

namespace Pieces

theorem of_outside {b : Bool} {ts : List Token} (h : Pieces true ts) : Pieces b ts := by
  cases ts with
  | nil => exact h
  | cons t ts => exact ⟨fun _ => h.1 rfl, h.2⟩

theorem data {b : Bool} {ts : List Token} (h : Pieces true ts) (place : Location) (text : Text) :
    Pieces b (Scan.dataTokens place text ++ ts) := by
  unfold Scan.dataTokens
  split
  · exact of_outside h
  · exact ⟨fun _ => rfl, nofun, .inr h⟩

/-- Each token behind one that ends a piece opens the next one, and integers are readable. -/
theorem of_getElem? {b : Bool} {ts : List Token} (h : Pieces b ts) {i : Nat} {t : Token}
    (ht : ts[i]? = some t) : t.Readable ∧
      (t.kind.endsPiece = true → ∃ u, ts[i + 1]? = some u ∧ u.kind.opensPiece = true) := by
  induction ts generalizing b i with
  | nil => cases ht
  | cons a ts ih =>
    obtain ⟨-, hread, hrest⟩ := h
    cases i with
    | zero =>
      cases ht
      refine ⟨hread, fun hend => ?_⟩
      rcases hrest with ⟨-, heof⟩ | hrest
      · rw [heof] at hend; cases hend
      · rw [hend] at hrest
        cases ts with
        | nil => exact hrest.elim
        | cons u us => exact ⟨u, rfl, hrest.1 rfl⟩
    | succ i =>
      rcases hrest with ⟨rfl, -⟩ | hrest
      · cases ht
      · exact ih hrest ht

theorem getLast? {b : Bool} {ts : List Token} (h : Pieces b ts) :
    ∃ t, ts.getLast? = some t ∧ t.kind = .eof := by
  induction ts generalizing b with
  | nil => exact h.elim
  | cons a ts ih =>
    obtain ⟨-, -, ⟨rfl, heof⟩ | hrest⟩ := h
    · exact ⟨a, rfl, heof⟩
    · obtain ⟨t, ht, heof⟩ := ih hrest
      cases ts with
      | nil => cases ht
      | cons u us => exact ⟨t, by rwa [List.getLast?_cons_cons], heof⟩

end Pieces

namespace Scan

/-! ## One step -/

/-- The state stands outside of tags. -/
def Mode.isOutside : Mode → Bool
  | .outside => true
  | _ => false

/-- The tokens of a step are pieces together with those behind the step. -/
def Step.GivesPieces (r : Step) (outside : Bool) : Prop :=
  match r.next with
  | some s => ∀ ts, Pieces s.mode.isOutside ts → Pieces outside (r.tokens ++ ts)
  | none => Pieces outside r.tokens

variable {d : Delimiters} {filename : Option Text} {place : Location} {rest : Text} {r : Step}

theorem lexemeStep_givesPieces {mode : TokenKind → Mode} (hmode : ∀ k, (mode k).isOutside = false)
    {afterDot : Bool} (h : lexemeStep filename mode afterDot place rest = .ok r) : r.GivesPieces false := by
  unfold lexemeStep at h
  split at h
  · rename_i l hl
    cases h
    obtain ⟨hkind, hread⟩ := Lexeme.read_kind hl
    intro ts hts
    rw [hmode] at hts
    refine ⟨nofun, hread, .inr ?_⟩
    show Pieces l.kind.endsPiece ts
    rwa [hkind]
  · cases h

theorem openerStep_givesPieces {o : Option Delimiters.Opener} (h : openerStep d filename place rest o = .ok r) :
    r.GivesPieces true := by
  cases o with
  | none => cases h; exact ⟨fun _ => rfl, by rintro ⟨⟩, .inl ⟨rfl, rfl⟩⟩
  | some o =>
    cases o with
    | interpolation => cases h; exact fun ts hts => ⟨fun _ => rfl, by rintro ⟨⟩, .inr hts⟩
    | comment =>
      simp only [openerStep] at h
      split at h
      · cases h; exact fun ts hts => hts
      · cases h
    | block =>
      simp only [openerStep] at h
      split at h
      · split at h
        · cases h; exact fun ts hts => .data hts _ _
        · cases h
      · cases h; exact fun ts hts => ⟨fun _ => rfl, by rintro ⟨⟩, .inr hts⟩

theorem step_givesPieces {s : State} (h : s.step d filename = .ok r) : r.GivesPieces s.mode.isOutside := by
  unfold State.step at h
  split at h
  · rename_i hm
    rw [hm]
    simp only at h
    cases ho : openerStep d filename (s.place.after (d.splitData s.rest).1) (d.splitData s.rest).2
        (d.opener? (d.splitData s.rest).2) with
    | error e => rw [ho] at h; cases h
    | ok r' =>
      rw [ho] at h
      cases h
      have hgives := openerStep_givesPieces ho
      unfold Step.GivesPieces at hgives ⊢
      cases hn : r'.next with
      | some s' =>
        simp only [hn] at hgives ⊢
        intro ts hts
        rw [List.append_assoc]
        exact .data (hgives ts hts) _ _
      | none =>
        simp only [hn] at hgives ⊢
        exact .data hgives _ _
  · rename_i tag opened closers afterDot hm
    rw [hm]
    simp only at h
    split at h
    · cases h
    · split at h
      · cases h
        intro ts hts
        cases tag <;> exact ⟨nofun, nofun, .inr hts⟩
      · exact lexemeStep_givesPieces (fun _ => rfl) h
  · rename_i hm
    rw [hm]
    simp only at h
    split at h
    · cases h; exact ⟨nofun, nofun, .inl ⟨rfl, rfl⟩⟩
    · exact lexemeStep_givesPieces (fun _ => rfl) h

/-! ## All steps -/

/-- The tokens from a state on are pieces. -/
theorem tokensFrom_pieces (hd : d.Sound) {s : State} {ts : List Token}
    (h : tokensFrom d hd filename s = .ok ts) : Pieces s.mode.isOutside ts := by
  fun_induction tokensFrom d hd filename s generalizing ts with
  | case1 => cases h
  | case2 s r hr hn =>
    cases h
    have hgives := step_givesPieces hr
    unfold Step.GivesPieces at hgives
    rwa [hn] at hgives
  | case3 s r hr s' hn ih =>
    have hgives := step_givesPieces hr
    unfold Step.GivesPieces at hgives
    rw [hn] at hgives
    cases hrest : tokensFrom d hd filename s' with
    | error e => rw [hrest] at h; cases h
    | ok us =>
      rw [hrest] at h
      cases h
      exact hgives us (ih hrest)

/-! ## Mistakes in tokens -/

theorem unclosed_of (construct expected : Text) :
    (unclosed filename construct expected place).Of .lexer := ⟨rfl, rfl⟩

theorem lexemeStep_error {mode : TokenKind → Mode} {afterDot : Bool} {e : Diagnostic}
    (h : lexemeStep filename mode afterDot place rest = .error e) : e.Of .lexer := by
  unfold lexemeStep at h
  split at h
  · cases h
  · rename_i f _
    cases h
    cases f <;> exact ⟨rfl, rfl⟩

theorem openerStep_error {o : Option Delimiters.Opener} {e : Diagnostic}
    (h : openerStep d filename place rest o = .error e) : e.Of .lexer := by
  unfold openerStep at h
  split at h
  · cases h
  · split at h
    · cases h
    · cases h; exact unclosed_of ..
  · split at h
    · split at h
      · cases h
      · cases h; exact unclosed_of ..
    · cases h
  · cases h

/-- What a step reports is a mistake in a token. -/
theorem step_error {s : State} {e : Diagnostic} (h : s.step d filename = .error e) : e.Of .lexer := by
  unfold State.step at h
  split at h
  · simp only at h
    cases ho : openerStep d filename (s.place.after (d.splitData s.rest).1) (d.splitData s.rest).2
        (d.opener? (d.splitData s.rest).2) with
    | error e' => rw [ho] at h; cases h; exact openerStep_error ho
    | ok r => rw [ho] at h; cases h
  · simp only at h
    split at h
    · cases h; exact unclosed_of ..
    · split at h
      · cases h
      · exact lexemeStep_error h
  · simp only at h
    split at h
    · cases h
    · exact lexemeStep_error h

theorem tokensFrom_error (hd : d.Sound) {s : State} {e : Diagnostic}
    (h : tokensFrom d hd filename s = .error e) : e.Of .lexer := by
  fun_induction tokensFrom d hd filename s with
  | case1 s e he => cases h; exact step_error he
  | case2 => cases h
  | case3 s r hr s' hn ih =>
    cases hrest : tokensFrom d hd filename s' with
    | error e' => rw [hrest] at h; cases h; exact ih hrest
    | ok us => rw [hrest] at h; cases h

end Scan
end Stencil
