/-
Constants that are written in a source. The value of a number token is a numeral, which reads as a number without a
sign; and so the JSON text of every constant that a token denotes reads as what is kept of the constant
(`Constant.IsUnsigned.decodes`).
-/
import Stencil.Proofs.Document.Record
import Stencil.Proofs.Layout.Basic
import Stencil.Proofs.Writing.Expression

namespace Stencil

/-! ## Numbers -/

/-- The number has no sign, and it is infinite or has its normal form. -/
def Double.IsUnsigned (x : Double) : Prop :=
  x = .infinite false ∨ ∃ m e, Double.Canonical m e ∧ x = .finite false m e

theorem Numeral.toDouble_isUnsigned (n : Numeral) : n.toDouble.IsUnsigned := by
  rw [toDouble, Double.ofDecimal_eq]
  exact Double.ofRat_form false (mul_nonneg (Nat.cast_nonneg _) (zpow_nonneg (by norm_num) _))

/-! ## Tokens -/

/-- The value of a number is a numeral. -/
def Token.IsNumeric (t : Token) : Prop :=
  t.kind = .integer ∨ t.kind = .float → ∃ n : Numeral, n.WellFormed ∧ t.value = n.text

/-- Tokens that are no numbers have no such value. -/
theorem Token.IsNumeric.of_other {t : Token} (h : t.kind ≠ .integer) (h' : t.kind ≠ .float) : t.IsNumeric :=
  fun hk => (hk.elim h h').elim

namespace Lexeme

theorem number_numeral (afterDot : Bool) {c : CodeUnit} (t : Text) (hc : Text.isDigit c = true) :
    ∃ n : Numeral, n.WellFormed ∧ (number afterDot c t).value = n.text := by
  have htake (u : Text) : ∀ d ∈ u.takeWhile Text.isDigit, Text.isDigit d = true :=
    List.all_eq_true.1 List.all_takeWhile
  have hwhole : ∀ d ∈ c :: t.takeWhile Text.isDigit, Text.isDigit d = true := List.forall_mem_cons.2 ⟨hc, htake t⟩
  have hinteger : ∃ n : Numeral, n.WellFormed ∧ c :: t.takeWhile Text.isDigit = n.text :=
    ⟨⟨c :: t.takeWhile Text.isDigit, [], none⟩, ⟨hwhole, List.forall_mem_nil _, List.cons_ne_nil _ _⟩,
      by simp [Numeral.text, Numeral.fractionText, Numeral.exponentText]⟩
  unfold number
  simp only
  split
  · rename_i p d r _
    split
    · rename_i hpoint
      simp only [Bool.and_eq_true, decide_eq_true_eq] at hpoint
      obtain ⟨⟨-, rfl⟩, hd⟩ := hpoint
      refine ⟨⟨c :: t.takeWhile Text.isDigit, d :: r.takeWhile Text.isDigit, none⟩,
        ⟨hwhole, List.forall_mem_cons.2 ⟨hd, htake r⟩, List.cons_ne_nil _ _⟩, ?_⟩
      rw [Numeral.text_of_fraction (List.cons_ne_nil _ _)]
    · exact hinteger
  · exact hinteger

theorem read_isNumeric {afterDot : Bool} {t : Text} {l : Lexeme} (h : read afterDot t = .ok l) (s : Span) :
    Token.IsNumeric ⟨l.kind, l.value, s⟩ := by
  cases t with
  | nil => cases h
  | cons c t =>
    rw [read] at h
    split at h
    · split at h
      · cases h
        exact .of_other (by simp) (by simp)
      · cases h
    · split at h
      · rename_i hdigit
        cases h
        exact fun _ => number_numeral afterDot t hdigit
      · split at h
        · cases h
          unfold word
          simp only
          split <;> exact .of_other (by simp) (by simp)
        · split at h
          · cases h
            exact .of_other (by simp) (by simp)
          · cases h

end Lexeme

namespace Scan

variable {d : Delimiters} {filename : Option Text} {place : Location} {rest : Text} {r : Step}

theorem dataTokens_isNumeric (place : Location) (text : Text) : ∀ t ∈ dataTokens place text, t.IsNumeric := by
  intro t ht
  obtain ⟨-, rfl⟩ := mem_dataTokens.1 ht
  exact .of_other (by simp) (by simp)

theorem lexemeStep_isNumeric {mode : TokenKind → Mode} {afterDot : Bool}
    (h : lexemeStep filename mode afterDot place rest = .ok r) : ∀ t ∈ r.tokens, t.IsNumeric := by
  unfold lexemeStep at h
  split at h
  · rename_i l hl
    cases h
    exact List.forall_mem_singleton.2 (Lexeme.read_isNumeric hl _)
  · cases h

theorem openerStep_isNumeric {o : Option Delimiters.Opener} (h : openerStep d filename place rest o = .ok r) :
    ∀ t ∈ r.tokens, t.IsNumeric := by
  cases o with
  | none =>
    cases h
    exact List.forall_mem_singleton.2 (.of_other (by simp [Token.atEnd]) (by simp [Token.atEnd]))
  | some o =>
    cases o with
    | interpolation =>
      cases h
      exact List.forall_mem_singleton.2 (.of_other (by simp) (by simp))
    | comment =>
      simp only [openerStep] at h
      split at h
      · cases h
        exact List.forall_mem_nil _
      · cases h
    | block =>
      simp only [openerStep] at h
      split at h
      · split at h
        · cases h
          exact dataTokens_isNumeric _ _
        · cases h
      · cases h
        exact List.forall_mem_singleton.2 (.of_other (by simp) (by simp))

theorem step_isNumeric {s : State} (h : s.step d filename = .ok r) : ∀ t ∈ r.tokens, t.IsNumeric := by
  unfold State.step at h
  split at h
  · simp only at h
    cases ho : openerStep d filename (s.place.after (d.splitData s.rest).1) (d.splitData s.rest).2
        (d.opener? (d.splitData s.rest).2) with
    | error e => rw [ho] at h; cases h
    | ok r' =>
      rw [ho] at h
      cases h
      exact List.forall_mem_append.2 ⟨dataTokens_isNumeric _ _, openerStep_isNumeric ho⟩
  · rename_i tag _ _ _ _
    simp only at h
    split at h
    · cases h
    · split at h
      · cases h
        refine List.forall_mem_singleton.2 ?_
        cases tag <;> exact .of_other nofun nofun
      · exact lexemeStep_isNumeric h
  · simp only at h
    split at h
    · cases h
      exact List.forall_mem_singleton.2 (.of_other nofun nofun)
    · exact lexemeStep_isNumeric h

/-- All numbers among the tokens of a scan are numerals. -/
theorem tokensFrom_isNumeric (hd : d.Sound) {s : State} {ts : List Token}
    (h : tokensFrom d hd filename s = .ok ts) : ∀ t ∈ ts, t.IsNumeric := by
  fun_induction tokensFrom d hd filename s generalizing ts with
  | case1 => cases h
  | case2 s r hr hn =>
    cases h
    exact step_isNumeric hr
  | case3 s r hr s' hn ih =>
    cases hrest : tokensFrom d hd filename s' with
    | error e => rw [hrest] at h; cases h
    | ok us =>
      rw [hrest] at h
      cases h
      exact List.forall_mem_append.2 ⟨step_isNumeric hr, ih hrest⟩

end Scan

/-! ## Constants -/

/-- If the constant is a number, it has no sign. -/
def Constant.IsUnsigned (c : Constant) : Prop := ∀ x, c = .number x → x.IsUnsigned

theorem Token.Denotes.isUnsigned {t : Token} {c : Constant} (h : t.Denotes c) (ht : t.IsNumeric) : c.IsUnsigned := by
  rintro x rfl
  unfold Denotes at h
  split at h
  · unfold Constant.ofName? at h
    split_ifs at h <;> cases h
  · rename_i hk
    obtain ⟨n, hn, hvalue⟩ := ht (.inl hk)
    unfold Constant.ofInteger? at h
    simp only at h
    split at h
    · cases h
      rw [hvalue, Numeral.read_text hn]
      exact n.toDouble_isUnsigned
    · obtain ⟨i, -, hi⟩ := Option.map_eq_some_iff.1 h
      cases hi
  · rename_i hk
    obtain ⟨n, hn, hvalue⟩ := ht (.inr hk)
    cases h
    rw [hvalue, Numeral.read_text hn]
    exact n.toDouble_isUnsigned
  · cases h
  · exact h.elim

/-- The text of the constant reads as what is kept of it. -/
theorem Constant.IsUnsigned.decodes {c : Constant} (h : c.IsUnsigned) :
    Json.Decodes c.json c.kept.json (.constant c.kept) := by
  cases c with
  | text t => exact .string t
  | bigint i => exact .string _
  | bool b => exact ⟨.bool b, rfl⟩
  | none => exact .null
  | number x =>
    obtain rfl | ⟨m, e, hcanonical, rfl⟩ := h x rfl
    · exact ⟨.nonfinite rfl, rfl⟩
    · exact ⟨.number hcanonical, rfl⟩

/-- Nothing is kept of the infinite number, but something of all else. -/
theorem Constant.IsUnsigned.kept_eq_none {c : Constant} (h : c.IsUnsigned) (hnone : c.kept = .none) :
    c = .none ∨ c = .number (.infinite false) := by
  cases c with
  | none => exact .inl rfl
  | number x =>
    obtain rfl | ⟨m, e, -, rfl⟩ := h x rfl
    · exact .inr rfl
    · cases hnone
  | text | bigint | bool => cases hnone

end Stencil
