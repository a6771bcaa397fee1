/-
How the tokens of an expression are spelled: a name is a letter or `_` with letters, `_` and digits behind
it and no keyword, a number is digits or digits around a dot, a keyword or symbol is its own text, and a
string may have any value. `Scan.Contents` says this of a list of tokens, in which besides no float stands
right behind a dot.
-/
import Stencil.Token.Scan
import Stencil.Proofs.Layout.Written

namespace Stencil

/-- The kind and the value of a token, without the place where it stands. -/
def Token.content (t : Token) : TokenKind × Text := (t.kind, t.value)

namespace TokenKind

/-- A token of the kind may have the value; a kind that stands outside of expressions has none. -/
def Spells (k : TokenKind) (value : Text) : Prop :=
  match k with
  | .name => ∃ c t, value = c :: t ∧ Text.isNameStart c = true ∧ t.all Text.isNamePart = true ∧
      ∀ k : Keyword, k.text ≠ value
  | .keyword k => value = k.text
  | .integer => value ≠ [] ∧ value.all Text.isDigit = true
  | .float => ∃ t u, value = t ++ Text.unit '.' :: u ∧ t ≠ [] ∧ t.all Text.isDigit = true ∧ u ≠ [] ∧
      u.all Text.isDigit = true
  | .string => True
  | .symbol s => value = s.text
  | _ => False

theorem Spells.inExpression {k : TokenKind} {v : Text} (h : k.Spells v) : k.inExpression = true := by
  cases k <;> first | rfl | exact h.elim

end TokenKind

theorem Keyword.ofText?_eq_none_iff {t : Text} : ofText? t = none ↔ ∀ k : Keyword, k.text ≠ t := by
  constructor
  · rintro h k rfl
    rw [ofText?_text] at h
    cases h
  · intro h
    cases ht : ofText? t with
    | none => rfl
    | some k => exact absurd (text_of_ofText? ht) (h k)

namespace Lexeme

theorem number_spells (afterDot : Bool) {c : CodeUnit} (t : Text) (hc : Text.isDigit c = true) :
    (number afterDot c t).kind.Spells (number afterDot c t).value ∧
      (afterDot = true → (number afterDot c t).kind ≠ .float) := by
  have hwhole : (c :: t.takeWhile Text.isDigit).all Text.isDigit = true := by
    rw [List.all_cons, hc, List.all_takeWhile]
    rfl
  have hint : TokenKind.integer.Spells (c :: t.takeWhile Text.isDigit) := ⟨List.cons_ne_nil _ _, hwhole⟩
  unfold number
  simp only
  split
  · rename_i p d r _
    split
    · rename_i hguard
      simp only [Bool.and_eq_true, Bool.not_eq_true', decide_eq_true_eq] at hguard
      obtain ⟨⟨hdot, rfl⟩, hd⟩ := hguard
      have hpart : (d :: r.takeWhile Text.isDigit).all Text.isDigit = true := by
        rw [List.all_cons, hd, List.all_takeWhile]
        rfl
      refine ⟨⟨_, _, rfl, List.cons_ne_nil _ _, hwhole, List.cons_ne_nil _ _, hpart⟩, fun h => ?_⟩
      rw [hdot] at h
      cases h
    · exact ⟨hint, by rintro - ⟨⟩⟩
  · exact ⟨hint, by rintro - ⟨⟩⟩

theorem word_spells {c : CodeUnit} (t : Text) (hc : Text.isNameStart c = true) :
    (word c t).kind.Spells (word c t).value ∧ (word c t).kind ≠ .float := by
  unfold word
  simp only
  split
  · rename_i k hk
    exact ⟨(Keyword.text_of_ofText? hk).symm, by rintro ⟨⟩⟩
  · rename_i hnone
    exact ⟨⟨c, _, rfl, hc, List.all_takeWhile, Keyword.ofText?_eq_none_iff.1 hnone⟩, by rintro ⟨⟩⟩

/-- A token that is read is spelled as its kind wants it, and behind a dot it is no float. -/
theorem read_spells {afterDot : Bool} {t : Text} {l : Lexeme} (h : read afterDot t = .ok l) :
    l.kind.Spells l.value ∧ (afterDot = true → l.kind ≠ .float) := by
  cases t with
  | nil => cases h
  | cons c t =>
    rw [read] at h
    split at h
    · split at h
      · cases h; exact ⟨trivial, by rintro - ⟨⟩⟩
      · cases h
    · split at h
      · rename_i hc
        cases h
        exact number_spells afterDot t hc
      · split at h
        · rename_i hc
          cases h
          have hword := word_spells t hc
          exact ⟨hword.1, fun _ => hword.2⟩
        · split at h
          · cases h; exact ⟨rfl, by rintro - ⟨⟩⟩
          · cases h

end Lexeme

/-- The contents of tokens of an expression, one behind the other, of which the first may stand behind a
dot: each is spelled as its kind wants it, and none behind a dot is a float. -/
inductive Scan.Contents : (afterDot : Bool) → List (TokenKind × Text) → Prop
  | nil (afterDot : Bool) : Contents afterDot []
  | cons {afterDot : Bool} {k : TokenKind} {v : Text} {ts : List (TokenKind × Text)} (hv : k.Spells v)
      (hdot : afterDot = true → k ≠ .float) (h : Contents (isDot k) ts) : Contents afterDot ((k, v) :: ts)

theorem Scan.contents_cons {afterDot : Bool} {c : TokenKind × Text} {cs : List (TokenKind × Text)} :
    Contents afterDot (c :: cs) ↔
      c.1.Spells c.2 ∧ (afterDot = true → c.1 ≠ .float) ∧ Contents (isDot c.1) cs := by
  constructor
  · intro h
    cases h with
    | cons hv hdot h => exact ⟨hv, hdot, h⟩
  · rintro ⟨hv, hdot, h⟩
    exact .cons hv hdot h

theorem Scan.Contents.spells {afterDot : Bool} {cs : List (TokenKind × Text)} (h : Contents afterDot cs) :
    ∀ c ∈ cs, c.1.Spells c.2 := by
  induction h with
  | nil => nofun
  | cons hv _ _ ih => exact List.forall_mem_cons.2 ⟨hv, ih⟩

theorem Scan.Contents.inExpression {afterDot : Bool} {cs : List (TokenKind × Text)} (h : Contents afterDot cs) :
    ∀ c ∈ cs, c.1.inExpression = true := fun c hc => (h.spells c hc).inExpression

end Stencil
