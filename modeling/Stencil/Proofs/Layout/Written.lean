/-
What the pieces of a source are written as. A token other than a string is written as its value, a string
as its value with escapes between two quotes; a raw tag is the block delimiters around one word with
blanks; comments and raw blocks end at the first place where they can.
-/
import Stencil.Token.Lexeme
import Stencil.Token.Raw

namespace Stencil

/-! ## Tokens -/

/-- The value of the text between two quotes: a backslash and the unit behind it are one escape, and no
other unit is the quote. -/
inductive Lexeme.Unescapes (quote : CodeUnit) : (body value : Text) → Prop
  | nil : Unescapes quote [] []
  | unit {c : CodeUnit} {body value : Text} (hq : c ≠ quote) (hb : c ≠ Text.backslash)
      (h : Unescapes quote body value) : Unescapes quote (c :: body) (c :: value)
  | escape {c : CodeUnit} {body value : Text} (h : Unescapes quote body value) :
      Unescapes quote (Text.backslash :: c :: body) (unescape c ++ value)

namespace TokenKind

/-- The kind is one of those that stand inside of tags and in expressions. -/
def inExpression : TokenKind → Bool
  | data | variableBegin | variableEnd | blockBegin | blockEnd | eof => false
  | _ => true

/-- A token of the kind with a value is written as a text. -/
def Writes (k : TokenKind) (value written : Text) : Prop :=
  match k with
  | .string => ∃ quote body, (quote = Text.singleQuote ∨ quote = Text.doubleQuote) ∧
      written = quote :: (body ++ [quote]) ∧ Lexeme.Unescapes quote body value
  | _ => value = written

end TokenKind

namespace Lexeme

theorem quotedRest_unescapes {q : CodeUnit} {t v w : Text} (h : quotedRest q t = some (v, w)) :
    ∃ body, w = body ++ [q] ∧ Unescapes q body v := by
  fun_induction quotedRest q t generalizing v w with
  | case1 => cases h
  | case2 t => cases h; exact ⟨[], rfl, .nil⟩
  | case3 => cases h
  | case4 e t _ ih =>
    simp only [Option.map_eq_some_iff, Prod.mk.injEq] at h
    obtain ⟨⟨v', w'⟩, h', rfl, rfl⟩ := h
    obtain ⟨body, rfl, hv⟩ := ih h'
    exact ⟨Text.backslash :: e :: body, rfl, .escape hv⟩
  | case5 c t hc hb ih =>
    simp only [Option.map_eq_some_iff, Prod.mk.injEq] at h
    obtain ⟨⟨v', w'⟩, h', rfl, rfl⟩ := h
    obtain ⟨body, rfl, hv⟩ := ih h'
    exact ⟨c :: body, rfl, .unit hc hb hv⟩

/-- A token of an expression is written as it should be, and does not belong to the outside of tags. -/
theorem read_writes {afterDot : Bool} {t : Text} {l : Lexeme} (h : read afterDot t = .ok l) :
    l.kind.Writes l.value l.written ∧ l.kind.inExpression = true := by
  cases t with
  | nil => cases h
  | cons c t =>
    rw [read] at h
    split at h
    · rename_i hquote
      rw [Bool.or_eq_true, decide_eq_true_eq, decide_eq_true_eq] at hquote
      split at h
      · rename_i v w hq
        cases h
        obtain ⟨body, rfl, hv⟩ := quotedRest_unescapes hq
        exact ⟨⟨c, body, hquote.symm, rfl, hv⟩, rfl⟩
      · cases h
    · split at h
      · cases h
        unfold number
        simp only
        split
        · split <;> exact ⟨rfl, rfl⟩
        · exact ⟨rfl, rfl⟩
      · split at h
        · cases h
          unfold word
          simp only
          split <;> exact ⟨rfl, rfl⟩
        · split at h
          · cases h; exact ⟨rfl, rfl⟩
          · cases h

end Lexeme

/-! ## The ends of comments -/

/-- Before the first occurrence there is none. -/
theorem Text.splitAtFirst_first {mark t b r : Text} (h : splitAtFirst mark t = some (b, r)) {k : Nat}
    (hk : k < b.length) : ¬mark <+: t.drop k := by
  induction t generalizing b k with
  | nil =>
    simp only [splitAtFirst, Option.map_eq_some_iff, Prod.mk.injEq] at h
    obtain ⟨a, -, rfl, -⟩ := h
    exact absurd hk (Nat.not_lt_zero k)
  | cons c t ih =>
    rw [splitAtFirst] at h
    split at h
    · cases h; exact absurd hk (Nat.not_lt_zero k)
    · rename_i hnone
      simp only [Option.map_eq_some_iff, Prod.mk.injEq] at h
      obtain ⟨⟨b', r'⟩, ha, rfl, rfl⟩ := h
      cases k with
      | zero =>
        rintro ⟨u, hu⟩
        rw [List.drop_zero] at hu
        rw [after?_eq_some.2 hu.symm] at hnone
        cases hnone
      | succ k => exact ih ha (Nat.lt_of_succ_lt_succ hk)

/-! ## Raw tags -/

namespace Delimiters

open Text

/-- A block tag that holds one word, with blanks around it. -/
def WordTag (d : Delimiters) (word written : Text) : Prop :=
  ∃ u v, u.all isBlank = true ∧ v.all isBlank = true ∧
    written = d.blockStart ++ u ++ word ++ v ++ d.blockEnd

variable {d : Delimiters} {word t w b r : Text}

theorem afterBlanks_eq_some {close : Text} (h : afterBlanks close t = some r) :
    ∃ v, v.all isBlank = true ∧ t = v ++ close ++ r := by
  induction t with
  | nil => exact ⟨[], rfl, after?_eq_some.1 h⟩
  | cons c t ih =>
    rw [afterBlanks] at h
    split at h
    · rename_i r' hr
      cases h
      split at hr
      · rename_i hc
        obtain ⟨v, hv, rfl⟩ := ih hr
        exact ⟨c :: v, by rw [List.all_cons, hc, hv]; rfl, rfl⟩
      · cases hr
    · exact ⟨[], rfl, after?_eq_some.1 h⟩

theorem afterBlanks_isSome (close : Text) {v : Text} (hv : v.all isBlank = true) (r : Text) :
    (afterBlanks close (v ++ close ++ r)).isSome = true := by
  induction v with
  | nil =>
    have hself : after? close (close ++ r) = some r := after?_eq_some.2 rfl
    rw [List.nil_append]
    cases ht : close ++ r with
    | nil => rw [ht] at hself; rw [afterBlanks, hself]; rfl
    | cons c t =>
      rw [ht] at hself
      rw [afterBlanks]
      split
      · rfl
      · rw [hself]; rfl
  | cons c v ih =>
    rw [List.all_cons, Bool.and_eq_true] at hv
    obtain ⟨r', hr⟩ := Option.isSome_iff_exists.1 (ih hv.2)
    rw [List.cons_append, List.cons_append, afterBlanks, if_pos hv.1, hr]
    rfl

theorem afterWordTag_written (h : d.afterWordTag word t = some r) : ∃ w, d.WordTag word w ∧ t = w ++ r := by
  unfold afterWordTag at h
  split at h
  · cases h
  · rename_i u hu
    split at h
    · cases h
    · rename_i v hv
      obtain ⟨x, hx, rfl⟩ := afterBlanks_eq_some h
      have hd : u = u.takeWhile isBlank ++ u.dropWhile isBlank := List.takeWhile_append_dropWhile.symm
      refine ⟨_, ⟨u.takeWhile isBlank, x, List.all_takeWhile, hx, rfl⟩, ?_⟩
      rw [after?_eq_some.1 hu]
      conv => lhs; rw [hd, after?_eq_some.1 hv]
      simp only [List.append_assoc]

/-- A word of which the first unit is no blank, so that no blank in front of it is a part of it. -/
def Plain (word : Text) : Prop := ∃ c t, word = c :: t ∧ isBlank c = false

theorem rawWord_plain : Plain rawWord := ⟨_, _, rfl, by decide⟩

theorem endRawWord_plain : Plain endRawWord := ⟨_, _, rfl, by decide⟩

/-- Behind the word of a tag the closing delimiter is looked for. -/
theorem afterWordTag_eq (hword : Plain word) {u : Text} (hu : u.all isBlank = true) (x : Text) :
    d.afterWordTag word (d.blockStart ++ u ++ word ++ x) = afterBlanks d.blockEnd x := by
  have hskip : (u ++ (word ++ x)).dropWhile isBlank = word ++ x := by
    rw [List.dropWhile_append_of_pos (List.all_eq_true.1 hu)]
    obtain ⟨c, y, rfl, hc⟩ := hword
    have hc' : ¬isBlank c = true := by simp [hc]
    rw [List.cons_append, List.dropWhile_cons_of_neg hc']
  have hopen : after? d.blockStart (d.blockStart ++ u ++ word ++ x) = some (u ++ (word ++ x)) := by
    rw [after?_eq_some]
    simp only [List.append_assoc]
  have hmid : after? word (word ++ x) = some x := after?_eq_some.2 rfl
  rw [afterWordTag, hopen]
  simp only [hskip, hmid]

theorem afterWordTag_isSome (hword : Plain word) (hw : d.WordTag word w) (r : Text) :
    (d.afterWordTag word (w ++ r)).isSome = true := by
  obtain ⟨u, v, hu, hv, rfl⟩ := hw
  rw [List.append_assoc, List.append_assoc, afterWordTag_eq hword hu, ← List.append_assoc]
  exact afterBlanks_isSome d.blockEnd hv r

/-- A tag that holds a word stands at the head of a text. -/
def TagHere (d : Delimiters) (word t : Text) : Prop := ∃ w, d.WordTag word w ∧ w <+: t

theorem afterWordTag_eq_none_iff (hword : Plain word) : d.afterWordTag word t = none ↔ ¬d.TagHere word t := by
  constructor
  · rintro h ⟨w, hw, x, rfl⟩
    have hsome := afterWordTag_isSome hword hw x
    rw [h] at hsome
    cases hsome
  · intro h
    cases hr : d.afterWordTag word t with
    | none => rfl
    | some r =>
      obtain ⟨w, hw, rfl⟩ := afterWordTag_written hr
      exact absurd ⟨w, hw, r, rfl⟩ h

/-- A raw block ends with the first tag that can end it. -/
theorem splitRaw_written (h : d.splitRaw t = some (b, r)) :
    ∃ v, d.WordTag endRawWord v ∧ t = b ++ v ++ r ∧
      ∀ k < b.length, ∀ v', d.WordTag endRawWord v' → ¬v' <+: t.drop k := by
  induction t generalizing b with
  | nil =>
    simp only [splitRaw, Option.map_eq_some_iff, Prod.mk.injEq] at h
    obtain ⟨a, ha, rfl, rfl⟩ := h
    obtain ⟨v, hv, hv'⟩ := afterWordTag_written ha
    exact ⟨v, hv, hv', fun k hk => absurd hk (Nat.not_lt_zero k)⟩
  | cons c t ih =>
    rw [splitRaw] at h
    split at h
    · rename_i r' hr
      cases h
      obtain ⟨v, hv, hv'⟩ := afterWordTag_written hr
      exact ⟨v, hv, hv', fun k hk => absurd hk (Nat.not_lt_zero k)⟩
    · rename_i hnone
      simp only [Option.map_eq_some_iff, Prod.mk.injEq] at h
      obtain ⟨⟨b', r'⟩, ha, rfl, rfl⟩ := h
      obtain ⟨v, hv, rfl, hfirst⟩ := ih ha
      refine ⟨v, hv, rfl, fun k hk v' hv' => ?_⟩
      cases k with
      | zero => exact fun hhere => (afterWordTag_eq_none_iff endRawWord_plain).1 hnone ⟨v', hv', hhere⟩
      | succ k => exact hfirst k (Nat.lt_of_succ_lt_succ hk) v' hv'

end Delimiters
end Stencil
