/-
Writing a token and reading it back. A draft is a token that is yet to be written; a string gets the quotes
it asks for, and a backslash before every backslash and every such quote inside. With a blank behind it
the written text is read as the token again, whatever follows (`read_text`).
-/
import Stencil.Proofs.Safety.Pieces
import Stencil.Proofs.Words.Spelling

namespace Stencil

namespace Lexeme

/-- The quotes around a string. -/
inductive Quote
  | single | double
deriving DecidableEq, Repr

def Quote.unit : Quote → CodeUnit
  | single => Text.singleQuote
  | double => Text.doubleQuote

/-- A value as it stands between quotes. -/
def escape (q : CodeUnit) (v : Text) : Text :=
  v.flatMap fun c => if c = q ∨ c = Text.backslash then [Text.backslash, c] else [c]

/-- A token that is yet to be written; the quotes matter for strings only. -/
structure Draft where
  kind : TokenKind
  value : Text
  quote : Quote
deriving DecidableEq, Repr

namespace Draft

def content (t : Draft) : TokenKind × Text := (t.kind, t.value)

/-- The written form. -/
def text (t : Draft) : Text :=
  match t.kind with
  | .string => t.quote.unit :: (escape t.quote.unit t.value ++ [t.quote.unit])
  | _ => t.value

theorem text_of_string {t : Draft} (h : t.kind = .string) :
    t.text = t.quote.unit :: (escape t.quote.unit t.value ++ [t.quote.unit]) := by
  simp only [text, h]

theorem text_of_not_string {t : Draft} (h : t.kind ≠ .string) : t.text = t.value := by
  unfold text
  split
  · rename_i hk
    exact absurd hk h
  · rfl

end Draft

variable {afterDot : Bool} {rest : Text}

/-! ## Strings -/

theorem Quote.unit_ne_backslash (q : Quote) : q.unit ≠ Text.backslash := by cases q <;> decide

theorem unescape_escaped (q : Quote) {c : CodeUnit} (hc : c = q.unit ∨ c = Text.backslash) :
    unescape c = [c] := by
  rcases hc with rfl | rfl
  · cases q <;> decide
  · decide

theorem quotedRest_escape (q : Quote) (v rest : Text) :
    quotedRest q.unit (escape q.unit v ++ q.unit :: rest) = some (v, escape q.unit v ++ [q.unit]) := by
  induction v with
  | nil =>
    show quotedRest q.unit (q.unit :: rest) = _
    rw [quotedRest.eq_def]
    simp only [if_true]
    rfl
  | cons c v ih =>
    have hcons : escape q.unit (c :: v) =
        (if c = q.unit ∨ c = Text.backslash then [Text.backslash, c] else [c]) ++ escape q.unit v :=
      List.flatMap_cons
    rw [hcons]
    by_cases hc : c = q.unit ∨ c = Text.backslash
    · rw [if_pos hc]
      show quotedRest q.unit (Text.backslash :: c :: (escape q.unit v ++ q.unit :: rest)) = _
      rw [quotedRest.eq_def]
      simp only [if_neg q.unit_ne_backslash.symm, if_true, ih, Option.map_some, unescape_escaped q hc]
      rfl
    · rw [if_neg hc]
      rw [not_or] at hc
      show quotedRest q.unit (c :: (escape q.unit v ++ q.unit :: rest)) = _
      rw [quotedRest.eq_def]
      simp only [if_neg hc.1, if_neg hc.2, ih]
      rfl

/-! ## Words and numbers -/

/-- From a text on the token with a given kind, value and text is read. -/
def Reads (afterDot : Bool) (text : Text) (kind : TokenKind) (value written : Text) : Prop :=
  ∃ l, read afterDot text = .ok l ∧ l.kind = kind ∧ l.value = value ∧ l.written = written

theorem takeWhile_blank {p : CodeUnit → Bool} {t : Text} (ht : t.all p = true) (hp : p (Text.unit ' ') = false)
    (rest : Text) :
    (t ++ Text.unit ' ' :: rest).takeWhile p = t ∧
      (t ++ Text.unit ' ' :: rest).dropWhile p = Text.unit ' ' :: rest := by
  have hblank : ¬p (Text.unit ' ') = true := by rw [hp]; exact Bool.false_ne_true
  rw [List.takeWhile_append_of_pos (List.all_eq_true.1 ht), List.dropWhile_append_of_pos (List.all_eq_true.1 ht),
    List.takeWhile_cons_of_neg hblank, List.dropWhile_cons_of_neg hblank]
  exact ⟨List.append_nil t, rfl⟩

end Lexeme

namespace Text

theorem toNat_of_isNameStart {c : CodeUnit} (h : isNameStart c = true) :
    65 ≤ c.toNat ∧ c.toNat ≤ 90 ∨ c.toNat = 95 ∨ 97 ≤ c.toNat ∧ c.toNat ≤ 122 := by
  simp only [isNameStart, isLetter, Bool.or_eq_true, Bool.and_eq_true, decide_eq_true_eq, beq_iff_eq,
    UInt16.le_iff_toNat_le] at h
  rcases h with (h | h) | rfl
  · exact .inr (.inr h)
  · exact .inl h
  · exact .inr (.inl rfl)

theorem isBlank_of_isNameStart {c : CodeUnit} (h : isNameStart c = true) : isBlank c = false := by
  have hc := toNat_of_isNameStart h
  simp [isBlank, blankRanges, UInt16.le_iff_toNat_le]
  omega

theorem isBlank_of_isNamePart {c : CodeUnit} (h : isNamePart c = true) : isBlank c = false := by
  rw [isNamePart, Bool.or_eq_true] at h
  rcases h with h | h
  · exact isBlank_of_isNameStart h
  · exact isBlank_of_isDigit h

theorem isDigit_of_isNameStart {c : CodeUnit} (h : isNameStart c = true) : isDigit c = false := by
  have hc := toNat_of_isNameStart h
  rw [Bool.eq_false_iff]
  intro hd
  have := toNat_of_isDigit hd
  omega

end Text

/-- A keyword is written as a word is. -/
theorem Keyword.text_word (k : Keyword) :
    ∃ c t, k.text = c :: t ∧ Text.isNameStart c = true ∧ t.all Text.isNamePart = true := by
  cases k <;> exact ⟨_, _, rfl, by decide, by decide⟩

namespace Lexeme

theorem not_quote {c : CodeUnit} (hd : c ≠ Text.doubleQuote) (hs : c ≠ Text.singleQuote) :
    ¬(c = Text.doubleQuote || c = Text.singleQuote) = true := by
  simp only [Bool.or_eq_true, decide_eq_true_eq, not_or]
  exact ⟨hd, hs⟩

/-- A word with a blank behind it is read as the keyword that it is, or as a name. -/
theorem reads_word {c : CodeUnit} {t : Text} (hc : Text.isNameStart c = true) (ht : t.all Text.isNamePart = true)
    (rest : Text) :
    Reads afterDot (c :: t ++ Text.unit ' ' :: rest) ((Keyword.ofText? (c :: t)).elim .name .keyword) (c :: t)
      (c :: t) := by
  have hrange := Text.toNat_of_isNameStart hc
  have hquote : ¬(c = Text.doubleQuote || c = Text.singleQuote) = true := by
    refine not_quote ?_ ?_ <;> rintro rfl <;> exact absurd hrange (by decide)
  have hdigit : ¬Text.isDigit c = true := by rw [Text.isDigit_of_isNameStart hc]; exact Bool.false_ne_true
  have hread : read afterDot (c :: (t ++ Text.unit ' ' :: rest)) = .ok (word c (t ++ Text.unit ' ' :: rest)) := by
    rw [read, if_neg hquote, if_neg hdigit, if_pos hc]
  refine ⟨_, hread, ?_⟩
  unfold word
  simp only [(takeWhile_blank ht (by decide) rest).1, and_true]
  cases Keyword.ofText? (c :: t) <;> rfl

theorem read_number {c : CodeUnit} (hc : Text.isDigit c = true) (t : Text) :
    read afterDot (c :: t) = .ok (number afterDot c t) := by
  have hrange := Text.toNat_of_isDigit hc
  have hquote : ¬(c = Text.doubleQuote || c = Text.singleQuote) = true := by
    refine not_quote ?_ ?_ <;> rintro rfl <;> exact absurd hrange (by decide)
  rw [read, if_neg hquote, if_pos hc]

theorem number_integer {c : CodeUnit} {t : Text} (ht : t.all Text.isDigit = true) (rest : Text) :
    number afterDot c (t ++ Text.unit ' ' :: rest) = ⟨.integer, c :: t, c :: t, List.cons_ne_nil c t⟩ := by
  obtain ⟨htake, hdrop⟩ := takeWhile_blank ht (by decide) rest
  unfold number
  simp only [htake, hdrop]
  split
  · rename_i p d r hr
    cases hr
    rw [if_neg]
    rw [show decide (Text.unit ' ' = Text.unit '.') = false by decide, Bool.and_false, Bool.false_and]
    exact Bool.false_ne_true
  · rfl

theorem number_float {c d : CodeUnit} {t u : Text} (ht : t.all Text.isDigit = true) (hd : Text.isDigit d = true)
    (hu : u.all Text.isDigit = true) (rest : Text) :
    number false c (t ++ Text.unit '.' :: d :: (u ++ Text.unit ' ' :: rest)) =
      ⟨.float, c :: t ++ Text.unit '.' :: d :: u, c :: t ++ Text.unit '.' :: d :: u, List.cons_ne_nil _ _⟩ := by
  have hpoint : ¬Text.isDigit (Text.unit '.') = true := by decide
  have htake : (t ++ Text.unit '.' :: d :: (u ++ Text.unit ' ' :: rest)).takeWhile Text.isDigit = t := by
    rw [List.takeWhile_append_of_pos (List.all_eq_true.1 ht), List.takeWhile_cons_of_neg hpoint, List.append_nil]
  have hdrop : (t ++ Text.unit '.' :: d :: (u ++ Text.unit ' ' :: rest)).dropWhile Text.isDigit =
      Text.unit '.' :: d :: (u ++ Text.unit ' ' :: rest) := by
    rw [List.dropWhile_append_of_pos (List.all_eq_true.1 ht), List.dropWhile_cons_of_neg hpoint]
  have hguard : (!false && decide (Text.unit '.' = Text.unit '.') && Text.isDigit d) = true := by
    rw [hd]
    decide
  have hpart := (takeWhile_blank hu (by decide) rest).1
  unfold number
  simp only [htake, hdrop, hpart]
  exact if_pos hguard

/-! ## Symbols -/

theorem leading?_text (s : Symbol) (rest : Text) :
    Symbol.leading? (s.text ++ Text.unit ' ' :: rest) = some s := by
  cases s <;> rfl

theorem reads_symbol (s : Symbol) (rest : Text) :
    Reads afterDot (s.text ++ Text.unit ' ' :: rest) (.symbol s) s.text s.text := by
  have hunit : ∃ c t, s.text = c :: t ∧ ¬(c = Text.doubleQuote || c = Text.singleQuote) = true ∧
      ¬Text.isDigit c = true ∧ ¬Text.isNameStart c = true := by
    cases s <;> exact ⟨_, _, rfl, by decide, by decide, by decide⟩
  obtain ⟨c, t, hs, hquote, hdigit, hstart⟩ := hunit
  have hlead := leading?_text s rest
  have hread : read afterDot (c :: (t ++ Text.unit ' ' :: rest)) =
      .ok ⟨.symbol s, s.text, s.text, s.text_ne_nil⟩ := by
    rw [hs, List.cons_append] at hlead
    rw [read, if_neg hquote, if_neg hdigit, if_neg hstart, hlead]
  rw [← List.cons_append, ← hs] at hread
  exact ⟨_, hread, rfl, rfl, rfl⟩

/-! ## All tokens -/

theorem reads_string (q : Quote) (v rest : Text) :
    Reads afterDot (q.unit :: (escape q.unit v ++ [q.unit]) ++ Text.unit ' ' :: rest) .string v
      (q.unit :: (escape q.unit v ++ [q.unit])) := by
  have hquote : (q.unit = Text.doubleQuote || q.unit = Text.singleQuote) = true := by cases q <;> decide
  have hsplit : q.unit :: (escape q.unit v ++ [q.unit]) ++ Text.unit ' ' :: rest =
      q.unit :: (escape q.unit v ++ q.unit :: Text.unit ' ' :: rest) := by
    rw [List.cons_append, List.append_assoc, List.singleton_append]
  rw [hsplit, Reads, read, if_pos hquote, quotedRest_escape]
  exact ⟨_, rfl, rfl, rfl, rfl⟩

/-- A token that is no string is read from its value with a blank behind it. -/
theorem reads_value {k : TokenKind} {v : Text} (hv : k.Spells v) (hk : k ≠ .string)
    (hdot : afterDot = true → k ≠ .float) (rest : Text) : Reads afterDot (v ++ Text.unit ' ' :: rest) k v v := by
  cases k with
  | name =>
    obtain ⟨c, t, rfl, hc, ht, hfree⟩ := hv
    have hread : Reads afterDot _ _ _ _ := reads_word hc ht rest
    rwa [Keyword.ofText?_eq_none_iff.2 hfree] at hread
  | keyword k =>
    obtain ⟨c, t, htext, hc, ht⟩ := k.text_word
    obtain rfl : v = c :: t := Eq.trans hv htext
    have hread : Reads afterDot _ _ _ _ := reads_word hc ht rest
    rwa [← htext, Keyword.ofText?_text, htext] at hread
  | integer =>
    obtain ⟨hne, ht⟩ := hv
    obtain ⟨c, u, rfl⟩ := List.exists_cons_of_ne_nil hne
    rw [List.all_cons, Bool.and_eq_true] at ht
    refine ⟨_, read_number ht.1 (u ++ Text.unit ' ' :: rest), ?_⟩
    rw [number_integer ht.2 rest]
    exact ⟨rfl, rfl, rfl⟩
  | float =>
    obtain ⟨t, u, rfl, hne, ht, hne', hu⟩ := hv
    obtain ⟨c, t, rfl⟩ := List.exists_cons_of_ne_nil hne
    obtain ⟨d, u, rfl⟩ := List.exists_cons_of_ne_nil hne'
    rw [List.all_cons, Bool.and_eq_true] at ht hu
    obtain rfl : afterDot = false := by
      cases afterDot with
      | true => exact absurd rfl (hdot rfl)
      | false => rfl
    have hsplit : c :: t ++ Text.unit '.' :: d :: u ++ Text.unit ' ' :: rest =
        c :: (t ++ Text.unit '.' :: d :: (u ++ Text.unit ' ' :: rest)) := by
      simp only [List.cons_append, List.append_assoc]
    rw [hsplit]
    refine ⟨_, read_number ht.1 _, ?_⟩
    rw [number_float ht.2 hu.1 hu.2 rest]
    exact ⟨rfl, rfl, rfl⟩
  | symbol s =>
    obtain rfl : v = s.text := hv
    exact reads_symbol s rest
  | string => exact absurd rfl hk
  | _ => exact hv.elim

/-- A token that is written with a blank behind it is read again. -/
theorem Draft.reads_text {t : Draft} (hv : t.kind.Spells t.value) (hdot : afterDot = true → t.kind ≠ .float)
    (rest : Text) : Reads afterDot (t.text ++ Text.unit ' ' :: rest) t.kind t.value t.text := by
  by_cases hk : t.kind = .string
  · rw [text_of_string hk, hk]
    exact reads_string t.quote t.value rest
  · rw [text_of_not_string hk]
    exact reads_value hv hk hdot rest

/-! ## How written tokens begin -/

theorem head_of_nameStart {c : CodeUnit} (hc : Text.isNameStart c = true) :
    Text.isBlank c = false ∧ c ≠ Text.unit '\x7d' ∧ c ≠ Text.unit '%' := by
  have hrange := Text.toNat_of_isNameStart hc
  refine ⟨Text.isBlank_of_isNameStart hc, ?_, ?_⟩ <;> rintro rfl <;> exact absurd hrange (by decide)

theorem head_of_digit {c : CodeUnit} (hc : Text.isDigit c = true) :
    Text.isBlank c = false ∧ c ≠ Text.unit '\x7d' ∧ c ≠ Text.unit '%' := by
  have hrange := Text.toNat_of_isDigit hc
  refine ⟨Text.isBlank_of_isDigit hc, ?_, ?_⟩ <;> rintro rfl <;> exact absurd hrange (by decide)

/-- A written token begins with a unit that is no blank; if a standard delimiter that closes a tag begins
with it too, the token is that unit alone. -/
theorem Draft.text_head {t : Draft} (hv : t.kind.Spells t.value) :
    ∃ c u, t.text = c :: u ∧ Text.isBlank c = false ∧
      (c = Text.unit '\x7d' ∨ c = Text.unit '%' → u = []) := by
  have alone {c : CodeUnit} {u : Text} (h : Text.isBlank c = false ∧ c ≠ Text.unit '\x7d' ∧ c ≠ Text.unit '%') :
      Text.isBlank c = false ∧ (c = Text.unit '\x7d' ∨ c = Text.unit '%' → u = []) :=
    ⟨h.1, fun hc => absurd hc (not_or.2 h.2)⟩
  by_cases hk : t.kind = .string
  · rw [text_of_string hk]
    exact ⟨_, _, rfl, alone (by cases t.quote <;> decide)⟩
  · rw [text_of_not_string hk]
    obtain ⟨k, v, q⟩ := t
    cases k with
    | name =>
      obtain ⟨c, u, rfl, hc, -⟩ := hv
      exact ⟨c, u, rfl, alone (head_of_nameStart hc)⟩
    | keyword k =>
      obtain ⟨c, u, htext, hc, -⟩ := k.text_word
      exact ⟨c, u, Eq.trans hv htext, alone (head_of_nameStart hc)⟩
    | integer =>
      obtain ⟨hne, ht⟩ := hv
      obtain ⟨c, u, rfl⟩ := List.exists_cons_of_ne_nil hne
      rw [List.all_cons, Bool.and_eq_true] at ht
      exact ⟨c, u, rfl, alone (head_of_digit ht.1)⟩
    | float =>
      obtain ⟨t, u, rfl, hne, ht, -⟩ := hv
      obtain ⟨c, t, rfl⟩ := List.exists_cons_of_ne_nil hne
      rw [List.all_cons, Bool.and_eq_true] at ht
      exact ⟨c, _, rfl, alone (head_of_digit ht.1)⟩
    | symbol s =>
      obtain rfl : v = s.text := hv
      cases s <;> exact ⟨_, _, rfl, by decide, by decide⟩
    | string => exact absurd rfl hk
    | _ => exact hv.elim

/-- A written token that begins as a name does is a keyword or a name, and has only units of names. -/
theorem Draft.text_of_nameStart {t : Draft} (hv : t.kind.Spells t.value) {c : CodeUnit} {u : Text}
    (htext : t.text = c :: u) (hc : Text.isNameStart c = true) :
    u.all Text.isNamePart = true ∧ t.kind = (Keyword.ofText? t.text).elim .name .keyword ∧ t.value = t.text := by
  by_cases hk : t.kind = .string
  · rw [text_of_string hk] at htext
    obtain ⟨rfl, -⟩ := List.cons_eq_cons.1 htext
    cases hq : t.quote <;> rw [hq] at hc <;> exact absurd hc (by decide)
  · rw [text_of_not_string hk] at htext ⊢
    obtain ⟨k, v, q⟩ := t
    obtain rfl : v = c :: u := htext
    have hdigit {t : Text} (ht : (c :: t).all Text.isDigit = true) : False := by
      rw [List.all_cons, Bool.and_eq_true, Text.isDigit_of_isNameStart hc] at ht
      cases ht.1
    cases k with
    | name =>
      obtain ⟨c, t, hcons, -, ht, hfree⟩ := hv
      obtain ⟨rfl, rfl⟩ := List.cons_eq_cons.1 hcons
      exact ⟨ht, by rw [Keyword.ofText?_eq_none_iff.2 hfree]; rfl, rfl⟩
    | keyword k =>
      obtain ⟨c, t, hword, -, ht⟩ := k.text_word
      obtain ⟨rfl, rfl⟩ := List.cons_eq_cons.1 (Eq.trans hv hword)
      exact ⟨ht, by rw [← hword, Keyword.ofText?_text]; rfl, rfl⟩
    | integer => exact (hdigit hv.2).elim
    | float =>
      obtain ⟨t, w, hcons, hne, ht, -⟩ := hv
      obtain ⟨b, t, rfl⟩ := List.exists_cons_of_ne_nil hne
      obtain ⟨rfl, -⟩ := List.cons_eq_cons.1 hcons
      exact (hdigit ht).elim
    | symbol s =>
      have hs : c :: u = s.text := hv
      cases s <;> obtain ⟨rfl, -⟩ := List.cons_eq_cons.1 hs <;> exact absurd hc (by decide)
    | string => exact absurd rfl hk
    | _ => exact hv.elim

end Lexeme
end Stencil
