/-
Values and their texts. `Json.ReadsAs` says that the text of a value, on one line or indented, reads as a value; it
holds of words, quoted texts and numbers, and of arrays and objects whose parts are read so. With it the whole text
reads as the value (`read_pretty`).
-/
import Mathlib.Data.List.Forall2
import Mathlib.Data.List.Nodup
import Stencil.Proofs.Json.Quoted
import Stencil.Proofs.Number.Numeral

namespace Stencil.Json

open Text

/-- The text of the first value, before anything that a number cannot go on with, reads as the second one. -/
def ReadsAs (j j' : Json) : Prop :=
  ∀ (indent : Option Nat) (depth : Nat) (rest : Text) (n : Nat), EndsNumber rest →
    2 * (writeOnto indent depth rest j).length ≤ n → readValue n (writeOnto indent depth rest j) = some (j', rest)

/-! ## White space -/

theorem skipSpace_cons {c : CodeUnit} (hc : isSpacing c = false) (t : Text) : skipSpace (c :: t) = c :: t :=
  List.dropWhile_cons_of_neg (by rw [hc]; exact Bool.false_ne_true)

theorem skipSpace_append {blank : Text} (h : ∀ c ∈ blank, isSpacing c = true) (t : Text) :
    skipSpace (blank ++ t) = skipSpace t := List.dropWhile_append_of_pos h

theorem lineBreak_isSpacing (indent : Option Nat) (depth : Nat) : ∀ c ∈ lineBreak indent depth, isSpacing c = true := by
  intro c hc
  unfold lineBreak at hc
  cases indent with
  | none => cases hc
  | some k =>
    rcases List.mem_cons.1 hc with rfl | hc
    · decide
    · rw [List.eq_of_mem_replicate hc]
      decide

/-- Only what stands behind white space decides what is read. -/
theorem readValue_congr {t t' : Text} (h : skipSpace t = skipSpace t') (n : Nat) : readValue n t = readValue n t' := by
  cases n with
  | zero => rw [readValue, readValue]
  | succ n => rw [readValue, readValue, h]

theorem endsNumber_lineBreak {t : Text} (h : EndsNumber t) (indent : Option Nat) (depth : Nat) :
    EndsNumber (lineBreak indent depth ++ t) := by
  cases indent with
  | none => exact h
  | some k =>
    rintro c ⟨⟩
    decide

/-! ## Leaves -/

namespace ReadsAs

/-- What is read from the head of a text on is a word. -/
theorem of_word {j j' : Json} {c : CodeUnit} {w : Text} (hc : c ∈ [unit 'n', unit 't', unit 'f'])
    (hwrite : ∀ indent depth rest, writeOnto indent depth rest j = (c :: w) ++ rest)
    (hread : ∀ rest, readWord ((c :: w) ++ rest) = some (j', rest)) : ReadsAs j j' := by
  intro indent depth rest n _ hn
  rw [hwrite] at hn ⊢
  obtain ⟨n, rfl⟩ : ∃ k, n = k + 1 := ⟨n - 1, by simp at hn; omega⟩
  obtain ⟨hspace, hother⟩ : isSpacing c = false ∧ c ≠ doubleQuote ∧ c ≠ unit '[' ∧ c ≠ unit '\x7b' ∧
      (decide (c = unit '-') || isDigit c) = false := by
    simp only [List.mem_cons, List.not_mem_nil, or_false] at hc
    obtain rfl | rfl | rfl := hc <;> decide
  rw [readValue, List.cons_append, skipSpace_cons hspace]
  simp only [hother, if_false, Bool.false_eq_true]
  exact hread rest

theorem null : ReadsAs .null .null :=
  of_word (c := unit 'n') (w := "ull") (by decide) (fun _ _ _ => rfl) fun _ => rfl

theorem bool (b : Bool) : ReadsAs (.bool b) (.bool b) := by
  cases b with
  | true => exact of_word (c := unit 't') (w := "rue") (by decide) (fun _ _ _ => rfl) fun _ => rfl
  | false => exact of_word (c := unit 'f') (w := "alse") (by decide) (fun _ _ _ => rfl) fun _ => rfl

theorem nonfinite {x : Double} (h : writeNumber x = "null") : ReadsAs (.number x) .null := by
  refine of_word (c := unit 'n') (w := "ull") (by decide) (fun _ _ rest => ?_) fun _ => rfl
  rw [writeOnto, h]
  rfl

theorem number {m : Nat} {e : Int} (h : Double.Canonical m e) :
    ReadsAs (.number (.finite false m e)) (.number (.finite false m e)) := by
  intro indent depth rest n hrest hn
  obtain ⟨numeral, hformed, hminimal, hwrite, hvalue⟩ := h.exists_numeral
  obtain ⟨c, t, hwhole, hc⟩ := Numeral.exists_cons hformed
  have hread := Numeral.readNumber_text hformed hminimal hrest
  rw [writeOnto, hwrite] at hn ⊢
  have htext : numeral.text ++ rest = c :: (t ++ numeral.fractionText ++ numeral.exponentText ++ rest) := by
    rw [Numeral.text, hwhole]
    rfl
  rw [htext] at hn hread ⊢
  obtain ⟨n, rfl⟩ : ∃ k, n = k + 1 := ⟨n - 1, by simp at hn; omega⟩
  have hrange := toNat_of_isDigit hc
  have hother : c ≠ doubleQuote ∧ c ≠ unit '[' ∧ c ≠ unit '\x7b' := by
    refine ⟨?_, ?_, ?_⟩ <;> rintro rfl <;> exact absurd hrange (by decide)
  have hspace : isSpacing c = false := by
    rw [Bool.eq_false_iff]
    intro h
    have hblank := isBlank_of_isDigit hc
    rw [isBlank_of_isSpacing h] at hblank
    cases hblank
  rw [readValue, skipSpace_cons hspace]
  simp only [hother, if_false, hc, Bool.or_true, if_true, hread, Option.map_some, hvalue]

theorem string (t : Text) : ReadsAs (.string t) (.string t) := by
  intro indent depth rest n _ hn
  rw [writeOnto, quote, List.cons_append, List.append_assoc] at hn ⊢
  obtain ⟨n, rfl⟩ : ∃ k, n = k + 1 := ⟨n - 1, by simp at hn; omega⟩
  rw [readValue, skipSpace_cons (by decide)]
  simp only [if_true, List.singleton_append, readString_escape, Option.map_some]

end ReadsAs

/-! ## Arrays -/

/-- A closing bracket begins no value. -/
theorem readValue_closing (n : Nat) (t : Text) : readValue n (unit ']' :: t) = none := by
  cases n with
  | zero => rw [readValue]
  | succ n =>
    rw [readValue, skipSpace_cons (by decide)]
    rfl

theorem readItems_closing {t u : Text} (h : skipSpace t = unit ']' :: u) (n : Nat) : readItems n t = none := by
  cases n with
  | zero => rw [readItems]
  | succ n =>
    have hnone : readValue n t = none := by
      rw [readValue_congr (h.trans (skipSpace_cons (by decide) u).symm), readValue_closing]
    rw [readItems, hnone]
    rfl

theorem length_writeOnto (indent : Option Nat) (depth : Nat) (rest : Text) (j : Json) :
    rest.length ≤ (writeOnto indent depth rest j).length := by
  have happend := writeOnto_append indent depth [] rest j
  rw [List.nil_append] at happend
  rw [happend, List.length_append]
  exact Nat.le_add_left ..

theorem endsNumber_cons {c : CodeUnit} (h : c ∈ [unit ',', unit ']', unit '\x7d']) (t : Text) :
    EndsNumber (c :: t) := by
  rintro c ⟨⟩
  simp only [List.mem_cons, List.not_mem_nil, or_false] at h
  obtain rfl | rfl | rfl := h <;> decide

/-- White space before a value does not count. -/
theorem ReadsAs.behind_space {j j' : Json} (h : ReadsAs j j') {indent : Option Nat} {depth : Nat} {blank rest : Text}
    (hblank : ∀ c ∈ blank, isSpacing c = true) (hrest : EndsNumber rest) {n : Nat}
    (hn : 2 * (blank ++ writeOnto indent depth rest j).length ≤ n) :
    readValue n (blank ++ writeOnto indent depth rest j) = some (j', rest) := by
  rw [readValue_congr (skipSpace_append hblank _)]
  refine h indent depth rest n hrest ?_
  rw [List.length_append] at hn
  omega

/-- The items of an array behind its bracket, the first one with those behind it. -/
theorem readItems_write {js js' : List Json} (hs : List.Forall₂ ReadsAs js js') {j j' : Json} (h : ReadsAs j j')
    (indent : Option Nat) (depth : Nat) (rest : Text) {t : Text}
    (ht : lineBreak indent (depth + 1) ++ writeOnto indent (depth + 1)
      (itemsOnto indent (depth + 1) (lineBreak indent depth ++ (unit ']' :: rest)) js) j = t) {n : Nat}
    (hn : 2 * t.length + 1 ≤ n) : readItems n t = some (j' :: js', rest) := by
  have hspace := lineBreak_isSpacing indent
  induction hs generalizing j j' t n with
  | nil =>
    obtain ⟨n, rfl⟩ : ∃ k, n = k + 1 := ⟨n - 1, by omega⟩
    have hbehind := endsNumber_lineBreak (endsNumber_cons (c := unit ']') (by decide) rest) indent depth
    rw [itemsOnto] at ht
    subst ht
    rw [readItems, h.behind_space (hspace _) hbehind (by omega)]
    simp only [Option.bind_eq_bind, Option.bind_some, skipSpace_append (hspace depth),
      skipSpace_cons (c := unit ']') (by decide)]
    rfl
  | @cons j₂ j₂' js js' h₂ hs ih =>
    obtain ⟨n, rfl⟩ : ∃ k, n = k + 1 := ⟨n - 1, by omega⟩
    generalize hmore : lineBreak indent (depth + 1) ++ writeOnto indent (depth + 1)
      (itemsOnto indent (depth + 1) (lineBreak indent depth ++ (unit ']' :: rest)) js) j₂ = more
    have hbehind : itemsOnto indent (depth + 1) (lineBreak indent depth ++ (unit ']' :: rest)) (j₂ :: js) =
        unit ',' :: more := by
      rw [← hmore]
      rfl
    rw [hbehind] at ht
    subst ht
    have hlength := length_writeOnto indent (depth + 1) (unit ',' :: more) j
    rw [List.length_cons] at hlength
    have hrest := ih h₂ hmore (n := n) (by rw [List.length_append] at hn; omega)
    rw [readItems, h.behind_space (hspace _) (endsNumber_cons (by decide) more) (by omega)]
    simp only [Option.bind_eq_bind, Option.bind_some, skipSpace_cons (c := unit ',') (by decide)]
    have hcomma : after? "," (unit ',' :: more) = some more := rfl
    simp only [hcomma, hrest, Option.bind_some]
    rfl

/-- Arrays are read item by item. -/
theorem ReadsAs.array {js js' : List Json} (h : List.Forall₂ ReadsAs js js') : ReadsAs (.array js) (.array js') := by
  intro indent depth rest n _ hn
  cases h with
  | nil =>
    have hwrite : writeOnto indent depth rest (.array []) = unit '[' :: unit ']' :: rest := by
      rw [writeOnto]
      rfl
    rw [hwrite] at hn ⊢
    obtain ⟨n, rfl⟩ : ∃ k, n = k + 1 := ⟨n - 1, by simp at hn; omega⟩
    rw [readValue, skipSpace_cons (by decide)]
    have hclosing : after? "]" (skipSpace (unit ']' :: rest)) = some rest := by
      rw [skipSpace_cons (by decide)]
      rfl
    simp only [hclosing]
    rfl
  | @cons j j' js js' h hs =>
    generalize hitems : lineBreak indent (depth + 1) ++ writeOnto indent (depth + 1)
      (itemsOnto indent (depth + 1) (lineBreak indent depth ++ (unit ']' :: rest)) js) j = items
    have hwrite : writeOnto indent depth rest (.array (j :: js)) = unit '[' :: items := by
      rw [writeOnto, ← hitems]
      rfl
    rw [hwrite] at hn ⊢
    obtain ⟨n, rfl⟩ : ∃ k, n = k + 1 := ⟨n - 1, by simp at hn; omega⟩
    rw [List.length_cons] at hn
    have hread := readItems_write hs h indent depth rest hitems (n := n) (by omega)
    -- a value stands behind the bracket, and so no closing one
    have hvalue : after? "]" (skipSpace items) = none := by
      cases hafter : after? "]" (skipSpace items) with
      | none => rfl
      | some u =>
        rw [readItems_closing (after?_eq_some.1 hafter)] at hread
        cases hread
    rw [readValue, skipSpace_cons (by decide)]
    simp only [hvalue, hread, Option.map_some]
    rfl

/-! ## Objects -/

/-- Members of one name, the value of one reading as the value of the other. -/
def MemberReadsAs (m m' : Text × Json) : Prop := m.1 = m'.1 ∧ ReadsAs m.2 m'.2

/-- What stands between a name and its value. -/
theorem colon_eq (indent : Option Nat) :
    ∃ blank, colon indent = unit ':' :: blank ∧ ∀ c ∈ blank, isSpacing c = true := by
  cases indent with
  | none => exact ⟨[], rfl, List.forall_mem_nil _⟩
  | some k => exact ⟨[unit ' '], rfl, List.forall_mem_singleton.2 (by decide)⟩

/-- A member at the head of a text, up to what stands behind its value. -/
theorem readMembers_head {name : Text} {j j' : Json} (h : ReadsAs j j') {indent : Option Nat} {depth : Nat}
    {rest : Text} (hrest : EndsNumber rest) {t : Text}
    (ht : lineBreak indent depth ++ (quote name ++ (colon indent ++ writeOnto indent depth rest j)) = t) {n : Nat}
    (hn : 2 * t.length + 1 ≤ n + 1) :
    readMembers (n + 1) t = match after? "," (skipSpace rest) with
      | some u => (readMembers n u).bind fun (ms, u) => some ((name, j') :: ms, u)
      | none => (after? "\x7d" (skipSpace rest)).bind fun u => some ([(name, j')], u) := by
  obtain ⟨blank, hcolon, hblank⟩ := colon_eq indent
  have hname : after? [doubleQuote] (skipSpace t) =
      some (escape name ++ doubleQuote :: (colon indent ++ writeOnto indent depth rest j)) := by
    rw [← ht, skipSpace_append (lineBreak_isSpacing indent depth), quote, List.cons_append, skipSpace_cons (by decide),
      List.append_assoc]
    rfl
  have hvalue : readValue n (blank ++ writeOnto indent depth rest j) = some (j', rest) := by
    refine h.behind_space hblank hrest ?_
    rw [← ht, hcolon] at hn
    simp only [List.length_append, List.length_cons] at hn ⊢
    omega
  have hpoint : after? ":" (skipSpace (colon indent ++ writeOnto indent depth rest j)) =
      some (blank ++ writeOnto indent depth rest j) := by
    rw [hcolon, List.cons_append, skipSpace_cons (by decide)]
    rfl
  rw [readMembers]
  simp only [hname, readString_escape, hpoint, hvalue, Option.bind_eq_bind, Option.bind_some]
  rfl

/-- The members of an object behind its brace, the first one with those behind it. -/
theorem readMembers_write {ms ms' : Members} (hs : List.Forall₂ MemberReadsAs ms ms') {name : Text} {j j' : Json}
    (h : ReadsAs j j') (indent : Option Nat) (depth : Nat) (rest : Text) {t : Text}
    (ht : lineBreak indent (depth + 1) ++ (quote name ++ (colon indent ++ writeOnto indent (depth + 1)
      (membersOnto indent (depth + 1) (lineBreak indent depth ++ (unit '\x7d' :: rest)) ms) j)) = t) {n : Nat}
    (hn : 2 * t.length + 1 ≤ n) : readMembers n t = some ((name, j') :: ms', rest) := by
  induction hs generalizing name j j' t n with
  | nil =>
    obtain ⟨n, rfl⟩ : ∃ k, n = k + 1 := ⟨n - 1, by omega⟩
    have hbehind := endsNumber_lineBreak (endsNumber_cons (c := unit '\x7d') (by decide) rest) indent depth
    rw [membersOnto] at ht
    rw [readMembers_head h hbehind ht hn, skipSpace_append (lineBreak_isSpacing indent depth),
      skipSpace_cons (by decide)]
    rfl
  | @cons m m' ms ms' h₂ hs ih =>
    obtain ⟨n, rfl⟩ : ∃ k, n = k + 1 := ⟨n - 1, by omega⟩
    obtain ⟨hname, h₂⟩ := h₂
    generalize hmore : lineBreak indent (depth + 1) ++ (quote m.1 ++ (colon indent ++ writeOnto indent (depth + 1)
      (membersOnto indent (depth + 1) (lineBreak indent depth ++ (unit '\x7d' :: rest)) ms) m.2)) = more
    have hbehind : membersOnto indent (depth + 1) (lineBreak indent depth ++ (unit '\x7d' :: rest)) (m :: ms) =
        unit ',' :: more := by
      rw [← hmore]
      rfl
    rw [hbehind] at ht
    have hlength := length_writeOnto indent (depth + 1) (unit ',' :: more) j
    have hrest : readMembers n more = some ((m.1, m'.2) :: ms', rest) := by
      refine ih h₂ hmore ?_
      rw [← ht] at hn
      simp only [List.length_append, List.length_cons] at hn hlength
      omega
    have hcomma : after? "," (unit ',' :: more) = some more := rfl
    rw [readMembers_head h (endsNumber_cons (by decide) more) ht hn, skipSpace_cons (by decide), hcomma]
    simp only [hrest, Option.bind_some, hname]

/-- A new name that is no index comes last. -/
theorem Members.set_new {ms : Members} {name : Text} (hname : name ∉ ms.map Prod.fst) (hindex : index? name = none)
    (v : Json) : ms.set name v = ms ++ [(name, v)] := by
  have hnew : (ms.get? name).isSome = false := by
    rw [get?, Option.isSome_eq_false_iff, Option.isNone_iff_eq_none, List.lookup_eq_none_iff]
    intro m hm
    rw [bne_iff_ne]
    rintro rfl
    exact hname (List.mem_map_of_mem hm)
  rw [set, hnew, if_neg Bool.false_ne_true, hindex]

theorem Members.foldl_set_new {before ms : Members} (hnames : ((before ++ ms).map Prod.fst).Nodup)
    (hindex : ∀ m ∈ ms, index? m.1 = none) : ms.foldl (fun ms m => set ms m.1 m.2) before = before ++ ms := by
  induction ms generalizing before with
  | nil => exact (List.append_nil before).symm
  | cons m ms ih =>
    obtain ⟨hname, hms⟩ := List.forall_mem_cons.1 hindex
    rw [List.append_cons] at hnames ⊢
    have hnew : m.1 ∉ before.map Prod.fst := by
      rw [List.map_append, List.map_append, List.map_singleton] at hnames
      have hdisjoint := List.disjoint_of_nodup_append (List.nodup_append.1 hnames).1
      exact fun hmem => hdisjoint hmem (List.mem_singleton_self _)
    rw [List.foldl_cons, set_new hnew hname]
    exact ih hnames hms

/-- Members of different names that are no indices keep their order. -/
theorem Members.ofList_eq {ms : Members} (hnames : (ms.map Prod.fst).Nodup) (hindex : ∀ m ∈ ms, index? m.1 = none) :
    ofList ms = ms := foldl_set_new hnames hindex

/-- Objects are read member by member, if their members have different names and no indices as names. -/
theorem ReadsAs.object {ms ms' : Members} (h : List.Forall₂ MemberReadsAs ms ms')
    (hnames : (ms'.map Prod.fst).Nodup) (hindex : ∀ m ∈ ms', index? m.1 = none) :
    ReadsAs (.object ms) (.object ms') := by
  intro indent depth rest n _ hn
  cases h with
  | nil =>
    have hwrite : writeOnto indent depth rest (.object []) = unit '\x7b' :: unit '\x7d' :: rest := by
      rw [writeOnto]
      rfl
    rw [hwrite] at hn ⊢
    obtain ⟨n, rfl⟩ : ∃ k, n = k + 1 := ⟨n - 1, by simp at hn; omega⟩
    rw [readValue, skipSpace_cons (by decide)]
    have hclosing : after? "\x7d" (skipSpace (unit '\x7d' :: rest)) = some rest := by
      rw [skipSpace_cons (by decide)]
      rfl
    simp only [hclosing]
    rfl
  | @cons m m' ms ms' h hs =>
    obtain ⟨hname, h⟩ := h
    generalize hitems : lineBreak indent (depth + 1) ++ (quote m.1 ++ (colon indent ++ writeOnto indent (depth + 1)
      (membersOnto indent (depth + 1) (lineBreak indent depth ++ (unit '\x7d' :: rest)) ms) m.2)) = items
    have hwrite : writeOnto indent depth rest (.object (m :: ms)) = unit '\x7b' :: items := by
      rw [writeOnto, ← hitems]
      rfl
    rw [hwrite] at hn ⊢
    obtain ⟨n, rfl⟩ : ∃ k, n = k + 1 := ⟨n - 1, by simp at hn; omega⟩
    rw [List.length_cons] at hn
    have hread := readMembers_write hs h indent depth rest hitems (n := n) (by omega)
    have hopen : after? "\x7d" (skipSpace items) = none := by
      rw [← hitems, skipSpace_append (lineBreak_isSpacing indent _), quote, List.cons_append,
        skipSpace_cons (by decide)]
      rfl
    have hmembers : Members.ofList ((m.1, m'.2) :: ms') = m' :: ms' := by
      rw [hname]
      exact Members.ofList_eq hnames hindex
    rw [readValue, skipSpace_cons (by decide)]
    simp only [hopen, hread, Option.map_some, hmembers]
    rfl

/-! ## Whole texts -/

/-- The text of a value on many lines reads as the value that it reads as. -/
theorem ReadsAs.read_pretty {j j' : Json} (h : ReadsAs j j') : read j.pretty = some j' := by
  have hread := h (some 2) 0 [] (2 * j.pretty.length + 2) EndsNumber.nil (Nat.le_add_right _ 2)
  unfold read
  rw [show readValue (2 * j.pretty.length + 2) j.pretty = some (j', []) from hread]
  rfl

end Stencil.Json
