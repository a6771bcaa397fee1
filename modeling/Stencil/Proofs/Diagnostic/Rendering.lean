/-
Rendering substitutes once, from left to right. `Reads` takes a template apart: a brace that opens a name leads to
the first closing brace behind it, and every other unit stands for itself. A template has such a reading just when
all of its opening braces close (`reads_iff_closed`), it has one reading at most, and rendering puts the texts in
the places of the names (`fill_substitutes`); what is put in is not looked at again.
-/
import Stencil.Diagnostic.Message

namespace Stencil.Message

/-! ## Readings of templates -/

/-- A unit with a text behind it is a brace that opens a name: a brace that another one directly follows opens
none. -/
def Opens (c : CodeUnit) (behind : Text) : Prop :=
  c = Text.unit '\x7b' ∧ behind.head? ≠ some (Text.unit '\x7b')

/-- A template taken apart from left to right. -/
inductive Reads : Text → List Piece → Prop
  | nil : Reads [] []
  | unit {c : CodeUnit} {t : Text} {ps : List Piece} (hc : ¬Opens c t) (h : Reads t ps) :
      Reads (c :: t) (.unit c :: ps)
  /-- A name goes up to the first closing brace, whatever other braces are in it. -/
  | value {c : CodeUnit} {name t : Text} {ps : List Piece} (hc : Opens c (name ++ Text.unit '\x7d' :: t))
      (hname : Text.unit '\x7d' ∉ name) (h : Reads t ps) :
      Reads (c :: (name ++ Text.unit '\x7d' :: t)) (.value name :: ps)

/-- Every brace that is not directly followed by another one has a closing brace somewhere behind it. -/
def Closed (t : Text) : Prop :=
  ∀ before behind : Text, t = before ++ Text.unit '\x7b' :: behind → behind.head? ≠ some (Text.unit '\x7b') →
    Text.unit '\x7d' ∈ behind

variable {t name before behind : Text} {c : CodeUnit} {ps : List Piece}

/-! ## Where a reading exists -/

theorem Closed.of_append (h : Closed (before ++ t)) : Closed t := by
  rintro b a rfl ha
  exact h (before ++ b) a (List.append_assoc ..).symm ha

theorem Closed.cons_iff : Closed (c :: t) ↔ (Opens c t → Text.unit '\x7d' ∈ t) ∧ Closed t := by
  constructor
  · intro h
    have happend : Closed ([c] ++ t) := h
    exact ⟨fun hc => h [] t (by rw [hc.1]; rfl) hc.2, happend.of_append⟩
  · rintro ⟨hopen, h⟩ before behind ht hbehind
    rcases List.cons_eq_append_iff.1 ht with ⟨rfl, hcons⟩ | ⟨b, rfl, hrest⟩
    · obtain ⟨rfl, rfl⟩ := List.cons_eq_cons.1 hcons
      exact hopen ⟨rfl, hbehind⟩
    · exact h b behind hrest hbehind

/-- Braces inside of a name have the brace behind them that closes the name. -/
theorem Closed.behind_name (h : Closed t) (name : Text) : Closed (name ++ Text.unit '\x7d' :: t) := by
  induction name with
  | nil => exact cons_iff.2 ⟨fun hc => absurd hc.1 (by decide), h⟩
  | cons c name ih =>
    exact cons_iff.2 ⟨fun _ => List.mem_append_right name List.mem_cons_self, ih⟩

theorem Reads.closed (h : Reads t ps) : Closed t := by
  induction h with
  | nil => exact fun before behind ht => absurd ht (by simp)
  | unit hc _ ih => exact Closed.cons_iff.2 ⟨fun ho => absurd ho hc, ih⟩
  | value _ _ _ ih =>
    exact Closed.cons_iff.2 ⟨fun _ => List.mem_append_right _ List.mem_cons_self, ih.behind_name _⟩

theorem Closed.exists_reads (h : Closed t) : ∃ ps, Reads t ps := by
  induction hn : t.length using Nat.strongRecOn generalizing t with
  | ind n ih =>
    cases t with
    | nil => exact ⟨[], .nil⟩
    | cons c t =>
      obtain ⟨hclose, hrest⟩ := Closed.cons_iff.1 h
      by_cases hc : Opens c t
      · obtain ⟨name, rest, rfl, hname⟩ := List.eq_append_cons_of_mem (hclose hc)
        rw [List.append_cons] at hrest
        have hafter : Closed rest := hrest.of_append
        obtain ⟨ps, hps⟩ := ih rest.length (by rw [← hn]; simp; omega) hafter rfl
        exact ⟨_, .value hc hname hps⟩
      · obtain ⟨ps, hps⟩ := ih t.length (by rw [← hn]; simp) hrest rfl
        exact ⟨_, .unit hc hps⟩

theorem reads_iff_closed : (∃ ps, Reads t ps) ↔ Closed t := ⟨fun ⟨_, h⟩ => h.closed, Closed.exists_reads⟩

/-! ## The reading is what rendering finds -/

theorem pieces?_of_opens (hc : Opens c t) : pieces? (c :: t) = piecesFrom? (some []) t := if_pos hc

theorem pieces?_of_not_opens (hc : ¬Opens c t) : pieces? (c :: t) = (pieces? t).map (.unit c :: ·) := if_neg hc

/-- Behind a brace that is open, a name goes on up to the first closing brace. -/
theorem piecesFrom?_name (hname : Text.unit '\x7d' ∉ name) (n t : Text) :
    piecesFrom? (some n) (name ++ Text.unit '\x7d' :: t) = (pieces? t).map (.value (n ++ name) :: ·) := by
  induction name generalizing n with
  | nil => rw [List.nil_append, piecesFrom?, if_pos rfl, List.append_nil, pieces?]
  | cons c name ih =>
    obtain ⟨hc, hname⟩ := not_or.1 (mt List.mem_cons.2 hname)
    rw [List.cons_append, piecesFrom?, if_neg (Ne.symm hc), ih hname, List.append_assoc, List.singleton_append]

theorem Reads.pieces?_eq (h : Reads t ps) : pieces? t = some ps := by
  induction h with
  | nil => rfl
  | unit hc _ ih => rw [pieces?_of_not_opens hc, ih, Option.map_some]
  | value hc hname _ ih =>
    rw [pieces?_of_opens hc, piecesFrom?_name hname, ih, Option.map_some, List.nil_append]

/-- What a brace opens that never closes is nothing. -/
theorem piecesFrom?_open (h : Text.unit '\x7d' ∉ t) (n : Text) : piecesFrom? (some n) t = none := by
  induction t generalizing n with
  | nil => rfl
  | cons c t ih =>
    obtain ⟨hc, ht⟩ := not_or.1 (mt List.mem_cons.2 h)
    rw [piecesFrom?, if_neg (Ne.symm hc), ih ht]

theorem pieces?_eq_none (h : ¬Closed t) : pieces? t = none := by
  induction hn : t.length using Nat.strongRecOn generalizing t with
  | ind n ih =>
    cases t with
    | nil => exact absurd Reads.nil.closed h
    | cons c t =>
      by_cases hc : Opens c t
      · rw [pieces?_of_opens hc]
        by_cases hclose : Text.unit '\x7d' ∈ t
        · obtain ⟨name, rest, rfl, hname⟩ := List.eq_append_cons_of_mem hclose
          have hafter : ¬Closed rest := fun hrest =>
            h (Closed.cons_iff.2 ⟨fun _ => hclose, hrest.behind_name name⟩)
          rw [piecesFrom?_name hname, ih rest.length (by rw [← hn]; simp; omega) hafter rfl, Option.map_none]
        · exact piecesFrom?_open hclose []
      · have hafter : ¬Closed t := fun hrest => h (Closed.cons_iff.2 ⟨fun ho => absurd ho hc, hrest⟩)
        rw [pieces?_of_not_opens hc, ih t.length (by rw [← hn]; simp) hafter rfl, Option.map_none]

theorem pieces?_eq_some_iff : pieces? t = some ps ↔ Reads t ps := by
  refine ⟨fun h => ?_, Reads.pieces?_eq⟩
  by_cases hc : Closed t
  · obtain ⟨qs, hqs⟩ := hc.exists_reads
    rw [hqs.pieces?_eq] at h
    exact Option.some.inj h ▸ hqs
  · rw [pieces?_eq_none hc] at h
    cases h

theorem Reads.unique {qs : List Piece} (h : Reads t ps) (h' : Reads t qs) : qs = ps :=
  Option.some.inj (h'.pieces?_eq.symm.trans h.pieces?_eq)

/-! ## Rendering -/

/-- The names that every record answers to, whatever is put in it. -/
def inheritedNames : List Text :=
  [Text.ofString "__proto__", "constructor", "toString", "valueOf", "hasOwnProperty", "isPrototypeOf",
    "propertyIsEnumerable", "toLocaleString", "__defineGetter__", "__defineSetter__", "__lookupGetter__",
    "__lookupSetter__"]

theorem inherited?_eq_none (h : name ∉ inheritedNames) : inherited? name = none := by
  simp only [inheritedNames, List.mem_cons, not_or] at h
  obtain ⟨hproto, hconstructor, hothers⟩ := h
  unfold inherited?
  rw [if_neg hproto, if_neg hconstructor, if_neg]
  rw [List.contains_iff_mem]
  simp only [List.mem_cons, not_or]
  exact hothers

/-- Rendering is one substitution, from left to right. A template of which every opening brace closes has one
reading, and each name of it gives way to its text while all other units stay; any other template stays as it is.
A name of the record stands for its text, or for nothing if it has no value. A name that the record does not have
stands for nothing too, unless every record answers to it. -/
theorem fill_substitutes (template : Text) (texts : Texts) :
    (Closed template → ∃ ps, Reads template ps ∧ (∀ qs, Reads template qs → qs = ps) ∧
      fill template texts = (ps.map (Piece.text texts)).flatten) ∧
    (¬Closed template → fill template texts = template) ∧
    (∀ c, Piece.text texts (.unit c) = [c]) ∧
    (∀ name text, texts.lookup name = some (some text) → Piece.text texts (.value name) = text) ∧
    (∀ name, texts.lookup name = some none → Piece.text texts (.value name) = []) ∧
    ∀ name, texts.lookup name = none → name ∉ inheritedNames → Piece.text texts (.value name) = [] := by
  refine ⟨fun h => ?_, fun h => ?_, fun c => rfl, fun name text h => ?_, fun name h => ?_, fun name h hname => ?_⟩
  · obtain ⟨ps, hps⟩ := h.exists_reads
    refine ⟨ps, hps, fun qs => hps.unique, ?_⟩
    rw [fill, hps.pieces?_eq]
    exact List.flatMap_def
  · rw [fill, pieces?_eq_none h]
  · simp only [Piece.text, textOf, h, Option.getD_some]
  · simp only [Piece.text, textOf, h, Option.getD_none]
  · simp only [Piece.text, textOf, h, inherited?_eq_none hname, Option.getD_none]

/-- Braces around a name and in a text that is put in stay as they are. -/
theorem fill_substitutes_braces :
    let template : Text := "\x7b\x7ba\x7d\x7d, \x7bb\x7bc\x7d\x7bd\x7d"
    let texts : Texts := [("a", some "\x7bd\x7d"), ("b\x7bc", none), ("d", some "1")]
    Closed template ∧ fill template texts = Text.ofString "\x7b\x7bd\x7d\x7d, 1" := by
  intro template texts
  have hreads : Reads template [.unit (Text.unit '\x7b'), .value "a", .unit (Text.unit '\x7d'),
      .unit (Text.unit ','), .unit (Text.unit ' '), .value "b\x7bc", .value "d"] :=
    pieces?_eq_some_iff.1 (by decide +kernel)
  obtain ⟨ps, -, hunique, hfill⟩ := (fill_substitutes template texts).1 hreads.closed
  obtain rfl := hunique _ hreads
  exact ⟨hreads.closed, hfill.trans (by decide +kernel)⟩

/-- A name that is not in the record, and stands for a text all the same. -/
theorem fill_constructor :
    Closed "\x7bconstructor\x7d" ∧ Reads "\x7bconstructor\x7d" [.value "constructor"] ∧
      ([] : Texts).lookup (Text.ofString "constructor") = none ∧
      fill "\x7bconstructor\x7d" [] = Text.ofString "function Object() \x7b [native code] \x7d" ∧
      fill "\x7bconstructor\x7d" [] ≠ [] := by
  have hreads : Reads "\x7bconstructor\x7d" [.value "constructor"] := pieces?_eq_some_iff.1 (by decide +kernel)
  exact ⟨hreads.closed, hreads, rfl, by decide +kernel, by decide +kernel⟩

end Stencil.Message
