/-
Strings between quotes. A string ends at the first quote before which an even number of backslashes stands
(`Lexeme.ClosesFirst`), counted from behind the opening quote on, and its value is the text up to there with the
escapes replaced; if there is no such quote the string has no end, whatever else stands behind its opening quote.
-/
import Stencil.Environment.Read
import Stencil.Proofs.Layout.Written
import Stencil.Proofs.Progress.Reached
import Stencil.Proofs.Words.Behind
import Stencil.Proofs.Words.Draft

namespace Stencil

namespace Lexeme

/-! ## Where a string ends -/

/-- How many backslashes stand directly before a position of a text. -/
def backslashesBefore (t : Text) (i : Nat) : Nat :=
  ((t.take i).reverse.takeWhile (· == Text.backslash)).length

/-- A string may end at a position of the text behind its opening quote: the quote stands there again, and the
backslashes before it are pairs. -/
def Closes (q : CodeUnit) (t : Text) (i : Nat) : Prop := t[i]? = some q ∧ backslashesBefore t i % 2 = 0

/-- A string may end at a position, and at none before. -/
def ClosesFirst (q : CodeUnit) (t : Text) (i : Nat) : Prop := Closes q t i ∧ ∀ j < i, ¬Closes q t j

instance {q : CodeUnit} {t : Text} {i : Nat} : Decidable (Closes q t i) :=
  inferInstanceAs (Decidable (_ ∧ _))

instance {q : CodeUnit} {t : Text} {i : Nat} : Decidable (ClosesFirst q t i) :=
  inferInstanceAs (Decidable (_ ∧ _))

variable {q c e : CodeUnit} {t rest body v : Text} {i k : Nat}

theorem backslashesBefore_cons (hc : c ≠ Text.backslash) (t : Text) (k : Nat) :
    backslashesBefore (c :: t) (k + 1) = backslashesBefore t k := by
  unfold backslashesBefore
  rw [List.take_succ_cons, List.reverse_cons,
    takeWhile_followed (p := (· == Text.backslash)) (beq_eq_false_iff_ne.2 hc)]

/-- A backslash takes the unit behind it along, so the two count as nothing or as a pair of backslashes. -/
theorem backslashesBefore_escape (e : CodeUnit) (t : Text) (k : Nat) :
    backslashesBefore (Text.backslash :: e :: t) (k + 2) % 2 = backslashesBefore t k % 2 := by
  unfold backslashesBefore
  rw [List.take_succ_cons, List.take_succ_cons, List.reverse_cons, List.reverse_cons, List.append_assoc,
    List.singleton_append]
  by_cases he : e = Text.backslash
  · subst he
    rw [List.takeWhile_append]
    split
    · rename_i hall
      rw [List.length_append, ← hall]
      exact Nat.add_mod_right ..
    · rfl
  · rw [takeWhile_followed (p := (· == Text.backslash)) (beq_eq_false_iff_ne.2 he)]

theorem not_closes_nil : ¬Closes q [] i := by
  rintro ⟨hi, -⟩
  cases hi

theorem closes_cons (hq : c ≠ q) (hc : c ≠ Text.backslash) : Closes q (c :: t) i ↔ ∃ k, i = k + 1 ∧ Closes q t k := by
  cases i with
  | zero =>
    refine ⟨fun h => absurd (Option.some.inj h.1) hq, ?_⟩
    rintro ⟨k, hk, -⟩
    cases hk
  | succ i =>
    have hshift : Closes q (c :: t) (i + 1) ↔ Closes q t i := by
      unfold Closes
      rw [List.getElem?_cons_succ, backslashesBefore_cons hc]
    refine hshift.trans ⟨fun h => ⟨i, rfl, h⟩, ?_⟩
    rintro ⟨k, hk, h⟩
    cases hk
    exact h

theorem not_closes_backslash (hq : q ≠ Text.backslash) : ¬Closes q [Text.backslash] i := by
  rintro ⟨hi, -⟩
  cases i with
  | zero => exact hq (Option.some.inj hi).symm
  | succ i => cases hi

theorem closes_escape (hq : q ≠ Text.backslash) :
    Closes q (Text.backslash :: e :: t) i ↔ ∃ k, i = k + 2 ∧ Closes q t k := by
  match i with
  | 0 =>
    refine ⟨fun h => absurd (Option.some.inj h.1).symm hq, ?_⟩
    rintro ⟨k, hk, -⟩
    cases hk
  | 1 =>
    -- one backslash stands before the unit
    refine ⟨fun h => absurd (show 1 % 2 = 0 from h.2) (by decide), ?_⟩
    rintro ⟨k, hk, -⟩
    cases hk
  | i + 2 =>
    have hshift : Closes q (Text.backslash :: e :: t) (i + 2) ↔ Closes q t i := by
      unfold Closes
      rw [List.getElem?_cons_succ, List.getElem?_cons_succ, backslashesBefore_escape]
    refine hshift.trans ⟨fun h => ⟨i, rfl, h⟩, ?_⟩
    rintro ⟨k, hk, h⟩
    cases hk
    exact h

theorem ClosesFirst.eq (h : ClosesFirst q t i) (h' : ClosesFirst q t k) : i = k := by
  rcases Nat.lt_trichotomy i k with hlt | heq | hlt
  · exact absurd h.1 (h'.2 i hlt)
  · exact heq
  · exact absurd h'.1 (h.2 k hlt)

theorem not_closes_of_quotedRest (hq : q ≠ Text.backslash) (h : quotedRest q t = none) : ¬Closes q t i := by
  fun_induction quotedRest q t generalizing i with
  | case1 => exact not_closes_nil
  | case2 => cases h
  | case3 => exact not_closes_backslash hq
  | case4 _ e t ih =>
    rw [closes_escape hq]
    rintro ⟨k, -, hk⟩
    exact ih (Option.map_eq_none_iff.1 h) hk
  | case5 c t hc hb ih =>
    rw [closes_cons hc hb]
    rintro ⟨k, -, hk⟩
    exact ih (Option.map_eq_none_iff.1 h) hk

/-- The quote behind a text that has no quote outside of its escapes is the first one that ends a string. -/
theorem Unescapes.closesFirst (hq : q ≠ Text.backslash) (h : Unescapes q body v) (rest : Text) :
    ClosesFirst q (body ++ q :: rest) body.length := by
  induction h with
  | nil => exact ⟨⟨rfl, rfl⟩, fun j hj => absurd hj (Nat.not_lt_zero j)⟩
  | unit hc hb _ ih =>
    refine ⟨(closes_cons hc hb).2 ⟨_, rfl, ih.1⟩, fun j hj hcloses => ?_⟩
    obtain ⟨k, rfl, hk⟩ := (closes_cons hc hb).1 hcloses
    exact ih.2 k (Nat.lt_of_succ_lt_succ hj) hk
  | escape _ ih =>
    refine ⟨(closes_escape hq).2 ⟨_, rfl, ih.1⟩, fun j hj hcloses => ?_⟩
    obtain ⟨k, rfl, hk⟩ := (closes_escape hq).1 hcloses
    exact ih.2 k (Nat.lt_of_succ_lt_succ (Nat.lt_of_succ_lt_succ hj)) hk

/-! ## What a string stands for -/

/-- The units that stand for one unit behind a backslash. -/
def escapes : List (CodeUnit × CodeUnit) :=
  [(Text.unit 'n', Text.unit '\n'), (Text.unit 'r', Text.unit '\r'), (Text.unit 't', Text.unit '\t'),
    (Text.backslash, Text.backslash), (Text.singleQuote, Text.singleQuote), (Text.doubleQuote, Text.doubleQuote)]

/-- The text with its escapes replaced, from the left on; a backslash before any other unit stays, with the unit. -/
def replaceEscapes : Text → Text
  | [] => []
  | [c] => [c]
  | c :: e :: t =>
    if c = Text.backslash then
      match escapes.lookup e with
      | some u => u :: replaceEscapes t
      | none => c :: e :: replaceEscapes t
    else c :: replaceEscapes (e :: t)

theorem unescape_eq (e : CodeUnit) :
    unescape e = match escapes.lookup e with
      | some u => [u]
      | none => [Text.backslash, e] := by
  by_cases hn : e = Text.unit 'n'
  · subst hn; rfl
  by_cases hr : e = Text.unit 'r'
  · subst hr; rfl
  by_cases ht : e = Text.unit 't'
  · subst ht; rfl
  by_cases hb : e = Text.backslash
  · subst hb; rfl
  by_cases hs : e = Text.singleQuote
  · subst hs; rfl
  by_cases hd : e = Text.doubleQuote
  · subst hd; rfl
  have hlookup : escapes.lookup e = none := by
    simp only [List.lookup_eq_none_iff, escapes, List.forall_mem_cons, bne_iff_ne]
    exact ⟨hn, hr, ht, hb, hs, hd, nofun⟩
  have hother : ¬(e = Text.backslash || e = Text.doubleQuote || e = Text.singleQuote) = true := by
    simp only [Bool.or_eq_true, decide_eq_true_eq, not_or]
    exact ⟨⟨hb, hd⟩, hs⟩
  rw [hlookup, unescape, if_neg hn, if_neg hr, if_neg ht, if_neg hother]

theorem replaceEscapes_cons (hc : c ≠ Text.backslash) (t : Text) : replaceEscapes (c :: t) = c :: replaceEscapes t := by
  cases t with
  | nil => rfl
  | cons e t => rw [replaceEscapes, if_neg hc]

theorem replaceEscapes_escape (e : CodeUnit) (t : Text) :
    replaceEscapes (Text.backslash :: e :: t) = unescape e ++ replaceEscapes t := by
  rw [replaceEscapes, if_pos rfl, unescape_eq]
  cases escapes.lookup e <;> rfl

theorem Unescapes.value (h : Unescapes q body v) : v = replaceEscapes body := by
  induction h with
  | nil => rfl
  | unit _ hb _ ih => rw [replaceEscapes_cons hb, ih]
  | escape _ ih => rw [replaceEscapes_escape, ih]

/-! ## Reading a string -/

variable {afterDot : Bool}

theorem closesFirst_of_quotedRest (hq : q ≠ Text.backslash) {w : Text} (h : quotedRest q t = some (v, w)) :
    ∃ i, ClosesFirst q t i ∧ v = replaceEscapes (t.take i) ∧ w = t.take (i + 1) := by
  obtain ⟨body, rfl, hbody⟩ := quotedRest_unescapes h
  obtain ⟨rest, rfl⟩ := quotedRest_append h
  rw [List.append_assoc, List.singleton_append]
  refine ⟨body.length, hbody.closesFirst hq rest, ?_, ?_⟩
  · rw [List.take_left, hbody.value]
  · rw [List.take_length_add_append]
    rfl

theorem quotedRest_closesFirst (hq : q ≠ Text.backslash) (h : ClosesFirst q t i) :
    quotedRest q t = some (replaceEscapes (t.take i), t.take (i + 1)) := by
  cases hread : quotedRest q t with
  | none => exact absurd h.1 (not_closes_of_quotedRest hq hread)
  | some vw =>
    obtain ⟨k, hk, hv, hw⟩ := closesFirst_of_quotedRest hq hread
    rw [h.eq hk, ← hv, ← hw]

theorem quotedRest_eq_none (hq : q ≠ Text.backslash) (h : ∀ i, ¬Closes q t i) : quotedRest q t = none := by
  cases hread : quotedRest q t with
  | none => rfl
  | some vw =>
    obtain ⟨i, hi, -⟩ := closesFirst_of_quotedRest hq hread
    exact absurd hi.1 (h i)

/-- A string that may end somewhere ends at a first position. -/
theorem exists_closesFirst (hq : q ≠ Text.backslash) (h : Closes q t i) : ∃ k, ClosesFirst q t k := by
  cases hread : quotedRest q t with
  | none => exact absurd h (not_closes_of_quotedRest hq hread)
  | some vw =>
    obtain ⟨k, hk, -⟩ := closesFirst_of_quotedRest hq hread
    exact ⟨k, hk⟩

theorem read_quote (q : Quote) (t : Text) :
    read afterDot (q.unit :: t) =
      match quotedRest q.unit t with
      | some (v, w) => .ok ⟨.string, v, q.unit :: w, List.cons_ne_nil _ _⟩
      | none => .error .unterminated := by
  have hquote : (q.unit = Text.doubleQuote || q.unit = Text.singleQuote) = true := by cases q <;> decide
  rw [read]
  refine (if_pos hquote).trans ?_
  cases quotedRest q.unit t <;> rfl

/-- The string that ends at a position of the text behind its opening quote. -/
def stringTo (q : Quote) (t : Text) (i : Nat) : Lexeme :=
  ⟨.string, replaceEscapes (t.take i), q.unit :: t.take (i + 1), List.cons_ne_nil _ _⟩

theorem read_closesFirst {q : Quote} (h : ClosesFirst q.unit t i) :
    read afterDot (q.unit :: t) = .ok (stringTo q t i) := by
  rw [read_quote, quotedRest_closesFirst q.unit_ne_backslash h]
  rfl

theorem read_unterminated {q : Quote} (h : ∀ i, ¬Closes q.unit t i) :
    read afterDot (q.unit :: t) = .error .unterminated := by
  rw [read_quote, quotedRest_eq_none q.unit_ne_backslash h]

/-- A value between quotes, escaped, is read again. -/
theorem closesFirst_escape (q : Quote) (v rest : Text) :
    ClosesFirst q.unit (escape q.unit v ++ q.unit :: rest) (escape q.unit v).length ∧
      replaceEscapes (escape q.unit v) = v := by
  have hread := quotedRest_escape q v rest
  obtain ⟨body, hbody, hv⟩ := quotedRest_unescapes hread
  obtain rfl := List.append_cancel_right hbody
  exact ⟨hv.closesFirst q.unit_ne_backslash rest, hv.value.symm⟩

end Lexeme

/-! ## Strings in a source -/

variable {filename : Option Text} {q : Lexeme.Quote} {t : Text} {i : Nat}

namespace Cursor

variable {c : Cursor} {previous : Option TokenKind}

theorem next_closesFirst (ht : c.rest = q.unit :: t) (hi : Lexeme.ClosesFirst q.unit t i) :
    c.next previous filename =
      (.ok ⟨.string, Lexeme.replaceEscapes (t.take i), ⟨c.place, c.place.after (q.unit :: t.take (i + 1))⟩⟩,
        { c with place := c.place.after (q.unit :: t.take (i + 1)) }) := by
  rw [next, ht, Lexeme.read_closesFirst hi]
  rfl

/-- Reading a token by hand fails on an opening quote just if the string there has no end. -/
theorem unterminated_iff (ht : c.rest = q.unit :: t) :
    (∃ e, (c.next previous filename).1 = .error e ∧ e.id = .unterminatedString ∧ e.location = some c.place) ↔
      ∀ i, ¬Lexeme.Closes q.unit t i := by
  constructor
  · rintro ⟨e, he, -⟩ i hi
    obtain ⟨k, hk⟩ := Lexeme.exists_closesFirst q.unit_ne_backslash hi
    rw [next_closesFirst ht hk] at he
    cases he
  · intro hnone
    rw [next, ht, Lexeme.read_unterminated hnone]
    exact ⟨_, rfl, rfl, rfl⟩

end Cursor

namespace Scan

variable {d : Delimiters} {s₀ s : State}

theorem step_closesFirst (h : s.AtToken d) (ht : s.ahead = q.unit :: t) (hi : Lexeme.ClosesFirst q.unit t i) :
    s.step d filename =
      .ok ⟨[⟨.string, Lexeme.replaceEscapes (t.take i),
          ⟨s.aheadPlace, s.aheadPlace.after (q.unit :: t.take (i + 1))⟩⟩],
        some ⟨s.mode.behind .string, s.aheadPlace.after (q.unit :: t.take (i + 1)), t.drop (i + 1)⟩⟩ := by
  have hdrop : (q.unit :: t).drop (q.unit :: t.take (i + 1)).length = t.drop (i + 1) := by
    obtain ⟨hlt, -⟩ := List.getElem?_eq_some_iff.1 hi.1.1
    rw [List.length_cons, List.drop_succ_cons, List.length_take, Nat.min_eq_left hlt]
  rw [h.step_ok (ht ▸ Lexeme.read_closesFirst hi), State.past, ht, ← hdrop]
  rfl

/-- A scan that comes to an opening quote reports that the string there has no end just if it has none. -/
theorem Reaches.unterminated_iff (h : Reaches d filename s₀ s) (hd : d.Sound) (hs : s.AtToken d)
    (ht : s.ahead = q.unit :: t) :
    (∃ e, Scan.tokensFrom d hd filename s₀ = .error e ∧ e.id = .unterminatedString ∧
      e.location = some s.aheadPlace) ↔ ∀ i, ¬Lexeme.Closes q.unit t i := by
  constructor
  · rintro ⟨e, he, hid, hplace⟩ i hi
    obtain ⟨k, hk⟩ := Lexeme.exists_closesFirst q.unit_ne_backslash hi
    -- the scan gets behind the string, and what it finds from there on is further on
    obtain ⟨l, hl, hbehind | ⟨hid', -⟩⟩ := h.finds hd (step_closesFirst hs ht hk) rfl he
    · obtain rfl := Option.some.inj (hplace.symm.trans hl)
      exact absurd hbehind (Nat.not_le_of_lt (Location.offset_lt_after _ (List.cons_ne_nil _ _)))
    · rw [hid] at hid'
      cases hid'
  · intro hnone
    refine ⟨_, h.error hd (e := faultDiagnostic filename s.aheadPlace .unterminated) ?_, rfl, rfl⟩
    rw [hs.step_eq, ht, lexemeStep, Lexeme.read_unterminated hnone]

/-- A value between quotes, escaped, is all that is read from its written form. -/
theorem expression_escape (hd : d.Sound) (q : Lexeme.Quote) (v : Text) :
    let literal := q.unit :: (Lexeme.escape q.unit v ++ [q.unit])
    let stop := Location.origin.after literal
    expression d hd filename literal = .ok [⟨.string, v, ⟨.origin, stop⟩⟩, Token.atEnd stop] := by
  intro literal stop
  obtain ⟨hclose, hvalue⟩ := Lexeme.closesFirst_escape q v []
  have hspacing : ¬Text.isSpacing q.unit = true := by cases q <;> decide
  have hahead : State.ahead ⟨.bare false, .origin, literal⟩ = literal := List.dropWhile_cons_of_neg hspacing
  have hplace : State.aheadPlace ⟨.bare false, .origin, literal⟩ = .origin :=
    congrArg Location.origin.after (List.takeWhile_cons_of_neg hspacing)
  have hs : State.AtToken d ⟨.bare false, .origin, literal⟩ :=
    ⟨nofun, by rw [hahead]; exact List.cons_ne_nil _ _, id⟩
  have hwhole : (Lexeme.escape q.unit v ++ [q.unit]).length = (Lexeme.escape q.unit v).length + 1 := List.length_append
  have hstep : State.step d filename ⟨.bare false, .origin, literal⟩ = _ := step_closesFirst hs hahead hclose
  rw [hplace, List.take_left, hvalue, ← hwhole, List.take_length, List.drop_length] at hstep
  rw [expression, tokensFrom_eq, hstep]
  simp only [tokensFrom_eq hd ⟨Mode.behind _ _, _, _⟩]
  rfl

end Scan

/-- Strings, wherever a token is read that begins with a quote: by hand, or in a scan that comes there. A string ends
at the first quote that an even number of backslashes stands before, and stands for the text up to there with its
escapes replaced; without such a quote, and only then, `KILN-L001` is reported where the string begins. So every value
is read again from its escaped form between quotes. -/
theorem Environment.strings_exact (env : Environment) (filename : Option Text) (q : Lexeme.Quote) :
    (∀ (c : Cursor) (previous : Option TokenKind) (t : Text), c.rest = q.unit :: t →
      (∀ i, Lexeme.ClosesFirst q.unit t i →
        let stop := c.place.after (q.unit :: t.take (i + 1))
        c.next previous filename =
          (.ok ⟨.string, Lexeme.replaceEscapes (t.take i), ⟨c.place, stop⟩⟩, { c with place := stop })) ∧
      ((∃ e, (c.next previous filename).1 = .error e ∧ e.id.code = ("KILN-L001" : Text) ∧
          e.location = some c.place) ↔ ∀ i, ¬Lexeme.Closes q.unit t i)) ∧
    (∀ (s₀ s : Scan.State) (t : Text), Scan.Reaches env.delimiters filename s₀ s → s.AtToken env.delimiters →
      s.ahead = q.unit :: t →
      (∀ i, Lexeme.ClosesFirst q.unit t i →
        let stop := s.aheadPlace.after (q.unit :: t.take (i + 1))
        let token : Token := ⟨.string, Lexeme.replaceEscapes (t.take i), ⟨s.aheadPlace, stop⟩⟩
        s.step env.delimiters filename = .ok ⟨[token], some ⟨s.mode.behind .string, stop, t.drop (i + 1)⟩⟩ ∧
          ∀ ts, Scan.tokensFrom env.delimiters env.isSound filename s₀ = .ok ts → token ∈ ts) ∧
      ((∃ e, Scan.tokensFrom env.delimiters env.isSound filename s₀ = .error e ∧
          e.id.code = ("KILN-L001" : Text) ∧ e.location = some s.aheadPlace) ↔
        ∀ i, ¬Lexeme.Closes q.unit t i)) ∧
    ∀ v : Text,
      (∀ rest, Lexeme.ClosesFirst q.unit (Lexeme.escape q.unit v ++ q.unit :: rest)
        (Lexeme.escape q.unit v).length) ∧
      Lexeme.replaceEscapes (Lexeme.escape q.unit v) = v ∧
      let literal := q.unit :: (Lexeme.escape q.unit v ++ [q.unit])
      let stop := Location.origin.after literal
      env.expressionTokens filename literal = .ok [⟨.string, v, ⟨.origin, stop⟩⟩, Token.atEnd stop] := by
  have hcode : ("KILN-L001" : Text) = ErrorId.unterminatedString.code := rfl
  simp only [hcode, ErrorId.code_eq_code_iff]
  refine ⟨fun c previous t ht => ⟨fun i hi => Cursor.next_closesFirst ht hi, ?_⟩,
    fun s₀ s t hreach hs ht => ⟨fun i hi => ⟨Scan.step_closesFirst hs ht hi, fun ts hts => ?_⟩, ?_⟩, fun v => ?_⟩
  · exact Cursor.unterminated_iff ht
  · exact (hreach.tokens env.isSound (Scan.step_closesFirst hs ht hi) hts).subset (List.mem_singleton_self _)
  · exact hreach.unterminated_iff env.isSound hs ht
  · exact ⟨fun rest => (Lexeme.closesFirst_escape q v rest).1, (Lexeme.closesFirst_escape q v []).2,
      Scan.expression_escape env.isSound q v⟩

/-- Behind a name, a string with an escaped backslash, an escaped quote and the other quote, and then a quote alone. -/
theorem Environment.strings_exact_backslashes :
    let source : Text := "x \"\\\\\\\" y'\" 'z"
    let before : Scan.State := ⟨.bare false, ⟨1, 2, 1⟩, source.drop 1⟩
    let behind : Scan.State := ⟨.bare false, ⟨1, 12, 11⟩, source.drop 11⟩
    Scan.Reaches .standard none ⟨.bare false, .origin, source⟩ before ∧
      before.ahead = Text.doubleQuote :: source.drop 3 ∧
      Lexeme.ClosesFirst Text.doubleQuote (source.drop 3) 7 ∧
      before.step .standard none = .ok ⟨[⟨.string, "\\\" y'", ⟨⟨1, 3, 2⟩, ⟨1, 12, 11⟩⟩⟩], some behind⟩ ∧
      ∃ e, Environment.standard.expressionTokens none source = .error e ∧ e.id.code = ("KILN-L001" : Text) ∧
        e.location = some ⟨1, 13, 12⟩ := by
  intro source before behind
  have hbefore : Scan.Reaches .standard none ⟨.bare false, .origin, source⟩ before :=
    .step .here (r := ⟨[⟨.name, "x", ⟨⟨1, 1, 0⟩, ⟨1, 2, 1⟩⟩⟩], some before⟩) rfl rfl
  have hclose : Lexeme.ClosesFirst Text.doubleQuote (source.drop 3) 7 := by decide +kernel
  have hstep : before.step .standard none =
      .ok ⟨[⟨.string, "\\\" y'", ⟨⟨1, 3, 2⟩, ⟨1, 12, 11⟩⟩⟩], some behind⟩ :=
    ((Environment.strings_exact .standard none .double).2.1 _ before (source.drop 3) hbefore
      ⟨nofun, by decide +kernel, id⟩ (by decide +kernel)).1 7 hclose |>.1
  refine ⟨hbefore, by decide +kernel, hclose, hstep, ?_⟩
  exact ((Environment.strings_exact .standard none .single).2.1 _ behind "z" (.step hbefore hstep rfl)
    ⟨nofun, by decide +kernel, id⟩ (by decide +kernel)).2.2
    fun i => Lexeme.not_closes_of_quotedRest (by decide) (by decide +kernel)

end Stencil
