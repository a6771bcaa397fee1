/-
An expression that stands alone and the same expression in a tag. Both are read as one tree from the same
tokens, unless there are none or a comma ends them (`interpolation_agrees`): the end of a tag ends a tuple
where an item could stand, the end of a source does not (`trailing_comma_in_tag_only`).
-/
import Stencil.Proofs.Alone.Suffix
import Stencil.Proofs.Writing.Recovery

namespace Stencil

/-! ## All rules for expressions -/

namespace Grammar

variable {m : Twin} {g : Grammar} {find : Text → Option Extension}

theorem step_mirrors (h : m.Mirrors g) : m.Mirrors (step find g) := by
  intro ph r p hp hr
  cases r with
  | expression conditional => exact expression_twin h hp conditional
  | cond => exact cond_twin h hp
  | condRest value => exact condRest_twin h hp value
  | binary op => exact binary_twin h hp op
  | binaryRest op left => exact binaryRest_twin h hp op left
  | compare => exact compare_twin h hp
  | compareRest => exact compareRest_twin h hp
  | unary => exact unary_twin h hp
  | primary withSuffixes => exact primary_twin h hp withSuffixes
  | tuple item => exact tuple_twin h hp item
  | tupleRest item => exact tupleRest_twin h hp item
  | list => exact list_twin h hp
  | listItems first => exact listItems_twin h hp first
  | dict => exact dict_twin h hp
  | dictItems first => exact dictItems_twin h hp first
  | suffixes e => exact suffixes_twin h hp e
  | subscript object => exact subscript_twin h hp object
  | subscriptItems first => exact subscriptItems_twin h hp first
  | subscriptItem => exact subscriptItem_twin h hp
  | call callee => exact call_twin h hp callee
  | «arguments» => exact arguments_twin h hp
  | argumentsRest opened args => exact argumentsRest_twin h hp opened args
  | filter input => exact filter_twin h hp input
  | filterChain input => exact filterChain_twin h hp input
  | filterRest e => exact filterRest_twin h hp e
  | singleFilter input => exact singleFilter_twin h hp input
  | test subject => exact test_twin h hp subject
  | _ => cases hr

theorem run_mirrors (find : Text → Option Extension) (n : Nat) : m.Mirrors (run find n) := by
  induction n with
  | zero => exact fun _ _ _ _ _ => .fault
  | succ n ih => exact step_mirrors ih

/-- From the first token on the grammar reads a rule for expressions as every depth does that is above the
number of tokens so many times. -/
theorem ofExtensions_eq_run {s : Stream} (hlast : s.last.kind = .eof) {ph : Phrase} {r : Rule ph}
    (hr : r.isStatement = false) {n : Nat} (hn : 32 * s.tokens.size + 32 ≤ n) :
    ofExtensions find r s 0 = run find n r s 0 := by
  let c := s.frame hlast 0 False False
  have hstart : c.Within 0 := ⟨Nat.le_refl _, Nat.le_max_left ..⟩
  have hweight : c.weight r 0 < n := by
    have hrank := Frame.rank_lt r
    have hfinish : c.finish = s.tokens.size - 1 := Nat.max_eq_right (Nat.zero_le _)
    rw [Frame.weight, hfinish]
    omega
  refine (ofExtensions_reads (c := c) False.elim (s.frame_shallow hlast 0 _ _) r hstart hweight ?_).1
  rw [hr]
  nofun

/-! ## Expressions in templates -/

/-- An interpolation is read over its expression and the end of its tag. -/
theorem content_interpolation {s : Stream} {ends : Option (List TokenKind)} {pending : List Expr} {pos q : Nat}
    {body : List Stmt} (hk : (s.get pos).kind = .variableBegin) :
    content g ends pending s pos = .ok body q ↔ ∃ e r, g (.tuple (.expression true)) s (pos + 1) = .ok e r ∧
      (s.get r).kind = .variableEnd ∧ g (.content ends (pending ++ [e])) s (r + 1) = .ok body q := by
  have hcontent : content g ends pending s pos = (do
      let e ← g (.tuple (.expression true))
      let _ ← Parser.expect .variableEnd
      g (.content ends (pending ++ [e])) : Parser (List Stmt)) s (pos + 1) := by
    unfold content
    rw [Parser.current_bind, hk]
    exact Parser.advance_bind (by rw [hk]; nofun) _
  rw [hcontent, Parser.bind_eq_ok]
  refine exists_congr fun e => exists_congr fun r => and_congr_right fun _ => ?_
  by_cases hend : (s.get r).kind = .variableEnd
  · rw [Parser.expect_bind hend nofun, and_iff_right hend]
  · refine iff_of_false (fun h => ?_) fun h => hend h.1
    have hfail : (Parser.expect .variableEnd >>= fun _ => g (.content ends (pending ++ [e]))) s r = .fail _ r :=
      Parser.bind_eq_fail.2 (.inl (if_neg hend))
    rw [hfail] at h
    cases h

/-- A template that begins with an interpolation and ends behind it. -/
theorem template_of_interpolation (find : Text → Option Extension) (n : Nat) {s : Stream}
    (hk : (s.get 0).kind = .variableBegin)
    (hbehind : ∀ r, (s.get r).kind = .variableEnd → (s.get (r + 1)).kind = .eof) {t : Template} {q : Nat} :
    run find (n + 3) .template s 0 = .ok t q ↔ ∃ e r, run find (n + 1) (.tuple (.expression true)) s 1 = .ok e r ∧
      (s.get r).kind = .variableEnd ∧ q = r + 1 ∧
        t = ⟨[.output [e] e.span], ⟨.origin, (s.get (r + 1)).span.finish⟩⟩ := by
  have hrest (e : Expr) {r : Nat} (hr : (s.get r).kind = .eof) :
      run find (n + 1) (.content none [e]) s r = .ok [.output [e] e.span] r := by
    show content (run find n) none [e] s r = _
    unfold content
    rw [Parser.current_bind, hr]
    rfl
  have htemplate : run find (n + 3) .template s 0 = template (run find (n + 2)) s 0 := rfl
  rw [htemplate, template, Parser.bind_eq_ok]
  constructor
  · rintro ⟨body, p, hbody, ht⟩
    obtain ⟨e, r, he, hend, hbody⟩ := (content_interpolation hk).1 hbody
    rw [List.nil_append, hrest e (hbehind r hend)] at hbody
    cases hbody
    cases ht
    exact ⟨e, r, he, hend, rfl, rfl⟩
  · rintro ⟨e, r, he, hend, rfl, rfl⟩
    exact ⟨_, r + 1, (content_interpolation hk).2 ⟨e, r, he, hend, hrest e (hbehind r hend)⟩, rfl⟩

end Grammar

/-! ## The twin of some tokens -/

namespace Stream

variable {s alone tagged : Stream} {ts us : List Token} {pos i : Nat}

/-- The stream holds the tokens between the begin and the end of a tag, and the end of the source. -/
def Interpolates (s : Stream) (ts : List Token) : Prop := ∃ b v t, b.kind = .variableBegin ∧
  v.kind = .variableEnd ∧ t.kind = .eof ∧ s.tokens.toList = b :: (ts ++ [v, t])

theorem At.get_add (h : s.At pos us) (hi : i < us.length) : s.get (pos + i) = us[i] := by
  have hget : s.tokens[pos + i]? = some us[i] := by
    rw [← Array.getElem?_toList, ← List.getElem?_drop, h, List.getElem?_eq_getElem hi]
  rw [Stream.get, hget]
  rfl

theorem Holds.get (h : s.Holds ts) (hi : i < ts.length) : s.get i = ts[i] := by
  obtain ⟨t, -, hat⟩ := h.at
  have hget := hat.get_add (i := i) (by rw [List.length_append]; omega)
  rwa [Nat.zero_add, List.getElem_append_left hi] at hget

theorem Holds.size (h : s.Holds ts) : s.tokens.size = ts.length + 1 := by
  obtain ⟨t, -, htokens⟩ := h
  rw [← Array.length_toList, htokens, List.length_append, List.length_singleton]

theorem Interpolates.size (h : s.Interpolates ts) : s.tokens.size = ts.length + 3 := by
  obtain ⟨b, v, t, -, -, -, htokens⟩ := h
  rw [← Array.length_toList, htokens, List.length_cons, List.length_append]
  rfl

/-- What stands in the stream between the tag's begin and its end, there, and behind it. -/
theorem Interpolates.get (h : s.Interpolates ts) : (s.get 0).kind = .variableBegin ∧
    (∀ (i : Nat) (hi : i < ts.length), s.get (i + 1) = ts[i]) ∧ (s.get (ts.length + 1)).kind = .variableEnd ∧
    ∀ i, ts.length + 2 ≤ i → (s.get i).kind = .eof := by
  have hsize := h.size
  obtain ⟨b, v, t, hb, hv, ht, htokens⟩ := h
  have hat : s.At 0 (b :: (ts ++ [v, t])) := htokens
  have hend : s.At (1 + ts.length) [v, t] := by
    have := hat.next.append
    rwa [Nat.zero_add] at this
  have hlength : ts.length + 1 = 1 + ts.length := Nat.add_comm ..
  have hlast : s.get (ts.length + 2) = t := by
    have hindex : ts.length + 2 = 1 + ts.length + 1 := by omega
    rw [hindex, hend.next.get]
  refine ⟨by rw [hat.get, hb], fun i hi => ?_, by rw [hlength, hend.get, hv], fun i hi => ?_⟩
  · have hget := hat.next.get_add (i := i) (by rw [List.length_append]; omega)
    rwa [List.getElem_append_left hi, Nat.zero_add, Nat.add_comm] at hget
  · have hback : s.last = t := by
      rw [← s.get_last, hsize]
      exact hlast
    rcases Nat.eq_or_lt_of_le hi with heq | hlt
    · rw [← heq, hlast, ht]
    · rw [s.get_of_size_le (by omega), hback, ht]

end Stream

/-- Tokens of expressions, alone and in a tag. -/
def Twin.ofTokens {alone tagged : Stream} {ts : List Token} (hts : ∀ t ∈ ts, t.kind.inExpression = true)
    (ha : alone.Holds ts) (ht : tagged.Interpolates ts) : Twin where
  alone := alone
  tagged := tagged
  count := ts.length
  same p hp := by rw [ht.get.2.1 p hp, ha.get hp]
  inner p hp := by
    rw [ha.get hp]
    exact hts _ (List.getElem_mem hp)
  alone_end p hp := by
    rcases Nat.eq_or_lt_of_le hp with heq | hlt
    · rw [← heq, ha.get_length]
    · rw [alone.get_of_size_le (by rw [ha.size]; omega), ha.last]
  tagged_begin := ht.get.1
  tagged_end := ht.get.2.2.1
  tagged_behind := ht.get.2.2.2

namespace Twin

theorem ofTokens_comma {alone tagged : Stream} {ts : List Token} (hts : ∀ t ∈ ts, t.kind.inExpression = true)
    (ha : alone.Holds ts) (ht : tagged.Interpolates ts) :
    (ofTokens hts ha ht).Comma ↔ ∃ t ∈ ts.getLast?, t.kind = .symbol .comma := by
  have hlast (i : Nat) (hi : ts.length = i + 1) : ts.getLast? = some (alone.get i) := by
    rw [List.getLast?_eq_getElem?, hi, Nat.add_sub_cancel, List.getElem?_eq_getElem (by omega), ha.get (by omega)]
  constructor
  · rintro ⟨i, hi, hk⟩
    exact ⟨_, hlast i hi, hk⟩
  · rintro ⟨t, ht, hk⟩
    have hpos : 0 < ts.length := by
      rw [List.length_pos_iff]
      rintro rfl
      cases ht
    have hlength : ts.length = ts.length - 1 + 1 := by omega
    rw [hlast _ hlength] at ht
    cases ht
    exact ⟨_, hlength, hk⟩

variable {m : Twin} {e : Expr}

theorem eq_count_of_eof {p : Nat} (hp : p ≤ m.count) (hk : (m.alone.get p).kind = .eof) : p = m.count := by
  refine Nat.le_antisymm hp (Nat.not_lt.1 fun hlt => ?_)
  have := m.inner p hlt
  rw [hk] at this
  cases this

theorem eq_count_of_variableEnd {p : Nat} (hk : (m.tagged.get p).kind = .variableEnd) : p = m.count + 1 := by
  rcases Nat.lt_trichotomy p (m.count + 1) with hlt | heq | hlt
  · cases p with
    | zero =>
      rw [m.tagged_begin] at hk
      cases hk
    | succ p =>
      have hp := Nat.lt_of_succ_lt_succ hlt
      have := m.inner p hp
      rw [← m.same p hp, hk] at this
      cases this
  · exact heq
  · rw [m.tagged_behind p hlt] at hk
    cases hk

theorem Agrees.le_of_ok {late : Prop} {α : Type} {x y : Parser α} {good : α → Nat → Prop} {p q : Nat} {a : α}
    (h : m.Agrees late x y p good) (hx : x m.alone p = .ok a q) : q ≤ m.count := by
  unfold Agrees at h
  rw [hx] at h
  cases hy : y m.tagged (p + 1) with
  | ok b r => rw [hy] at h; exact h.2.2.1
  | fail e r => rw [hy] at h; exact h.elim

/-- All tokens are read alone if and only if they are read in the tag, there are some, and no comma ends them. -/
theorem Agrees.alone_iff {x : Parser Expr}
    (h : m.Agrees (0 = m.count ∨ m.Comma) x x 0 fun _ q => 0 ≤ q ∧ 0 < m.count) :
    x m.alone 0 = .ok e m.count ↔ x m.tagged 1 = .ok e (m.count + 1) ∧ 0 < m.count ∧ ¬m.Comma := by
  unfold Agrees at h
  rw [Nat.zero_add] at h
  constructor
  · intro hx
    cases hy : x m.tagged 1 with
    | ok b r =>
      rw [hx, hy] at h
      obtain ⟨rfl, rfl, -, hclear, -, hpos⟩ := h
      exact ⟨rfl, hpos, fun hcomma => Nat.lt_irrefl _ (hclear hcomma hpos)⟩
    | fail e r => rw [hx, hy] at h; exact h.elim
  · rintro ⟨hy, hpos, hcomma⟩
    cases hx : x m.alone 0 with
    | ok a q =>
      rw [hx, hy] at h
      obtain ⟨rfl, hr, -⟩ := h
      rw [Nat.succ.inj hr]
    | fail e q =>
      rw [hx, hy] at h
      obtain ⟨hzero | hlast, -⟩ := h
      · omega
      · exact absurd hlast hcomma

/-- Alone, an expression is read up to the end of the source. -/
theorem wholeExpression_iff {g : Grammar} (h : ∀ q, g (.tuple (.expression true)) m.alone 0 = .ok e q → q ≤ m.count) :
    (∃ q, g.wholeExpression m.alone 0 = .ok e q) ↔ g (.tuple (.expression true)) m.alone 0 = .ok e m.count := by
  unfold Grammar.wholeExpression
  constructor
  · rintro ⟨q, hq⟩
    obtain ⟨a, r, ha, hr⟩ := Parser.bind_eq_ok.1 hq
    obtain ⟨t, i, ht, hi⟩ := Parser.bind_eq_ok.1 hr
    cases hi
    by_cases hk : (m.alone.get r).kind = .eof
    · rw [← eq_count_of_eof (h r ha) hk]
      exact ha
    · have hfail : Parser.expect .eof m.alone r = .fail _ r := if_neg hk
      rw [hfail] at ht
      cases ht
  · intro hx
    rw [Parser.bind_ok hx]
    exact ⟨m.count, Parser.expect_end (m.alone_end _ (Nat.le_refl _)) _⟩

/-- The tokens are read alone if and only if the tag is read, there are some, and no comma ends them. -/
theorem readings_agree (m : Twin) (find : Text → Option Extension) (hlast : m.alone.last.kind = .eof)
    (hsize : m.alone.tokens.size ≤ m.tagged.tokens.size) :
    (∀ t q, Grammar.ofExtensions find .template m.tagged 0 = .ok t q → ∃ e, t.body = [.output [e] e.span]) ∧
    ∀ e, (∃ q, (Grammar.ofExtensions find).wholeExpression m.alone 0 = .ok e q) ↔
      (∃ t q, Grammar.ofExtensions find .template m.tagged 0 = .ok t q ∧ t.body = [.output [e] e.span]) ∧
        0 < m.count ∧ ¬m.Comma := by
  obtain ⟨n, hn⟩ : ∃ n, Grammar.depth m.tagged = n + 3 :=
    ⟨Grammar.depth m.tagged - 3, by unfold Grammar.depth; omega⟩
  rw [Grammar.ofExtensions_apply, hn]
  -- alone, the expression is read as with the depth that the template leaves to it
  have halone : Grammar.ofExtensions find (.tuple (.expression true)) m.alone 0 =
      Grammar.run find (n + 1) (.tuple (.expression true)) m.alone 0 := by
    refine Grammar.ofExtensions_eq_run hlast rfl ?_
    unfold Grammar.depth at hn
    omega
  have htuple := Grammar.run_mirrors (m := m) find (n + 1) (.tuple (.expression true)) (Nat.zero_le _) rfl
  have hbehind (r : Nat) (hr : (m.tagged.get r).kind = .variableEnd) : (m.tagged.get (r + 1)).kind = .eof :=
    m.tagged_behind _ (Nat.succ_le_succ (Nat.le_of_eq (eq_count_of_variableEnd hr).symm))
  have htemplate {t : Template} {q : Nat} :=
    Grammar.template_of_interpolation find n m.tagged_begin hbehind (t := t) (q := q)
  refine ⟨fun t q h => ?_, fun e => ?_⟩
  · obtain ⟨e, -, -, -, -, rfl⟩ := htemplate.1 h
    exact ⟨e, rfl⟩
  · refine (wholeExpression_iff fun q hq => htuple.le_of_ok (halone.symm.trans hq)).trans ?_
    rw [halone]
    refine htuple.alone_iff.trans (and_congr_left fun _ => ⟨fun hy => ?_, ?_⟩)
    · exact ⟨_, _, htemplate.2 ⟨e, _, hy, m.tagged_end, rfl, rfl⟩, rfl⟩
    · rintro ⟨t, q, h, hbody⟩
      obtain ⟨e', r, he, hend, -, rfl⟩ := htemplate.1 h
      cases hbody
      rw [eq_count_of_variableEnd hend] at he
      exact he

end Twin

/-! ## Environments -/

namespace Environment

/-- The rule for an expression that stands alone and the template that interpolates it agree: the tokens of an
expression are read as a tree if and only if they are read between the begin and the end of a tag as an
interpolation of that tree, there are some, and no comma ends them. -/
theorem interpolation_agrees (env : Environment) {alone tagged : Stream} {ts : List Token}
    (hts : ∀ t ∈ ts, t.kind.inExpression = true) (ha : alone.Holds ts) (ht : tagged.Interpolates ts) :
    (∀ t q, env.grammar .template tagged 0 = .ok t q → ∃ e, t.body = [.output [e] e.span]) ∧
    ∀ e, (∃ q, env.grammar.wholeExpression alone 0 = .ok e q) ↔
      (∃ t q, env.grammar .template tagged 0 = .ok t q ∧ t.body = [.output [e] e.span]) ∧
        ts ≠ [] ∧ ∀ t ∈ ts.getLast?, t.kind ≠ .symbol .comma := by
  have hcomma : ¬(Twin.ofTokens hts ha ht).Comma ↔ ∀ t ∈ ts.getLast?, t.kind ≠ .symbol .comma := by
    rw [Twin.ofTokens_comma]
    exact ⟨fun h t hlast hk => h ⟨t, hlast, hk⟩, fun h ⟨t, hlast, hk⟩ => h t hlast hk⟩
  have hsize : alone.tokens.size ≤ tagged.tokens.size := by rw [ha.size, ht.size]; omega
  obtain ⟨hinterpolates, hagrees⟩ :=
    (Twin.ofTokens hts ha ht).readings_agree (Extension.find? env.extensions) ha.last hsize
  refine ⟨hinterpolates, fun e => ?_⟩
  refine (hagrees e).trans (and_congr_right fun _ => and_congr List.length_pos_iff hcomma)

end Environment

/-! ## Fixed tokens -/

/-- The stream of tokens between the begin and the end of a tag, with the end behind them. -/
def Stream.interpolating (ts : List Token) : Stream :=
  ⟨(Token.of .variableBegin :: (ts ++ [Token.of .variableEnd, Token.of .eof])).toArray, by simp, none, .standard⟩

theorem Stream.interpolating_interpolates (ts : List Token) : (interpolating ts).Interpolates ts :=
  ⟨_, _, _, rfl, rfl, rfl, List.toList_toArray⟩

namespace Environment

/-- A tuple without parentheses is read alone and in a tag. -/
theorem interpolation_agrees_on_tuple :
    let ts := [Token.named (Text.ofString "a"), .of (.symbol .comma), .named (Text.ofString "b")]
    (∀ t ∈ ts, t.kind.inExpression = true) ∧ (Stream.holding ts).Holds ts ∧ (Stream.interpolating ts).Interpolates ts ∧
      ∃ e, (∃ q, standard.grammar.wholeExpression (.holding ts) 0 = .ok e q) ∧
        ∃ t q, standard.grammar .template (.interpolating ts) 0 = .ok t q ∧ t.body = [.output [e] e.span] := by
  intro ts
  have hts : ∀ t ∈ ts, t.kind.inExpression = true := by decide
  have hread : (match standard.grammar.wholeExpression (.holding ts) 0 with
      | .ok _ _ => true
      | .fail _ _ => false) = true := by decide +kernel
  refine ⟨hts, Stream.holding_holds ts, Stream.interpolating_interpolates ts, ?_⟩
  cases he : standard.grammar.wholeExpression (.holding ts) 0 with
  | ok e q =>
    have hagrees := interpolation_agrees standard hts (Stream.holding_holds ts) (Stream.interpolating_interpolates ts)
    exact ⟨e, ⟨q, rfl⟩, ((hagrees.2 e).1 ⟨q, he⟩).1⟩
  | fail e q =>
    rw [he] at hread
    cases hread

/-- A tuple of one item, which a comma makes it, is read in a tag but not alone. -/
theorem trailing_comma_in_tag_only :
    let ts := [Token.named (Text.ofString "a"), .of (.symbol .comma)]
    (∃ t q, standard.grammar .template (.interpolating ts) 0 = .ok t q) ∧
      ∀ e q, standard.grammar.wholeExpression (.holding ts) 0 ≠ .ok e q := by
  intro ts
  constructor
  · have hread : (match standard.grammar .template (.interpolating ts) 0 with
        | .ok _ _ => true
        | .fail _ _ => false) = true := by decide +kernel
    cases ht : standard.grammar .template (.interpolating ts) 0 with
    | ok t q => exact ⟨t, q, rfl⟩
    | fail e q =>
      rw [ht] at hread
      cases hread
  · intro e q h
    have hrefused : (match standard.grammar.wholeExpression (.holding ts) 0 with
        | .ok _ _ => false
        | .fail _ _ => true) = true := by decide +kernel
    rw [h] at hrefused
    cases hrefused

end Environment

end Stencil
