/-
The hints at unclosed brackets never come up. A hint stands at the end of a message, before the place, so the
message of a mistake tells whether it has one; a mistake that blames no bracket ends in other words
(`Diagnostic.BlamesNoBracket.not_hints`). Where a closer is missing, the scan has found the tag to be unclosed
before any token is read (`brackets_closed_at_tag_ends`).
-/
import Stencil.Proofs.Brackets.Reading
import Stencil.Proofs.Safety.Examine
import Stencil.Proofs.Span.Reading

namespace Stencil

/-- The message gives a hint before the place. -/
def Diagnostic.Hints (d : Diagnostic) (hint : Text) : Prop :=
  ∃ m l, d.location = some l ∧ d.message = m ++ hint ++ Diagnostic.placeText l

/-! ## What messages end in -/

/-- What the messages for unexpected tokens end in, the hints at unclosed brackets apart. -/
def Token.lastWords : List Text :=
  [TokenKind.data.describe, TokenKind.variableBegin.describe, TokenKind.variableEnd.describe,
    TokenKind.blockBegin.describe, TokenKind.blockEnd.describe, TokenKind.string.describe, TokenKind.integer.describe,
    TokenKind.float.describe, TokenKind.eof.describe, [Text.singleQuote], " tag"]

theorem Token.describe_ends (t : Token) : ∃ w ∈ lastWords, w <:+ t.describe := by
  have quoted (v : Text) : [Text.singleQuote] <:+ TokenKind.quoted v := ⟨Text.singleQuote :: v, rfl⟩
  have hquote : [Text.singleQuote] ∈ lastWords := by decide
  unfold describe
  split
  · exact ⟨_, hquote, quoted _⟩
  · rename_i hname
    cases hk : t.kind with
    | symbol x => exact ⟨_, hquote, quoted _⟩
    | keyword k => exact ⟨_, hquote, quoted _⟩
    | other l => exact ⟨_, hquote, quoted _⟩
    | name => exact absurd hk hname
    | _ => exact ⟨_, by decide, List.suffix_rfl⟩

namespace Stream

/-- The hints at unclosed brackets. -/
def unclosedHints : List Text :=
  [TokenKind.symbol .closeParen, .symbol .closeBracket, .symbol .closeBrace].filterMap unclosedHint?

theorem mem_unclosedHints {k : TokenKind} {h : Text} (hk : unclosedHint? k = some h) : h ∈ unclosedHints := by
  unfold unclosedHint? at hk
  split at hk <;> cases hk <;> decide

theorem unclosedHints_apart : ∀ h ∈ unclosedHints, ∀ w ∈ Token.lastWords, ¬h <:+ w ∧ ¬w <:+ h := by decide +kernel

/-- No message ends in a hint at an unclosed bracket and in other last words at once. -/
theorem unclosedHint?_apart {k : TokenKind} {h w m : Text} (hk : unclosedHint? k = some h)
    (hw : w ∈ Token.lastWords) (hh : h <:+ m) : ¬w <:+ m := by
  intro hwm
  obtain ⟨h1, h2⟩ := unclosedHints_apart h (mem_unclosedHints hk) w hw
  exact (List.suffix_or_suffix_of_suffix hh hwm).elim h1 h2

end Stream

theorem Message.render_unexpected_ends (expected actual : Text) :
    actual <:+ render ErrorId.unexpectedToken.definition.messageTemplate
      [("expected", .string expected), ("actual", .string actual)] := by
  have hpieces : pieces? ErrorId.unexpectedToken.definition.messageTemplate =
      some ((Text.ofString "Expected ").map .unit ++ .value "expected" :: (Text.ofString ", got ").map .unit ++
        [.value "actual"]) := by decide +kernel
  unfold render fill
  rw [hpieces]
  simp only [List.flatMap_append, List.flatMap_singleton]
  exact List.suffix_append ..

namespace Stream

variable {s : Stream} {pos : Nat} {kinds : List TokenKind} {text : Option Text} {h : Text}

/-- The message for an unexpected token ends in the token, or in a hint, before the place. -/
theorem unexpected_message (s : Stream) (pos : Nat) (kinds : List TokenKind) (text : Option Text) :
    ∃ m, (s.unexpected pos kinds text).message = m ++ Diagnostic.placeText (s.get pos).span.start ∧
      (hint? kinds (s.get pos).kind = none → (s.get pos).describe <:+ m) ∧
      ∀ h, hint? kinds (s.get pos).kind = some h → h <:+ m := by
  refine ⟨_, rfl, fun hnone => ?_, fun h hsome => ?_⟩
  · rw [hnone, List.append_nil]
    exact Message.render_unexpected_ends ..
  · rw [hsome]
    exact List.suffix_append_of_suffix (List.suffix_append ..)

/-- A hint that blames no bracket is about the tag that is missing. -/
theorem hint?_ends {k : TokenKind} (hkinds : endsTag k = true → ∀ k ∈ kinds, unclosedHint? k = none)
    (hh : hint? kinds k = some h) : (" tag" : Text) <:+ h := by
  have hnone : (if endsTag k then kinds.findSome? unclosedHint? else none) = none := by
    split
    · rename_i hend
      exact List.findSome?_eq_none_iff.2 (hkinds hend)
    · rfl
  unfold hint? at hh
  rw [hnone] at hh
  simp only at hh
  split at hh
  · cases hh
    exact List.suffix_append_of_suffix List.suffix_rfl
  · cases hh

/-- Where a tag ends, the hint at a closer that was expected is one at an unclosed bracket. -/
theorem hint?_unclosed {k k' : TokenKind} (hend : endsTag k = true) (hk : k' ∈ kinds)
    (hne : unclosedHint? k' ≠ none) : ∃ k'' h, unclosedHint? k'' = some h ∧ hint? kinds k = some h := by
  cases hfind : kinds.findSome? unclosedHint? with
  | none => exact absurd (List.findSome?_eq_none_iff.1 hfind k' hk) hne
  | some h =>
    obtain ⟨_, k'', _, _, hk'', _⟩ := List.findSome?_eq_some_iff.1 hfind
    refine ⟨k'', h, hk'', ?_⟩
    unfold hint?
    rw [if_pos hend, hfind]

end Stream

namespace Diagnostic

variable {s : Stream} {d : Diagnostic} {k : TokenKind} {h : Text}

/-- A mistake that blames no bracket gives no hint at one. -/
theorem BlamesNoBracket.not_hints (hd : d.BlamesNoBracket s) (hid : d.id = .unexpectedToken)
    (hk : Stream.unclosedHint? k = some h) : ¬d.Hints h := by
  rintro ⟨m, l, hl, hm⟩
  obtain ⟨pos, kinds, text, rfl, hkinds⟩ := hd hid
  obtain ⟨m', hm', hplain, hhint⟩ := s.unexpected_message pos kinds text
  obtain rfl : (s.get pos).span.start = l := Option.some.inj hl
  have hends : h <:+ m' := ⟨m, List.append_cancel_right (hm.symm.trans hm')⟩
  cases hh : Stream.hint? kinds (s.get pos).kind with
  | none =>
    obtain ⟨w, hw, hdescribe⟩ := (s.get pos).describe_ends
    exact Stream.unclosedHint?_apart hk hw hends (hdescribe.trans (hplain hh))
  | some h' =>
    exact Stream.unclosedHint?_apart hk (by decide) hends ((Stream.hint?_ends hkinds hh).trans (hhint h' hh))

/-- A closer that is expected where a tag ends comes with a hint. -/
theorem hints_of_unexpected {pos : Nat} {kinds : List TokenKind} (text : Option Text)
    (hend : Stream.endsTag (s.get pos).kind = true) (hk : k ∈ kinds) (hne : Stream.unclosedHint? k ≠ none) :
    ∃ k' h, Stream.unclosedHint? k' = some h ∧ (s.unexpected pos kinds text).Hints h := by
  obtain ⟨k', h, hk', hh⟩ := Stream.hint?_unclosed hend hk hne
  obtain ⟨m, hm, -, hhint⟩ := s.unexpected_message pos kinds text
  obtain ⟨m', rfl⟩ := hhint h hh
  exact ⟨k', h, hk', m', _, rfl, hm⟩

end Diagnostic

/-! ## Templates -/

namespace Environment

variable {env : Environment} {filename : Option Text} {source : Text}

/-- Where a tag of a source ends, no closer is awaited. -/
theorem awaited_at_tag_end {s : Stream} (h : env.tokens filename source = .ok s.tokens.toList) {i : Nat}
    (hend : Stream.endsTag (s.get i).kind = true) : s.awaited i = [] := by
  refine (Scan.tokensFrom_continues env.isSound h).awaited_eq_nil ?_
  cases hk : (s.get i).kind <;> first | rfl | (rw [hk] at hend; cases hend)

/-- The mistake that a template ends with blames no bracket. -/
theorem readTemplate_blames (hb : env.IsBuiltin) {d : Diagnostic}
    (h : env.readTemplate filename source = .error (.reported d)) (hid : d.id = .unexpectedToken) :
    ∃ s : Stream, d.BlamesNoBracket s := by
  have hread : env.readTokens filename (env.grammar .template) (env.tokens filename source) =
      .error (.reported d) := by
    unfold readTemplate at h
    cases hx : env.readTokens filename (env.grammar .template) (env.tokens filename source) with
    | ok t => rw [hx] at h; cases h
    | error e => rw [hx] at h; exact congrArg _ (Except.error.inj h)
  cases hts : env.tokens filename source with
  | error d' =>
    -- a mistake in a token is of another kind
    rw [hts] at hread
    obtain rfl : d' = d := by cases hread; rfl
    have hof : d'.Of .lexer := Scan.tokensFrom_error env.isSound hts
    have hcategory := hof.2
    rw [hid] at hcategory
    cases hcategory
  | ok ts =>
    have hne : ts ≠ [] := by
      rintro rfl
      exact tokens_isPieces hts
    rw [hts] at hread
    obtain ⟨s, rfl, -, -, herror⟩ := env.readTokens_eq filename (env.grammar .template) hne
    obtain ⟨q, hq⟩ := herror _ hread
    let c : Enclosure := ⟨s, 0, fun i => awaited_at_tag_end hts⟩
    have hreads : c.Reads env.grammar env.grammar .template 0 :=
      Grammar.ofExtensions_levels hb.levelTags .template trivial
    have houtcome := hreads.2.2
    rw [show env.grammar .template (c.enter 0).stream 0 = .fail (.reported d) q from hq] at houtcome
    exact ⟨s, houtcome⟩

/-- A reading of a template and the scan of its tokens agree on the brackets that are open, and where the reading
comes by the end of a tag there are none. So no mistake blames a bracket: none gives the hint that one is
unclosed, and at no end of a tag a closer was expected. -/
theorem brackets_closed_at_tag_ends (env : Environment) (hb : env.IsBuiltin) (filename : Option Text)
    (source : Text) :
    (∀ s : Stream, env.tokens filename source = .ok s.tokens.toList →
      ∀ ⦃p : Phrase⦄ (r : Rule p) (pos : Nat) (os : List Nat),
        Grammar.Reaches (Extension.find? env.extensions) env.grammar s r pos os →
          s.OpenedBy os (s.awaited pos) ∧
          ∀ i, pos ≤ i → i ≤ (env.grammar r s pos).pos → Stream.endsTag (s.get i).kind = true → os = []) ∧
    ∀ d, env.readTemplate filename source = .error (.reported d) →
      (d.id = .unexpectedToken → ∀ k h, Stream.unclosedHint? k = some h → ¬d.Hints h) ∧
      ∀ (s : Stream) pos kinds text, d = s.unexpected pos kinds text → Stream.endsTag (s.get pos).kind = true →
        ∀ k ∈ kinds, Stream.unclosedHint? k = none := by
  constructor
  · intro s hts p r pos os hreaches
    have hclosed (i : Nat) (hend : Stream.endsTag (s.get i).kind = true) : s.awaited i = [] :=
      awaited_at_tag_end hts hend
    exact ⟨(hreaches.awaits hb.levelTags hclosed).2, fun i => hreaches.none_open hb.levelTags hclosed⟩
  · intro d hd
    have hhints (hid : d.id = .unexpectedToken) (k : TokenKind) (h : Text) (hk : Stream.unclosedHint? k = some h) :
        ¬d.Hints h := by
      obtain ⟨s, hblames⟩ := readTemplate_blames hb hd hid
      exact hblames.not_hints hid hk
    refine ⟨hhints, fun s pos kinds text heq hend k hk => ?_⟩
    by_contra hne
    obtain ⟨k', h, hk', hh⟩ := Diagnostic.hints_of_unexpected text hend hk hne
    rw [← heq] at hh
    exact hhints (by rw [heq]; rfl) k' h hk' hh

/-- Two parentheses are open where their tuple is read; a name stands where they should close. -/
theorem brackets_closed_at_tag_ends_parens :
    let source : Text := "\x7b\x7b ((a b)) \x7d\x7d"
    withLoopControls.IsBuiltin ∧
    (∃ s : Stream, withLoopControls.tokens none source = .ok s.tokens.toList ∧
      Grammar.Reaches (Extension.find? withLoopControls.extensions) withLoopControls.grammar s
        (.tuple (.expression true)) 3 [2, 1] ∧
      s.OpenedBy [2, 1] (s.awaited 3) ∧
      ∀ i, 3 ≤ i → i ≤ (withLoopControls.grammar (.tuple (.expression true)) s 3).pos →
        Stream.endsTag (s.get i).kind ≠ true) ∧
    ∃ d, withLoopControls.readTemplate none source = .error (.reported d) ∧ d.id = .unexpectedToken ∧
      ∀ k h, Stream.unclosedHint? k = some h → ¬d.Hints h := by
  intro source
  have hb := withLoopControls_isBuiltin
  refine ⟨hb, ?_, ?_⟩
  · have hscan : (Scan.tokensWithin withLoopControls.delimiters none 14 ⟨.outside, .origin, source⟩).any
        (fun scan => scan.toOption.any fun ts => decide ((ts.take 3).map Token.kind =
          [.variableBegin, .symbol .openParen, .symbol .openParen])) = true := by decide +kernel
    obtain ⟨scan, hwithin, hscan⟩ := (Option.any_eq_true ..).1 hscan
    cases scan with
    | error e => cases hscan
    | ok ts =>
      have hts : withLoopControls.tokens none source = .ok ts :=
        Scan.tokensFrom_of_within withLoopControls.isSound (by decide +kernel) hwithin
      have hkinds : (ts.take 3).map Token.kind = [.variableBegin, .symbol .openParen, .symbol .openParen] :=
        of_decide_eq_true hscan
      rcases ts with _ | ⟨a, _ | ⟨b, _ | ⟨c, us⟩⟩⟩
      · simp at hkinds
      · simp at hkinds
      · simp at hkinds
      obtain ⟨ha, hkinds⟩ := List.cons.inj hkinds
      obtain ⟨hb', hkinds⟩ := List.cons.inj hkinds
      obtain ⟨hc, -⟩ := List.cons.inj hkinds
      let s : Stream := ⟨(a :: b :: c :: us).toArray, Nat.succ_pos _, none, .standard⟩
      have hreaches : Grammar.Reaches (Extension.find? withLoopControls.extensions) withLoopControls.grammar s
          (.tuple (.expression true)) 3 [2, 1] :=
        ((Grammar.Reaches.interpolation (s := s) ha).in_parens hb').in_parens hc
      obtain ⟨hopen, hnone⟩ := (withLoopControls.brackets_closed_at_tag_ends hb none source).1 s hts _ 3 _ hreaches
      exact ⟨s, hts, hreaches, hopen, fun i hle hi hend => List.cons_ne_nil _ _ (hnone i hle hi hend)⟩
  · have hread := withLoopControls.readTemplate_of_counted none source (fun
      | .error (.reported d) => decide (d.id = .unexpectedToken)
      | _ => false) (by decide +kernel)
    clear_value source
    cases hdoc : withLoopControls.readTemplate none source with
    | ok doc => rw [hdoc] at hread; cases hread
    | error e =>
      rw [hdoc] at hread
      cases e with
      | fault f => cases hread
      | reported d =>
        have hid : d.id = .unexpectedToken := of_decide_eq_true hread
        exact ⟨d, rfl, hid, ((withLoopControls.brackets_closed_at_tag_ends hb none source).2 d hdoc).1 hid⟩

end Environment
end Stencil
