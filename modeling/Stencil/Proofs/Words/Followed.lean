/-
Scanning a template with a start delimiter behind it. No token, comment or raw block that ends in a text depends on
what stands behind the text, if that begins with a brace: every step of the scan is the same with it
(`step_followed`), and where the text ends the scan goes on with what stands behind (`tokensFrom_followed`). A text
that ends in a brace itself would begin another delimiter with the one behind it.
-/
import Stencil.Proofs.Layout.Basic
import Stencil.Proofs.Words.Behind
import Stencil.Proofs.Words.Segment

namespace Stencil

variable {t x : Text}

/-! ## Delimiters -/

namespace Delimiters

theorem afterBlanks_followed {close : Text} (hclose : Text.unit '\x7b' ∉ close) (t x : Text) :
    afterBlanks close (t ++ Text.unit '\x7b' :: x) = (afterBlanks close t).map (· ++ Text.unit '\x7b' :: x) := by
  induction t with
  | nil =>
    have hbrace : ¬Text.isBlank (Text.unit '\x7b') = true := by decide
    have hhere : afterBlanks close (Text.unit '\x7b' :: x) = Text.after? close (Text.unit '\x7b' :: x) := by
      rw [afterBlanks, if_neg hbrace]
    rw [List.nil_append, hhere]
    exact Text.after?_followed hclose [] x
  | cons c t ih =>
    rw [List.cons_append, afterBlanks, afterBlanks, ih, ← List.cons_append, Text.after?_followed hclose]
    by_cases hc : Text.isBlank c = true
    · rw [if_pos hc, if_pos hc]
      cases afterBlanks close t <;> rfl
    · rw [if_neg hc, if_neg hc]

theorem afterWordTag_followed {word : Text} (hword : Text.unit '\x7b' ∉ word) (ht : t ≠ []) (x : Text) :
    standard.afterWordTag word (t ++ Text.unit '\x7b' :: x) =
      (standard.afterWordTag word t).map (· ++ Text.unit '\x7b' :: x) := by
  have hstart : Text.unit '\x7b' ∉ standard.blockStart.tail := by decide
  have hclose : Text.unit '\x7b' ∉ standard.blockEnd := by decide
  have hblank : Text.isBlank (Text.unit '\x7b') = false := by decide
  unfold afterWordTag
  rw [Text.after?_followed_of_ne_nil hstart ht]
  cases Text.after? standard.blockStart t with
  | none => rfl
  | some u =>
    simp only [Option.map_some, dropWhile_followed hblank, Text.after?_followed hword]
    cases Text.after? word (u.dropWhile Text.isBlank) with
    | none => rfl
    | some v => exact afterBlanks_followed hclose v x

theorem splitRaw_followed {b r : Text} (h : standard.splitRaw t = some (b, r)) (x : Text) :
    standard.splitRaw (t ++ Text.unit '\x7b' :: x) = some (b, r ++ Text.unit '\x7b' :: x) := by
  induction t generalizing b with
  | nil => cases h
  | cons c t ih =>
    have hword : Text.unit '\x7b' ∉ endRawWord := by decide
    have hhere := afterWordTag_followed hword (List.cons_ne_nil c t) x
    rw [splitRaw] at h
    rw [List.cons_append, splitRaw, ← List.cons_append, hhere]
    cases ha : standard.afterWordTag endRawWord (c :: t) with
    | some r' =>
      rw [ha] at h
      cases h
      rfl
    | none =>
      rw [ha] at h
      simp only [Option.map_eq_some_iff, Prod.mk.injEq] at h
      obtain ⟨⟨b', r'⟩, hrest, rfl, rfl⟩ := h
      rw [Option.map_none]
      simp only [ih hrest]
      rfl

/-- Only a brace at the end of a text could begin a delimiter with the one behind it. -/
theorem opener?_followed (ht : t ≠ []) (hend : t.getLast? ≠ some (Text.unit '\x7b')) (x : Text) :
    standard.opener? (t ++ Text.unit '\x7b' :: x) = standard.opener? t := by
  obtain ⟨c, t, rfl⟩ := List.exists_cons_of_ne_nil ht
  -- every start delimiter is a brace and another unit, and the brace is not the last unit of the text
  have hlead (u : CodeUnit) : Text.startsWith (c :: t ++ Text.unit '\x7b' :: x) [Text.unit '\x7b', u] =
      Text.startsWith (c :: t) [Text.unit '\x7b', u] := by
    unfold Text.startsWith
    rw [List.cons_append, Text.after?, Text.after?]
    by_cases hc : Text.unit '\x7b' = c
    · have hne : t ≠ [] := by
        rintro rfl
        exact hend (congrArg some hc.symm)
      rw [if_pos hc, if_pos hc, Text.after?_followed_of_ne_nil (List.not_mem_nil) hne, Option.isSome_map]
    · rw [if_neg hc, if_neg hc]
  have hstart (o : Opener) : Text.startsWith (c :: t ++ Text.unit '\x7b' :: x) (standard.start o) =
      Text.startsWith (c :: t) (standard.start o) := by
    cases o <;> exact hlead _
  unfold opener?
  simp only [hstart]

theorem splitData_followed (hend : t.getLast? ≠ some (Text.unit '\x7b'))
    (hx : (standard.opener? (Text.unit '\x7b' :: x)).isSome = true) :
    standard.splitData (t ++ Text.unit '\x7b' :: x) =
      ((standard.splitData t).1, (standard.splitData t).2 ++ Text.unit '\x7b' :: x) := by
  induction t with
  | nil => exact if_pos hx
  | cons c t ih =>
    have hhere := opener?_followed (List.cons_ne_nil c t) hend x
    rw [List.cons_append] at hhere
    rw [List.cons_append, splitData, splitData, hhere]
    by_cases ho : (standard.opener? (c :: t)).isSome = true
    · rw [if_pos ho, if_pos ho]
      rfl
    · have hend' : t.getLast? ≠ some (Text.unit '\x7b') := by
        intro h
        rw [List.getLast?_cons, h] at hend
        exact hend rfl
      rw [if_neg ho, if_neg ho, ih hend']

end Delimiters

/-! ## Steps -/

namespace Scan

/-- The state with a text behind the one that is left. -/
def State.followed (y : Text) (s : State) : State := { s with rest := s.rest ++ y }

def Step.followed (y : Text) (r : Step) : Step := { r with next := r.next.map (State.followed y) }

/-- A template is read, not an expression that stands alone. -/
def Mode.inTemplate : Mode → Bool
  | .bare _ => false
  | _ => true

variable {filename : Option Text} {place : Location} {rest : Text} {r : Step} {s : State}

/-! What comes behind a step: the scan of a template goes on with one, or has read the data at the end. -/

section

variable {d : Delimiters}

theorem openerStep_next {o : Delimiters.Opener} (h : openerStep d filename place rest (some o) = .ok r) :
    ∃ s', r.next = some s' ∧ s'.mode.inTemplate = true := by
  cases o with
  | interpolation => cases h; exact ⟨_, rfl, rfl⟩
  | comment =>
    simp only [openerStep] at h
    split at h
    · cases h; exact ⟨_, rfl, rfl⟩
    · cases h
  | block =>
    simp only [openerStep] at h
    split at h
    · split at h
      · cases h; exact ⟨_, rfl, rfl⟩
      · cases h
    · cases h; exact ⟨_, rfl, rfl⟩

theorem lexemeStep_next {mode : TokenKind → Mode} {afterDot : Bool} (hmode : ∀ k, (mode k).inTemplate = true)
    (h : lexemeStep filename mode afterDot place rest = .ok r) : ∃ s', r.next = some s' ∧ s'.mode.inTemplate = true := by
  unfold lexemeStep at h
  split at h
  · cases h
    exact ⟨_, rfl, hmode _⟩
  · cases h

theorem step_next (hs : s.mode.inTemplate = true) (h : s.step d filename = .ok r) :
    (∃ s', r.next = some s' ∧ s'.mode.inTemplate = true) ∨
      s.mode = .outside ∧ d.splitData s.rest = (s.rest, []) ∧
        r = ⟨dataTokens s.place s.rest ++ [Token.atEnd (s.place.after s.rest)], none⟩ := by
  obtain ⟨mode, place, rest⟩ := s
  cases mode with
  | bare => cases hs
  | outside =>
    have happ := d.splitData_append rest
    have hbehind := opener?_splitData d rest
    simp only [State.step] at h ⊢
    generalize d.splitData rest = split at h happ hbehind ⊢
    obtain ⟨data, behind⟩ := split
    simp only at h happ hbehind ⊢
    cases ho : d.opener? behind with
    | none =>
      rw [ho] at h hbehind
      obtain rfl : behind = [] := hbehind.resolve_right Bool.false_ne_true
      rw [List.append_nil] at happ
      cases h
      rw [happ]
      exact .inr ⟨trivial, rfl, rfl⟩
    | some o =>
      rw [ho] at h
      cases hopener : openerStep d filename (place.after data) behind (some o) with
      | error e => rw [hopener] at h; cases h
      | ok r' =>
        rw [hopener] at h
        cases h
        obtain ⟨s', hs', hmode⟩ := openerStep_next hopener
        exact .inl ⟨s', hs', hmode⟩
  | inside tag opened closers afterDot =>
    refine .inl ?_
    simp only [State.step] at h
    split at h
    · cases h
    · split at h
      · cases h; exact ⟨_, rfl, rfl⟩
      · exact lexemeStep_next (fun _ => rfl) h

end

/-! The same step with more behind. -/

theorem take_followed {kind : TokenKind} {value written : Text} {mode : Mode} (h : written.length ≤ rest.length)
    (y : Text) :
    take kind value written mode place (rest ++ y) = (take kind value written mode place rest).followed y := by
  unfold take Step.followed State.followed
  simp only [Option.map_some, List.drop_append_of_le_length h]

theorem upTo_followed (l : Location) (text rest y : Text) : l.upTo (text ++ y) (rest ++ y) = l.upTo text rest := by
  have hlength : (text ++ y).length - (rest ++ y).length = text.length - rest.length := by
    simp only [List.length_append]
    omega
  unfold Location.upTo
  rw [hlength, List.take_append_of_le_length (Nat.sub_le ..)]

theorem lexemeStep_followed {mode : TokenKind → Mode} {afterDot : Bool}
    (h : lexemeStep filename mode afterDot place rest = .ok r) (x : Text) :
    lexemeStep filename mode afterDot place (rest ++ Text.unit '\x7b' :: x) =
      .ok (r.followed (Text.unit '\x7b' :: x)) := by
  unfold lexemeStep at h ⊢
  cases hl : Lexeme.read afterDot rest with
  | error e => rw [hl] at h; cases h
  | ok l =>
    rw [hl] at h
    cases h
    obtain ⟨u, hu⟩ := Lexeme.read_written hl
    rw [Lexeme.read_followed Lexeme.apart_openBrace hl]
    refine congrArg Except.ok (take_followed ?_ _)
    rw [hu, List.length_append]
    exact Nat.le_add_right ..

theorem openerStep_followed {o : Delimiters.Opener} (ho : Delimiters.standard.opener? rest = some o)
    (h : openerStep .standard filename place rest (some o) = .ok r) (x : Text) :
    openerStep .standard filename place (rest ++ Text.unit '\x7b' :: x) (some o) =
      .ok (r.followed (Text.unit '\x7b' :: x)) := by
  obtain ⟨u, hu⟩ := Text.startsWith_iff.1 (Delimiters.startsWith_of_opener? ho)
  have hlength : (Delimiters.standard.start o).length ≤ rest.length := by
    rw [hu, List.length_append]
    exact Nat.le_add_right ..
  have hne : rest ≠ [] := by
    rintro rfl
    cases o <;> cases hu
  cases o with
  | interpolation =>
    cases h
    exact congrArg Except.ok (take_followed hlength _)
  | comment =>
    have hmark : Text.unit '\x7b' ∉ Delimiters.standard.commentEnd := by decide
    have hdrop : (rest ++ Text.unit '\x7b' :: x).drop Delimiters.standard.commentStart.length =
        rest.drop Delimiters.standard.commentStart.length ++ Text.unit '\x7b' :: x :=
      List.drop_append_of_le_length hlength
    simp only [openerStep] at h ⊢
    rw [hdrop]
    cases hsplit : Text.splitAtFirst Delimiters.standard.commentEnd
        (rest.drop Delimiters.standard.commentStart.length) with
    | none => rw [hsplit] at h; cases h
    | some br =>
      rw [hsplit] at h
      cases h
      simp only [Text.splitAtFirst_followed hmark hsplit, upTo_followed]
      rfl
  | block =>
    simp only [openerStep] at h ⊢
    rw [Delimiters.afterWordTag_followed (by decide) hne]
    cases hraw : Delimiters.standard.afterWordTag Delimiters.rawWord rest with
    | none =>
      rw [hraw] at h
      cases h
      exact congrArg Except.ok (take_followed hlength _)
    | some inner =>
      simp only [hraw] at h
      cases hsplit : Delimiters.standard.splitRaw inner with
      | none => rw [hsplit] at h; cases h
      | some br =>
        rw [hsplit] at h
        cases h
        simp only [Option.map_some, Delimiters.splitRaw_followed hsplit, upTo_followed]
        rfl

/-- A text that does not end in a brace has no end that does. -/
theorem getLast?_ne_of_suffix {w : Text} (h : (w ++ rest).getLast? ≠ some (Text.unit '\x7b')) :
    rest.getLast? ≠ some (Text.unit '\x7b') := by
  intro hrest
  rw [List.getLast?_append, hrest] at h
  exact h rfl

variable {x : Text}

/-- A step that is not the last one is the same with a start delimiter behind the text. -/
theorem step_followed (hs : s.mode.inTemplate = true) (hend : s.rest.getLast? ≠ some (Text.unit '\x7b'))
    (hx : (Delimiters.standard.opener? (Text.unit '\x7b' :: x)).isSome = true)
    (h : s.step .standard filename = .ok r) (hn : r.next ≠ none) :
    (s.followed (Text.unit '\x7b' :: x)).step .standard filename = .ok (r.followed (Text.unit '\x7b' :: x)) := by
  obtain ⟨mode, place, rest⟩ := s
  cases mode with
  | bare => cases hs
  | outside =>
    have happ := Delimiters.standard.splitData_append rest
    simp only [State.step, State.followed, Delimiters.splitData_followed hend hx] at h ⊢
    generalize Delimiters.standard.splitData rest = split at h happ ⊢
    obtain ⟨data, behind⟩ := split
    simp only at h happ ⊢
    rw [← happ] at hend
    cases ho : Delimiters.standard.opener? behind with
    | none =>
      rw [ho] at h
      cases h
      exact absurd rfl hn
    | some o =>
      have hne : behind ≠ [] := by
        rintro rfl
        cases ho
      rw [ho] at h
      rw [Delimiters.opener?_followed hne (getLast?_ne_of_suffix hend), ho]
      cases hopener : openerStep .standard filename (place.after data) behind (some o) with
      | error e => rw [hopener] at h; cases h
      | ok r' =>
        rw [hopener] at h
        cases h
        rw [openerStep_followed ho hopener]
        rfl
  | inside tag opened closers afterDot =>
    have hclose : Text.unit '\x7b' ∉ (tag.close .standard).tail := by cases tag <;> decide
    have hspacing : Text.isSpacing (Text.unit '\x7b') = false := by decide
    simp only [State.step, State.followed, takeWhile_followed hspacing, dropWhile_followed hspacing] at h ⊢
    generalize rest.dropWhile Text.isSpacing = behind at h ⊢
    by_cases hne : behind = []
    · rw [if_pos hne] at h
      cases h
    · rw [if_neg hne] at h
      rw [if_neg (List.append_ne_nil_of_left_ne_nil hne _), Text.startsWith_followed hclose hne]
      by_cases hc : closers = [] ∧ Text.startsWith behind (tag.close .standard) = true
      · rw [if_pos hc] at h ⊢
        cases h
        obtain ⟨u, hu⟩ := Text.startsWith_iff.1 hc.2
        refine congrArg Except.ok (take_followed ?_ _)
        rw [hu, List.length_append]
        exact Nat.le_add_right ..
      · rw [if_neg hc] at h ⊢
        exact lexemeStep_followed h x

/-- Where the text ends the scan goes on with the start delimiter, behind the data that is left. -/
theorem step_followed_last (hs : s.mode = .outside) (hdata : Delimiters.standard.splitData s.rest = (s.rest, []))
    (hend : s.rest.getLast? ≠ some (Text.unit '\x7b'))
    (hx : (Delimiters.standard.opener? (Text.unit '\x7b' :: x)).isSome = true) :
    (s.followed (Text.unit '\x7b' :: x)).step .standard filename =
      (State.step .standard filename ⟨.outside, s.place.after s.rest, Text.unit '\x7b' :: x⟩).map
        fun r => { r with tokens := dataTokens s.place s.rest ++ r.tokens } := by
  obtain ⟨mode, place, rest⟩ := s
  obtain rfl : mode = .outside := hs
  obtain ⟨o, ho⟩ := Option.isSome_iff_exists.1 hx
  rw [step_opener filename ho]
  simp only [State.step, State.followed, Delimiters.splitData_followed hend hx, hdata, List.nil_append, ho]

/-! ## All steps -/

/-- A scan that succeeds gives the same tokens with a start delimiter behind, and then those from there on. -/
theorem tokensFrom_followed (hd : Delimiters.standard.Sound) (hs : s.mode.inTemplate = true)
    (hend : s.rest.getLast? ≠ some (Text.unit '\x7b'))
    (hx : (Delimiters.standard.opener? (Text.unit '\x7b' :: x)).isSome = true) {ts : List Token}
    (h : tokensFrom .standard hd filename s = .ok ts) :
    ∃ us, ts = us ++ [Token.atEnd (s.place.after s.rest)] ∧
      tokensFrom .standard hd filename (s.followed (Text.unit '\x7b' :: x)) =
        (tokensFrom .standard hd filename ⟨.outside, s.place.after s.rest, Text.unit '\x7b' :: x⟩).map (us ++ ·) := by
  fun_induction tokensFrom .standard hd filename s generalizing ts with
  | case1 => cases h
  | case2 s r hr hn =>
    cases h
    obtain ⟨s', hs', -⟩ | ⟨hmode, hdata, rfl⟩ := step_next hs hr
    · rw [hs'] at hn
      cases hn
    · -- the last step has read the data at the end: the delimiter is what now stands behind it
      refine ⟨_, rfl, ?_⟩
      exact tokensFrom_of_step hd (step_followed_last hmode hdata hend hx)
  | case3 s r hr s' hn ih =>
    obtain ⟨s'', hs'', hs'⟩ | ⟨-, -, rfl⟩ := step_next hs hr
    · obtain rfl := Option.some.inj (hn.symm.trans hs'')
      cases hrest : tokensFrom .standard hd filename s' with
      | error e => rw [hrest] at h; cases h
      | ok ts' =>
        rw [hrest] at h
        cases h
        obtain ⟨w, hw, hplace⟩ := step_reads hd hr hn
        have hafter : s'.place.after s'.rest = s.place.after s.rest := by
          rw [hw, hplace, Location.after_append]
        -- what the step leaves is an end of the text, and so does not end in a brace either
        rw [hw] at hend
        obtain ⟨us, rfl, hfollowed⟩ := ih hs' (getLast?_ne_of_suffix hend) hrest
        rw [hafter] at hfollowed ⊢
        refine ⟨r.tokens ++ us, (List.append_assoc ..).symm, ?_⟩
        have hstep := step_followed hs (hw ▸ hend) hx hr (hn ▸ Option.some_ne_none s')
        unfold Step.followed at hstep
        rw [hn, Option.map_some] at hstep
        rw [tokensFrom_of_next hd hstep, hfollowed]
        cases tokensFrom .standard hd filename ⟨.outside, s.place.after s.rest, Text.unit '\x7b' :: x⟩ with
        | error e => rfl
        | ok vs => exact congrArg Except.ok (List.append_assoc ..).symm
    · cases hn

end Scan

end Stencil
