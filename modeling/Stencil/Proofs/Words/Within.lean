/-
An expression that stands alone, and the same one within an interpolation. As long as no closing delimiter counts in
front of a token, both scans read the same tokens, one step for one step (`step_within`); so what is read from an
expression alone is read within the tag, moved to its place there (`tokensFrom_within`), and what is read within a tag
that ends with the source is read from the expression alone (`tokensFrom_alone`).
-/
import Stencil.Environment.Read
import Stencil.Proofs.Layout.Cover
import Stencil.Proofs.Moved.Scan
import Stencil.Proofs.Progress.Reached
import Stencil.Proofs.Words.Behind
import Stencil.Proofs.Words.Brackets
import Stencil.Proofs.Words.Segment

namespace Stencil

/-! ## Places within a tag -/

namespace Location

/-- The place behind a start delimiter of two units: offsets count on, columns on the first line only. -/
def indented (l : Location) : Location := ⟨l.line, if l.line = 1 then l.column + 2 else l.column, l.offset + 2⟩

/-- The place without a start delimiter of two units in front of it. -/
def outdented (l : Location) : Location := ⟨l.line, if l.line = 1 then l.column - 2 else l.column, l.offset - 2⟩

theorem indented_shift : Shift indented := by
  intro l c hl
  unfold indented next
  by_cases hc : c = Text.unit '\n'
  · -- the next line is not the first one
    have hline : l.line + 1 ≠ 1 := by omega
    simp only [if_pos hc, if_neg hline, Nat.add_right_comm]
  · by_cases hfirst : l.line = 1 <;> simp only [if_neg hc, hfirst, if_true, if_false, Nat.add_right_comm]

theorem outdented_indented (l : Location) : l.indented.outdented = l := by
  unfold outdented indented
  by_cases hfirst : l.line = 1
  · simp only [if_pos hfirst, Nat.add_sub_cancel]
  · simp only [if_neg hfirst, Nat.add_sub_cancel]

end Location

theorem Token.mapPlaces_outdented (t : Token) : (t.mapPlaces .indented).mapPlaces .outdented = t := by
  simp only [Token.mapPlaces, Span.map, Location.outdented_indented]

namespace Scan

/-! ## States within a tag -/

variable {f : Location → Location} {filename : Option Text} {opened : Location} {σ : List Symbol} {s : State}
  {x : Lexeme} {ts : List Token} {source : Text}

/-- An expression that stands alone is read. -/
def State.Alone (s : State) : Prop := s.mode = .bare s.mode.afterDot

/-- The state within an interpolation when `s` is that of the expression alone: the closing delimiter stands behind
the text, and some closers are awaited. -/
def State.within (f : Location → Location) (opened : Location) (σ : List Symbol) (s : State) : State :=
  ⟨.inside .interpolation opened σ s.mode.afterDot, f s.place, s.rest ++ Delimiters.standard.variableEnd⟩

theorem ahead_within : (s.within f opened σ).ahead = s.ahead ++ Delimiters.standard.variableEnd :=
  dropWhile_followed (b := Text.unit '\x7d') (by decide) s.rest [Text.unit '\x7d']

theorem aheadPlace_within (hf : Location.Shift f) (hl : 0 < s.place.line) :
    (s.within f opened σ).aheadPlace = f s.aheadPlace := by
  have htake : (s.rest ++ Delimiters.standard.variableEnd).takeWhile Text.isSpacing =
      s.rest.takeWhile Text.isSpacing :=
    takeWhile_followed (b := Text.unit '\x7d') (by decide) s.rest [Text.unit '\x7d']
  show (f s.place).after ((s.rest ++ Delimiters.standard.variableEnd).takeWhile Text.isSpacing) = _
  rw [htake, ← hf.after hl]
  rfl

theorem aheadPlace_line (hl : 0 < s.place.line) : 0 < s.aheadPlace.line := Location.line_after_pos hl _

theorem tokenAt_mapPlaces (hf : Location.Shift f) {l : Location} (hl : 0 < l.line) :
    (tokenAt x l).mapPlaces f = tokenAt x (f l) := by
  unfold tokenAt
  rw [← hf.after hl]
  rfl

theorem past_within (hf : Location.Shift f) (hl : 0 < s.place.line) (hx : x.written.length ≤ s.ahead.length)
    (hs : s.Alone) :
    (s.within f opened σ).past x = (s.past x).within f opened (trackBrackets σ x.kind) := by
  obtain ⟨mode, place, rest⟩ := s
  cases mode with
  | bare afterDot =>
    unfold State.past
    rw [aheadPlace_within hf hl, ahead_within, List.drop_append_of_le_length hx,
      ← hf.after (aheadPlace_line (s := ⟨.bare afterDot, place, rest⟩) hl)]
    rfl
  | _ => cases hs

theorem State.Alone.past (hs : s.Alone) (x : Lexeme) : (s.past x).Alone := by
  obtain ⟨mode, place, rest⟩ := s
  cases mode with
  | bare => rfl
  | _ => cases hs

theorem rest_eq (s : State) : s.rest = s.rest.takeWhile Text.isSpacing ++ s.ahead :=
  List.takeWhile_append_dropWhile.symm

/-- Where the text ends is the same place behind a lexeme. -/
theorem after_past (hx : Lexeme.read s.mode.afterDot s.ahead = .ok x) :
    (s.past x).place.after (s.past x).rest = s.place.after s.rest := by
  obtain ⟨rest, hrest⟩ := Lexeme.read_written hx
  have hpast : (s.past x).rest = rest := by
    show s.ahead.drop x.written.length = rest
    rw [hrest, List.drop_left]
  conv => rhs; rw [rest_eq s, hrest]
  rw [hpast, Location.after_append, Location.after_append]
  rfl

theorem offset_aheadPlace (s : State) :
    s.aheadPlace.offset + s.ahead.length = s.place.offset + s.rest.length := by
  have hlength := congrArg List.length (rest_eq s)
  rw [List.length_append] at hlength
  rw [State.aheadPlace, Location.offset_after]
  omega

/-- Behind the white space in a source stands what is ahead. -/
theorem drop_aheadPlace (hsource : source.Ends s.rest s.place.offset) (y : Text) :
    (source ++ y).drop s.aheadPlace.offset = s.ahead ++ y := by
  rw [rest_eq s] at hsource
  exact (hsource.after.append y).drop

theorem place_of_ahead_nil (h : s.ahead = []) : s.aheadPlace = s.place.after s.rest := by
  conv => rhs; rw [rest_eq s, h, List.append_nil]
  rfl

/-! ## One step -/

variable {inner : List Token} {e last : Token}

theorem kind_ne_of_inExpression {k k' : TokenKind} (h : k.inExpression = true) (h' : k'.inExpression = false) :
    k ≠ k' := by
  rintro rfl
  rw [h] at h'
  cases h'

theorem read_length_le {afterDot : Bool} {t : Text} (hx : Lexeme.read afterDot t = .ok x) :
    0 < x.written.length ∧ x.written.length ≤ t.length := by
  obtain ⟨rest, hrest⟩ := Lexeme.read_written hx
  refine ⟨List.length_pos_iff.2 x.written_ne, ?_⟩
  rw [hrest, List.length_append]
  exact Nat.le_add_right ..

/-- A token of the expression alone is read within the tag, unless the closing delimiter counts in front of it. -/
theorem step_within (hf : Location.Shift f) (hl : 0 < s.place.line) (hs : s.Alone)
    (hx : Lexeme.read s.mode.afterDot s.ahead = .ok x)
    (hclose : ¬(σ = [] ∧ Delimiters.standard.variableEnd <+: s.ahead ++ Delimiters.standard.variableEnd)) :
    (s.within f opened σ).step .standard filename =
      .ok ⟨[(tokenAt x s.aheadPlace).mapPlaces f],
        some ((s.past x).within f opened (trackBrackets σ x.kind))⟩ := by
  obtain ⟨hpos, hlength⟩ := read_length_le hx
  have hne : s.ahead ≠ [] := List.length_pos_iff.1 (Nat.lt_of_lt_of_le hpos hlength)
  have hread : Lexeme.read s.mode.afterDot (s.within f opened σ).ahead = .ok x := by
    rw [ahead_within]
    exact Lexeme.read_followed Lexeme.apart_closeBrace hx [Text.unit '\x7d']
  have ha : (s.within f opened σ).AtToken .standard := by
    refine ⟨nofun, ?_, ?_⟩
    · rw [ahead_within]
      exact List.append_ne_nil_of_left_ne_nil hne _
    · rintro ⟨hσ, hstarts⟩
      rw [ahead_within, Text.startsWith_iff] at hstarts
      obtain ⟨rest, hrest⟩ := hstarts
      exact hclose ⟨hσ, rest, hrest.symm⟩
  rw [ha.step_ok hread, past_within hf hl hlength hs, aheadPlace_within hf hl,
    tokenAt_mapPlaces hf (aheadPlace_line hl)]

/-- Where the expression alone is over, the closing delimiter is all that is left within the tag. -/
theorem tokensFrom_within_end (hd : Delimiters.standard.Sound) (hf : Location.Shift f) (hl : 0 < s.place.line)
    (hahead : s.ahead = []) :
    let stop := f (s.place.after s.rest)
    let close := Delimiters.standard.variableEnd
    tokensFrom .standard hd filename (s.within f opened []) =
      .ok [⟨.variableEnd, close, ⟨stop, stop.after close⟩⟩, Token.atEnd (stop.after close)] := by
  intro stop close
  have hwithin : (s.within f opened []).ahead = close := by rw [ahead_within, hahead, List.nil_append]
  have hplace : (s.within f opened []).aheadPlace = stop := by
    rw [aheadPlace_within hf hl, place_of_ahead_nil hahead]
  rw [tokensFrom_eq]
  obtain ha | ⟨-, -, -, hr⟩ | ⟨hnil, -⟩ := step_inside .standard filename (s := s.within f opened []) rfl
  · exact absurd ⟨rfl, hwithin ▸ Text.startsWith_iff.2 ⟨[], (List.append_nil _).symm⟩⟩ ha.not_endsAt
  · rw [hr, hwithin, hplace]
    show (tokensFrom .standard hd filename ⟨.outside, stop.after close, []⟩).map _ = _
    rw [tokensFrom_eq]
    rfl
  · exact absurd (hwithin.symm.trans hnil) (List.cons_ne_nil _ _)

/-! ## All steps -/

theorem ends_past {r : Step} {s' : State} {d : Delimiters} (hd : d.Sound) (hsource : source.Ends s.rest s.place.offset)
    (hr : s.step d filename = .ok r) (hn : r.next = some s') : source.Ends s'.rest s'.place.offset := by
  obtain ⟨w, hw, hplace⟩ := step_reads hd hr hn
  rw [hw] at hsource
  rw [hplace]
  exact hsource.after

/-- What is read from an expression alone is read within a tag, if the brackets in it are closed and the closing
delimiter does not count in front of any token. -/
theorem tokensFrom_within (hd : Delimiters.standard.Sound) (opened : Location) (hf : Location.Shift f)
    (hl : 0 < s.place.line) (hs : s.Alone) (hsource : source.Ends s.rest s.place.offset)
    (h : tokensFrom .standard hd filename s = .ok ts) (hσ : (ts.map (·.kind)).foldl trackBrackets σ = [])
    (hclose : ∀ us t vs, ts = us ++ t :: vs → t.kind ≠ .eof → (us.map (·.kind)).foldl trackBrackets σ = [] →
      ¬Delimiters.standard.variableEnd <+: (source ++ Delimiters.standard.variableEnd).drop t.span.start.offset) :
    let stop := f (s.place.after s.rest)
    let close := Delimiters.standard.variableEnd
    ∃ us, ts = us ++ [Token.atEnd (s.place.after s.rest)] ∧
      tokensFrom .standard hd filename (s.within f opened σ) =
        .ok (us.map (Token.mapPlaces f) ++
          [⟨.variableEnd, close, ⟨stop, stop.after close⟩⟩, Token.atEnd (stop.after close)]) := by
  fun_induction tokensFrom .standard hd filename s generalizing σ ts with
  | case1 => cases h
  | case2 s r hr hn =>
    cases h
    obtain ha | ⟨hahead, hr'⟩ := step_bare .standard filename hs
    · obtain ⟨x, -, rfl⟩ := ha.read_of_step hr
      cases hn
    · obtain rfl := Except.ok.inj (hr.symm.trans hr')
      obtain rfl : σ = [] := hσ
      rw [place_of_ahead_nil hahead]
      exact ⟨[], rfl, tokensFrom_within_end hd hf hl hahead⟩
  | case3 s r hr s' hn ih =>
    cases hrest : tokensFrom .standard hd filename s' with
    | error e => rw [hrest] at h; cases h
    | ok ts' =>
      rw [hrest] at h
      cases h
      obtain ha | ⟨-, hr'⟩ := step_bare .standard filename hs
      · have hsource' := ends_past hd hsource hr hn
        obtain ⟨x, hx, rfl⟩ := ha.read_of_step hr
        cases hn
        have hnot : ¬(σ = [] ∧ Delimiters.standard.variableEnd <+: s.ahead ++ Delimiters.standard.variableEnd) := by
          rintro ⟨hnil, hstarts⟩
          have hkind : x.kind ≠ .eof := kind_ne_of_inExpression (Lexeme.read_writes hx).2 rfl
          exact hclose [] (tokenAt x s.aheadPlace) ts' rfl hkind hnil ((drop_aheadPlace hsource _).symm ▸ hstarts)
        obtain ⟨us, rfl, hus⟩ := ih (Location.line_after_pos (aheadPlace_line hl) _) (hs.past x) hsource' hrest hσ
          fun us t vs hts hk hfold => by
            rw [hts] at hclose
            exact hclose (tokenAt x s.aheadPlace :: us) t vs rfl hk hfold
        rw [after_past hx] at hus ⊢
        refine ⟨tokenAt x s.aheadPlace :: us, rfl, ?_⟩
        have hus' : tokensFrom .standard hd filename ((s.past x).within f opened (trackBrackets σ x.kind)) = _ := hus
        rw [tokensFrom_of_next hd (step_within hf hl hs hx hnot), hus']
        rfl
      · rw [Except.ok.inj (hr.symm.trans hr')] at hn
        cases hn

/-- A tag that is read to its end has its closing delimiter in front of it. -/
theorem close_length_le {d : Delimiters} (hd : d.Sound) (tag : Tag) {afterDot : Bool}
    (hs : s.mode = .inside tag opened σ afterDot) (h : tokensFrom d hd filename s = .ok ts) :
    (tag.close d).length ≤ s.rest.length := by
  have hahead : s.ahead.length ≤ s.rest.length := length_dropWhile_le ..
  fun_induction tokensFrom d hd filename s generalizing σ afterDot ts with
  | case1 => cases h
  | case2 s r hr hn =>
    obtain ha | ⟨-, -, -, hr'⟩ | ⟨-, e, he⟩ := step_inside d filename hs
    · obtain ⟨x, -, rfl⟩ := ha.read_of_step hr
      cases hn
    · rw [Except.ok.inj (hr.symm.trans hr')] at hn
      cases hn
    · cases hr.symm.trans he
  | case3 s r hr s' hn ih =>
    obtain ha | ⟨-, hstarts, -, -⟩ | ⟨-, e, he⟩ := step_inside d filename hs
    · obtain ⟨x, -, rfl⟩ := ha.read_of_step hr
      cases hn
      cases hrest : tokensFrom d hd filename (s.past x) with
      | error e => rw [hrest] at h; cases h
      | ok ts' =>
        have hmode : (s.past x).mode = s.mode.behind x.kind := rfl
        rw [hs] at hmode
        have hlater := ih hmode hrest (length_dropWhile_le ..)
        have hdrop : (s.past x).rest.length = s.ahead.length - x.written.length := List.length_drop
        omega
    · obtain ⟨rest, hrest⟩ := Text.startsWith_iff.1 hstarts
      rw [hrest, List.length_append] at hahead
      omega
    · cases hr.symm.trans he

/-- A token within a tag that is read to its end is read from the expression alone: the closing delimiter stands
behind it. -/
theorem read_alone (hd : Delimiters.standard.Sound)
    (hx : Lexeme.read (s.within f opened σ).mode.afterDot (s.within f opened σ).ahead = .ok x)
    (h : tokensFrom .standard hd filename ((s.within f opened σ).past x) = .ok ts) :
    Lexeme.read s.mode.afterDot s.ahead = .ok x := by
  have hclose : Delimiters.standard.variableEnd.length ≤ ((s.within f opened σ).ahead.drop x.written.length).length :=
    close_length_le hd .interpolation (s := (s.within f opened σ).past x) rfl h
  have hpos := (read_length_le hx).1
  rw [ahead_within] at hx
  rw [ahead_within, List.length_drop, List.length_append] at hclose
  have htwo : Delimiters.standard.variableEnd.length = 2 := rfl
  have hne : s.ahead ≠ [] := List.length_pos_iff.1 (by omega)
  exact Lexeme.read_of_followed Lexeme.apart_closeBrace hne hx (by omega)

/-- What is read within a tag that ends with the source is read from the expression alone. -/
theorem tokensFrom_alone (hd : Delimiters.standard.Sound) (hf : Location.Shift f) (hl : 0 < s.place.line)
    (hs : s.Alone) (h : tokensFrom .standard hd filename (s.within f opened σ) = .ok (inner ++ [e, last]))
    (he : e.kind = .variableEnd) (hinner : ∀ t ∈ inner, t.kind ≠ .variableEnd)
    (hstop : e.span.finish.offset = (s.within f opened σ).place.offset + (s.within f opened σ).rest.length) :
    ∃ us, tokensFrom .standard hd filename s = .ok (us ++ [Token.atEnd (s.place.after s.rest)]) ∧
      inner = us.map (Token.mapPlaces f) := by
  induction hn : s.rest.length using Nat.strongRecOn generalizing s σ inner with
  | _ n ih =>
  rw [tokensFrom_eq] at h
  obtain ha | ⟨rfl, -, -, hr⟩ | ⟨-, e', he'⟩ := step_inside .standard filename (s := s.within f opened σ) rfl
  · cases hr : (s.within f opened σ).step .standard filename with
    | error e' => rw [hr] at h; cases h
    | ok r =>
      have hforward {s' : State} (hn : r.next = some s') := step_forward hd hr hn
      obtain ⟨x, hx, rfl⟩ := ha.read_of_step hr
      rw [hr] at h
      simp only at h
      cases hrest : tokensFrom .standard hd filename ((s.within f opened σ).past x) with
      | error e' => rw [hrest] at h; cases h
      | ok ts =>
        have hread := read_alone hd hx hrest
        have hlength := (read_length_le hread).2
        have hstep : s.step .standard filename = .ok ⟨[tokenAt x s.aheadPlace], some (s.past x)⟩ := by
          obtain ha' | ⟨hnil, -⟩ := step_bare .standard filename hs
          · exact ha'.step_ok hread
          · rw [hnil] at hread
            cases hread
        have hlast := (hforward rfl).2
        rw [hrest] at h
        rw [past_within hf hl hlength hs] at hrest hlast
        cases inner with
        | nil =>
          -- the token is not the end of the tag
          obtain ⟨rfl, -⟩ := List.cons_eq_cons.1 (Except.ok.inj h)
          exact absurd he (kind_ne_of_inExpression (Lexeme.read_writes hread).2 rfl)
        | cons t inner =>
          obtain ⟨rfl, rfl⟩ := List.cons_eq_cons.1 (Except.ok.inj h)
          have hshort := next_shorter hd hstep rfl
          obtain ⟨us, hus, rfl⟩ := ih _ (hn ▸ hshort) (Location.line_after_pos (aheadPlace_line hl) _) (hs.past x) hrest
            (fun t ht => hinner t (List.mem_cons_of_mem _ ht)) (hstop.trans hlast.symm) rfl
          refine ⟨tokenAt x s.aheadPlace :: us, ?_, ?_⟩
          · rw [tokensFrom_of_next hd hstep, hus, after_past hread]
            rfl
          · rw [List.map_cons, tokenAt_mapPlaces hf (aheadPlace_line hl), aheadPlace_within hf hl]
  · rw [hr] at h
    simp only [take] at h
    cases hrest : tokensFrom .standard hd filename
        ⟨.outside, (s.within f opened []).aheadPlace.after Delimiters.standard.variableEnd,
          (s.within f opened []).ahead.drop Delimiters.standard.variableEnd.length⟩ with
    | error e' => rw [Tag.close, hrest] at h; cases h
    | ok ts =>
      rw [Tag.close, hrest] at h
      cases inner with
      | cons t inner =>
        obtain ⟨rfl, -⟩ := List.cons_eq_cons.1 (Except.ok.inj h)
        exact absurd rfl (hinner _ List.mem_cons_self)
      | nil =>
        -- the closing delimiter ends the source, so the expression is over
        obtain ⟨rfl, -⟩ := List.cons_eq_cons.1 (Except.ok.inj h)
        have hoffset := offset_aheadPlace (s.within f opened [])
        rw [ahead_within, List.length_append] at hoffset
        have hnil : s.ahead = [] := by
          rw [Location.offset_after] at hstop
          exact List.length_eq_zero_iff.1 (by omega)
        obtain ha | ⟨-, hr'⟩ := step_bare .standard filename hs
        · exact absurd hnil ha.ahead_ne
        · refine ⟨[], ?_, rfl⟩
          rw [tokensFrom_eq, hr', place_of_ahead_nil hnil]
          rfl
  · rw [he'] at h
    cases h

/-! ## The two ways to read an expression -/

/-- The scan of a tag around a text begins with the begin of the tag, and goes on with the text within it. -/
theorem template_tag (hd : Delimiters.standard.Sound) (filename : Option Text) (t : Text) :
    template .standard hd filename ("\x7b\x7b" ++ t ++ "\x7d\x7d") =
      (tokensFrom .standard hd filename (State.within .indented .origin [] ⟨.bare false, .origin, t⟩)).map
        ([⟨.variableBegin, "\x7b\x7b", ⟨.origin, ⟨1, 3, 2⟩⟩⟩] ++ ·) := by
  have hopener : Delimiters.standard.opener? ("\x7b\x7b" ++ t ++ "\x7d\x7d") = some .interpolation := rfl
  exact tokensFrom_of_next hd (step_opener filename hopener .origin)

end Scan

/-- The two ways to read an expression agree. What is read from an expression alone is read within a tag around it,
moved behind the begin of the tag, if the brackets in it are closed and the closing delimiter stands in front of no
token at which none is open. And if a tag around a text is a single one up to the end of the source, the text alone
is read as what stands in the tag, moved back. -/
theorem Environment.expression_scans_agree (filename : Option Text) (t : Text) :
    let tag : Text := "\x7b\x7b" ++ t ++ "\x7d\x7d"
    let stop := (Location.origin.after t).indented
    (∀ ts, Environment.standard.expressionTokens filename t = .ok ts →
      Scan.Tracks [] (ts.map (·.kind)) [] →
      (∀ us u vs, ts = us ++ u :: vs → u.kind ≠ .eof → Scan.Tracks [] (us.map (·.kind)) [] →
        ¬("\x7d\x7d" : Text) <+: (t ++ "\x7d\x7d").drop u.span.start.offset) →
      Environment.standard.tokens filename tag =
        .ok (⟨.variableBegin, "\x7b\x7b", ⟨.origin, ⟨1, 3, 2⟩⟩⟩ :: (ts.dropLast.map (Token.mapPlaces .indented) ++
          [⟨.variableEnd, "\x7d\x7d", ⟨stop, stop.after "\x7d\x7d"⟩⟩, Token.atEnd (stop.after "\x7d\x7d")]))) ∧
    ∀ b inner e last, Environment.standard.tokens filename tag = .ok (b :: (inner ++ [e, last])) →
      b.kind = .variableBegin → e.kind = .variableEnd → (∀ u ∈ inner, u.kind ≠ .variableEnd) →
      e.span.finish.offset = tag.length →
      Environment.standard.expressionTokens filename t =
        .ok (inner.map (Token.mapPlaces .outdented) ++ [Token.atEnd (.after .origin t)]) := by
  intro tag stop
  have hd := Environment.standard.isSound
  have htag := Scan.template_tag hd filename t
  refine ⟨fun ts h hσ hclose => ?_, fun b inner e last h _ he hinner hstop => ?_⟩
  · simp only [Scan.tracks_nil_iff] at hσ hclose
    obtain ⟨us, rfl, hus⟩ := Scan.tokensFrom_within (s := ⟨.bare false, .origin, t⟩) hd .origin
      Location.indented_shift Nat.one_pos rfl ⟨[], rfl, rfl⟩ h hσ hclose
    rw [List.dropLast_concat]
    exact htag.trans (by rw [hus]; rfl)
  · have htokens := htag.symm.trans h
    cases hrest : Scan.tokensFrom .standard hd filename
        (Scan.State.within .indented .origin [] ⟨.bare false, .origin, t⟩) with
    | error e' => rw [hrest] at htokens; cases htokens
    | ok ts =>
      rw [hrest] at htokens
      obtain ⟨-, rfl⟩ := List.cons_eq_cons.1 (Except.ok.inj htokens)
      have hlength : tag.length = 2 + (t ++ Delimiters.standard.variableEnd).length := by
        show (Text.ofString "\x7b\x7b" ++ t ++ "\x7d\x7d").length = _
        rw [List.append_assoc, List.length_append]
        rfl
      obtain ⟨us, hus, rfl⟩ := Scan.tokensFrom_alone (s := ⟨.bare false, .origin, t⟩) hd Location.indented_shift
        Nat.one_pos rfl hrest he hinner (hstop.trans hlength)
      have hback : (us.map (Token.mapPlaces .indented)).map (Token.mapPlaces .outdented) = us := by
        rw [List.map_map]
        exact List.map_id'' Token.mapPlaces_outdented us
      rw [hback]
      exact hus

/-- Two braces in a string and two that close a dictionary each, and a dot and a number on another line. -/
theorem Environment.expression_scans_agree_braces :
    let t : Text := "\x7b'\x7d\x7d': \x7b\x7d\x7d\n|f.0"
    let stop : Location := ⟨2, 5, 17⟩
    let close : Location := ⟨2, 7, 19⟩
    ∃ ts, Environment.standard.expressionTokens none t = .ok ts ∧
      ts.map (·.kind) = [.symbol .openBrace, .string, .symbol .colon, .symbol .openBrace, .symbol .closeBrace,
        .symbol .closeBrace, .symbol .pipe, .name, .symbol .dot, .integer, .eof] ∧
      Environment.standard.tokens none ("\x7b\x7b" ++ t ++ "\x7d\x7d") =
        .ok (⟨.variableBegin, "\x7b\x7b", ⟨.origin, ⟨1, 3, 2⟩⟩⟩ :: (ts.dropLast.map (Token.mapPlaces .indented) ++
          [⟨.variableEnd, "\x7d\x7d", ⟨stop, close⟩⟩, Token.atEnd close])) ∧
      Environment.standard.expressionTokens none t =
        .ok ((ts.dropLast.map (Token.mapPlaces .indented)).map (Token.mapPlaces .outdented) ++
          [Token.atEnd (.after .origin t)]) := by
  intro t stop close
  have hread : (Scan.tokensWithin Environment.standard.delimiters none (t.length + 1) ⟨.bare false, .origin, t⟩).any
      (fun scan => scan.toOption.any fun ts =>
        decide (ts.map (·.kind) = [.symbol .openBrace, .string, .symbol .colon, .symbol .openBrace, .symbol .closeBrace,
            .symbol .closeBrace, .symbol .pipe, .name, .symbol .dot, .integer, .eof] ∧
          ∀ n < ts.length, ∀ u ∈ ts[n]?, u.kind ≠ .eof →
            ((ts.take n).map (·.kind)).foldl Scan.trackBrackets [] = [] →
            ¬("\x7d\x7d" : Text) <+: (t ++ "\x7d\x7d").drop u.span.start.offset)) = true := by decide +kernel
  obtain ⟨scan, hscan, hread⟩ := (Option.any_eq_true ..).1 hread
  cases scan with
  | error e => cases hread
  | ok ts =>
    obtain ⟨hkinds, hclear⟩ := of_decide_eq_true hread
    have h : Environment.standard.expressionTokens none t = .ok ts :=
      Scan.tokensFrom_of_within Environment.standard.isSound (Nat.lt_succ_self _) hscan
    have htracks : Scan.Tracks [] (ts.map (·.kind)) [] := Scan.tracks_nil_iff.2 (by rw [hkinds]; decide)
    have htag := (Environment.expression_scans_agree none t).1 ts h htracks fun us u vs hts hu hus => by
      subst hts
      refine hclear us.length (by simp) u (by simp) hu ?_
      rw [List.take_left]
      exact hus.foldl
    refine ⟨ts, h, hkinds, htag, ?_⟩
    refine (Environment.expression_scans_agree none t).2 _ _ _ _ htag rfl rfl (fun u hu => ?_) rfl
    obtain ⟨u, hmem, rfl⟩ := List.mem_map.1 hu
    have hmem : u.kind ∈ ts.map Token.kind := List.mem_map_of_mem (List.dropLast_subset ts hmem)
    rw [hkinds] at hmem
    intro hk
    rw [show u.kind = .variableEnd from hk] at hmem
    exact absurd hmem (by decide)

end Stencil
