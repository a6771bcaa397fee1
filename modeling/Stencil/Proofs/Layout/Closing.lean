/-
Whether tags can be closed. Inside of a tag white space is passed over before the closing delimiter is looked for, so
a delimiter that begins with white space is never found there: every scan that comes into such a tag fails
(`Scan.Reaches.error_inside`). With any other closing delimiter a tag may be closed at once, whatever else the
delimiter could be read as (`Environment.empty_tags_scanned`).
-/
import Stencil.Proofs.Layout.Raw
import Stencil.Proofs.Span.Reading
import Stencil.Proofs.Words.Segment

namespace Stencil

/-! ## The longest start delimiter -/

namespace Delimiters

variable {d : Delimiters} {a b o : Opener} {os : List Opener} {t : Text}

theorem start_inj (hd : d.Sound) (h : d.start a = d.start b) : a = b := by
  obtain ⟨-, hblock, hcomment, hvariable⟩ := hd
  cases a <;> cases b <;> grind [start]

theorem length_le_longer (d : Delimiters) (a b : Opener) :
    (d.start a).length ≤ (d.start (d.longer a b)).length ∧ (d.start b).length ≤ (d.start (d.longer a b)).length := by
  unfold longer
  split <;> omega

theorem length_le_foldl_longer (d : Delimiters) (ha : a ∈ o :: os) :
    (d.start a).length ≤ (d.start (os.foldl d.longer o)).length := by
  induction os generalizing o a with
  | nil => rw [List.mem_singleton.1 ha, List.foldl_nil]
  | cons b os ih =>
    obtain ⟨ho, hb⟩ := d.length_le_longer o b
    have hlonger := ih (o := d.longer o b) List.mem_cons_self
    rw [List.foldl_cons]
    rcases List.mem_cons.1 ha with rfl | ha
    · exact ho.trans hlonger
    · rcases List.mem_cons.1 ha with rfl | ha
      · exact hb.trans hlonger
      · exact ih (List.mem_cons_of_mem _ ha)

/-- Where a start delimiter stands one is found that is not shorter. -/
theorem exists_opener? (ha : t.startsWith (d.start a) = true) :
    ∃ o, d.opener? t = some o ∧ (d.start a).length ≤ (d.start o).length := by
  have hmem : a ∈ [Opener.interpolation, .block, .comment].filter fun o => t.startsWith (d.start o) :=
    List.mem_filter.2 ⟨by cases a <;> decide, ha⟩
  unfold opener?
  split
  · rename_i hf
    rw [hf] at hmem
    cases hmem
  · rename_i hf
    rw [hf] at hmem
    exact ⟨_, rfl, d.length_le_foldl_longer hmem⟩

/-- A start delimiter is found at the head of a text if no longer one stands there. -/
theorem opener?_of_longest (hd : d.Sound) (h : d.start o <+: t)
    (hlongest : ∀ a, (d.start o).length < (d.start a).length → ¬d.start a <+: t) : d.opener? t = some o := by
  obtain ⟨r, hr⟩ := h
  obtain ⟨b, hb, hle⟩ := exists_opener? (Text.startsWith_iff.2 ⟨r, hr.symm⟩)
  obtain ⟨u, hu⟩ := Text.startsWith_iff.1 (startsWith_of_opener? hb)
  have hge : (d.start b).length ≤ (d.start o).length := Nat.le_of_not_lt fun hlt => hlongest b hlt ⟨u, hu.symm⟩
  -- both stand at the head of the text and are of one length
  have hsame : d.start b = d.start o := List.append_inj_left (hu.symm.trans hr.symm) (Nat.le_antisymm hge hle)
  rw [hb, start_inj hd hsame]

theorem opener?_nil (hd : d.Sound) : d.opener? [] = none := by
  cases h : d.opener? [] with
  | none => rfl
  | some o =>
    obtain ⟨u, hu⟩ := Text.startsWith_iff.1 (startsWith_of_opener? h)
    exact absurd (List.append_eq_nil_iff.1 hu.symm).1 (start_ne_nil hd o)

/-- Between the delimiters of blocks, with nothing in the tag, there is no room for the word of a raw block. -/
theorem not_tagHere_empty (word : Text) (hword : word ≠ []) : ¬d.TagHere word (d.blockStart ++ d.blockEnd) := by
  rintro ⟨w, ⟨u, v, -, -, rfl⟩, hhere⟩
  have hlength := hhere.length_le
  have hpos := List.length_pos_iff.2 hword
  simp only [List.length_append] at hlength
  omega

end Delimiters

/-! ## Closing delimiters -/

namespace Tag

/-- What the start delimiter of the tag begins. -/
def opener : Tag → Delimiters.Opener
  | interpolation => .interpolation
  | block => .block

theorem start_opener (tag : Tag) (d : Delimiters) : d.start tag.opener = tag.start d := by
  cases tag <;> rfl

theorem close_ne_nil {d : Delimiters} (hd : d.Sound) (tag : Tag) : tag.close d ≠ [] := by
  cases tag
  · exact hd.ne_nil .variableEnd
  · exact hd.ne_nil .blockEnd

/-- The closing delimiter of the tag does not begin with white space that separates tokens. -/
def Closable (tag : Tag) (d : Delimiters) : Prop := (tag.close d).head?.any Text.isSpacing = false

instance (tag : Tag) (d : Delimiters) : Decidable (tag.Closable d) :=
  inferInstanceAs (Decidable ((tag.close d).head?.any Text.isSpacing = false))

theorem exists_spacing {tag : Tag} {d : Delimiters} (h : ¬tag.Closable d) :
    ∃ c t, tag.close d = c :: t ∧ Text.isSpacing c = true := by
  have hany : (tag.close d).head?.any Text.isSpacing = true := Bool.of_not_eq_false h
  cases hclose : tag.close d with
  | nil =>
    rw [hclose] at hany
    cases hany
  | cons c t =>
    rw [hclose] at hany
    exact ⟨c, t, rfl, hany⟩

end Tag

namespace Scan

variable {d : Delimiters} {filename : Option Text} {tag : Tag} {s s₀ : State} {opened : Location}
  {closers : List Symbol} {afterDot : Bool} {rest : Text} {r : Step}

/-! ## Tags that stay open -/

/-- Behind white space no more white space begins. -/
theorem State.not_ahead_startsWith {c : CodeUnit} {t : Text} (hc : Text.isSpacing c = true) :
    ¬Text.startsWith s.ahead (c :: t) = true := by
  intro h
  obtain ⟨u, hu⟩ := Text.startsWith_iff.1 h
  have hhead := List.head?_dropWhile_not Text.isSpacing s.rest
  rw [← State.ahead, hu, List.cons_append, List.head?_cons] at hhead
  simp only [hc] at hhead
  cases hhead

/-- A step inside of a tag that cannot be closed stays inside. -/
theorem step_inside_open (hclose : ¬tag.Closable d) (hs : s.mode = .inside tag opened closers afterDot)
    (hr : s.step d filename = .ok r) :
    ∃ s' closers' afterDot', r.next = some s' ∧ s'.mode = .inside tag opened closers' afterDot' := by
  obtain ⟨c, t, ht, hc⟩ := Tag.exists_spacing hclose
  rcases step_inside d filename hs with htoken | ⟨-, hends, -⟩ | ⟨-, e, he⟩
  · obtain ⟨x, -, rfl⟩ := htoken.read_of_step hr
    exact ⟨s.past x, _, _, rfl, congrArg (Mode.behind · x.kind) hs⟩
  · rw [ht] at hends
    exact absurd hends (State.not_ahead_startsWith hc)
  · rw [he] at hr
    cases hr

/-- A scan that begins inside of a tag that cannot be closed fails. -/
theorem tokensFrom_inside_open (hd : d.Sound) (filename : Option Text) (hclose : ¬tag.Closable d)
    (hs : s.mode = .inside tag opened closers afterDot) : ∃ e, tokensFrom d hd filename s = .error e := by
  fun_induction tokensFrom d hd filename s generalizing closers afterDot with
  | case1 s e => exact ⟨e, rfl⟩
  | case2 s r hr hn =>
    obtain ⟨s', -, -, hs', -⟩ := step_inside_open hclose hs hr
    rw [hn] at hs'
    cases hs'
  | case3 s r hr s' hn ih =>
    obtain ⟨s'', _, _, hn', hs'⟩ := step_inside_open hclose hs hr
    obtain rfl := Option.some.inj (hn.symm.trans hn')
    obtain ⟨e, he⟩ := ih hs'
    exact ⟨e, by rw [he]; rfl⟩

theorem Reaches.error_inside (h : Reaches d filename s₀ s) (hd : d.Sound) (hclose : ¬tag.Closable d)
    (hs : s.mode = .inside tag opened closers afterDot) : ∃ e, Scan.tokensFrom d hd filename s₀ = .error e := by
  obtain ⟨us, hus⟩ := h.tokensFrom hd
  obtain ⟨e, he⟩ := tokensFrom_inside_open hd filename hclose hs
  exact ⟨e, by rw [hus, he]; rfl⟩

/-! ## Empty tags -/

/-- Where its start delimiter is found a tag is opened, if no raw block begins there. -/
theorem step_tag (filename : Option Text) (h : d.opener? rest = some tag.opener)
    (hraw : tag = .block → ¬d.TagHere Delimiters.rawWord rest) (l : Location) :
    State.step d filename ⟨.outside, l, rest⟩ =
      .ok (take tag.beginKind (tag.start d) (tag.start d) (.inside tag l [] false) l rest) := by
  rw [step_opener filename h]
  cases tag with
  | interpolation => rfl
  | block =>
    have hnone := (Delimiters.afterWordTag_eq_none_iff Delimiters.rawWord_plain).2 (hraw rfl)
    simp only [Tag.opener, openerStep, hnone]
    rfl

/-- The closing delimiter is found at once, be it the beginning of a token or not. -/
theorem step_close_here (hd : d.Sound) (filename : Option Text) (hclose : tag.Closable d) (opened l : Location)
    (afterDot : Bool) : State.step d filename ⟨.inside tag opened [] afterDot, l, tag.close d⟩ =
      .ok (take tag.endKind (tag.close d) (tag.close d) .outside l (tag.close d)) := by
  obtain ⟨c, t, ht⟩ := List.exists_cons_of_ne_nil (tag.close_ne_nil hd)
  have hc : ¬Text.isSpacing c = true := by
    unfold Tag.Closable at hclose
    rw [ht, List.head?_cons, Option.any_some] at hclose
    rw [hclose]
    exact Bool.false_ne_true
  have htake : (tag.close d).takeWhile Text.isSpacing = [] := by rw [ht, List.takeWhile_cons_of_neg hc]
  have hdrop : (tag.close d).dropWhile Text.isSpacing = tag.close d := by rw [ht, List.dropWhile_cons_of_neg hc]
  have hends : Text.startsWith (tag.close d) (tag.close d) = true :=
    Text.startsWith_iff.2 ⟨[], (List.append_nil _).symm⟩
  simp only [State.step, htake, hdrop, if_neg (tag.close_ne_nil hd), hends, and_self, if_true]
  rfl

theorem step_end (hd : d.Sound) (filename : Option Text) (l : Location) :
    State.step d filename ⟨.outside, l, []⟩ = .ok ⟨[Token.atEnd l], none⟩ := by
  simp only [State.step, Delimiters.splitData, Delimiters.opener?_nil hd]
  rfl

end Scan

/-- A tag with nothing in it, where no longer start delimiter stands in place of its own. It is scanned as its two
delimiters just if the closing one does not begin with white space. If it does, no tag of the kind is ever closed:
every scan that comes into one fails. -/
theorem Environment.empty_tags_scanned (env : Environment) (filename : Option Text) (tag : Tag)
    (hlongest : ∀ o, (tag.start env.delimiters).length < (env.delimiters.start o).length →
      ¬env.delimiters.start o <+: tag.start env.delimiters ++ tag.close env.delimiters) :
    let d := env.delimiters
    let middle := Location.origin.after (tag.start d)
    let stop := middle.after (tag.close d)
    (env.tokens filename (tag.start d ++ tag.close d) =
        .ok [⟨tag.beginKind, tag.start d, ⟨.origin, middle⟩⟩, ⟨tag.endKind, tag.close d, ⟨middle, stop⟩⟩,
          Token.atEnd stop] ↔ tag.Closable d) ∧
      (¬tag.Closable d → ∀ s₀ s opened closers afterDot, Scan.Reaches d filename s₀ s →
        s.mode = .inside tag opened closers afterDot → ∃ e, Scan.tokensFrom d env.isSound filename s₀ = .error e) := by
  intro d middle stop
  have hd : d.Sound := env.isSound
  have hopener : d.opener? (tag.start d ++ tag.close d) = some tag.opener := by
    refine Delimiters.opener?_of_longest hd ?_ ?_
    · rw [tag.start_opener]
      exact List.prefix_append ..
    · rw [tag.start_opener]
      exact hlongest
  have hraw : tag = .block → ¬d.TagHere Delimiters.rawWord (tag.start d ++ tag.close d) := by
    rintro rfl
    exact Delimiters.not_tagHere_empty _ (by decide)
  have hopen := Scan.step_tag filename hopener hraw .origin
  have hstart : env.tokens filename (tag.start d ++ tag.close d) =
      (Scan.tokensFrom d hd filename ⟨.inside tag .origin [] false, middle, tag.close d⟩).map
        ([⟨tag.beginKind, tag.start d, ⟨.origin, middle⟩⟩] ++ ·) := by
    simp only [Scan.take, List.drop_left] at hopen
    exact Scan.tokensFrom_of_next hd hopen
  refine ⟨⟨fun h => ?_, fun hclose => ?_⟩, fun hclose s₀ s _ _ _ hreach hs => hreach.error_inside hd hclose hs⟩
  · by_contra hclose
    let inside : Scan.State := ⟨.inside tag .origin [] false, middle, tag.close d⟩
    obtain ⟨e, he⟩ := Scan.tokensFrom_inside_open (s := inside) hd filename hclose rfl
    rw [hstart, he] at h
    cases h
  · have hclosed := Scan.step_close_here hd filename hclose .origin middle false
    simp only [Scan.take, List.drop_length] at hclosed
    rw [hstart, Scan.tokensFrom_of_next hd hclosed, Scan.tokensFrom_eq, Scan.step_end hd filename]
    rfl

/-- A tag that a bracket closes, though a longer start delimiter begins as its own does. -/
theorem Environment.empty_tags_scanned_bracket :
    let env : Environment := ⟨⟨"<%", "%>", "<", "(", "<#", "#>"⟩, [], by decide, rfl⟩
    env.tokens none "<(" =
      .ok [⟨.variableBegin, "<", ⟨.origin, ⟨1, 2, 1⟩⟩⟩, ⟨.variableEnd, "(", ⟨⟨1, 2, 1⟩, ⟨1, 3, 2⟩⟩⟩,
        Token.atEnd ⟨1, 3, 2⟩] := by
  intro env
  have hlongest : ∀ o, (Tag.interpolation.start env.delimiters).length < (env.delimiters.start o).length →
      ¬env.delimiters.start o <+:
        Tag.interpolation.start env.delimiters ++ Tag.interpolation.close env.delimiters := by
    intro o
    cases o <;> decide
  exact (Environment.empty_tags_scanned env none .interpolation hlongest).1.2 (by decide)

/-- A closing delimiter that begins with a blank is not found right behind the start delimiter. -/
theorem Environment.empty_tag_unclosed :
    let env : Environment := ⟨⟨"\x7b%", "%\x7d", "\x7b\x7b", " \x7d", "\x7b#", "#\x7d"⟩, [], by decide, rfl⟩
    (∀ o, (Tag.interpolation.start env.delimiters).length < (env.delimiters.start o).length →
        ¬env.delimiters.start o <+:
          Tag.interpolation.start env.delimiters ++ Tag.interpolation.close env.delimiters) ∧
      ∃ e, env.tokens none (Tag.interpolation.start env.delimiters ++ Tag.interpolation.close env.delimiters) =
        .error e ∧ e.id.code = ("KILN-L003" : Text) ∧ e.location = some .origin := by
  intro env
  refine ⟨fun o => by cases o <;> decide, ?_⟩
  generalize hsource : Tag.interpolation.start env.delimiters ++ Tag.interpolation.close env.delimiters = source
  have hscan := env.tokens_of_counted none source (fun
    | .ok _ => false
    | .error e => decide (e.id.code = ("KILN-L003" : Text) ∧ e.location = some .origin))
    (by subst hsource; decide +kernel)
  cases hts : env.tokens none source with
  | ok ts => rw [hts] at hscan; cases hscan
  | error e =>
    rw [hts] at hscan
    exact ⟨e, rfl, of_decide_eq_true hscan⟩

end Stencil
