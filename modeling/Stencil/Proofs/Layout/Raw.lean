/-
Raw blocks, as the tags around them say where they begin and end. The tag that begins one, and the one that ends it,
take as many blanks before the closing delimiter as they can (`Delimiters.LongestTag`); a block ends at the earliest
position at which a tag can end it (`Delimiters.FirstTag`), and whatever stands before is its text.
-/
import Stencil.Environment.Read
import Stencil.Proofs.Layout.Written
import Stencil.Proofs.Progress.Reached

namespace Stencil

namespace Delimiters

open Text

variable {d : Delimiters} {word t w v r b close : Text} {k : Nat}

/-! ## Tags at the head of a text -/

theorem WordTag.ne_nil (hw : d.WordTag word w) (hword : Plain word) : w ≠ [] := by
  obtain ⟨u, v, -, -, rfl⟩ := hw
  obtain ⟨c, t, rfl, -⟩ := hword
  simp only [ne_eq, List.append_eq_nil_iff]
  exact fun h => List.cons_ne_nil c t h.1.1.2

/-- The longest tag that holds a word at the head of a text. -/
structure LongestTag (d : Delimiters) (word t w : Text) : Prop where
  tag : d.WordTag word w
  here : w <+: t
  longest : ∀ w', d.WordTag word w' → w' <+: t → w'.length ≤ w.length

/-- The earliest position of a text at which a tag stands that holds a word. -/
def FirstTag (d : Delimiters) (word t : Text) (k : Nat) : Prop :=
  d.TagHere word (t.drop k) ∧ ∀ j < k, ¬d.TagHere word (t.drop j)

theorem LongestTag.eq (h : d.LongestTag word t w) (h' : d.LongestTag word t v) : w = v := by
  have hlength := Nat.le_antisymm (h'.longest w h.tag h.here) (h.longest v h'.tag h'.here)
  exact (List.prefix_of_prefix_length_le h.here h'.here (Nat.le_of_eq hlength)).eq_of_length hlength

/-! ## What follows a tag -/

/-- No choice of blanks leaves less behind the closing delimiter. -/
theorem afterBlanks_length_le (hv : v.all isBlank = true) {x : Text}
    (h : afterBlanks close (v ++ close ++ x) = some r) : r.length ≤ x.length := by
  induction v with
  | nil =>
    obtain ⟨u, -, hu⟩ := afterBlanks_eq_some h
    have hlength := congrArg List.length hu
    simp only [List.nil_append, List.length_append] at hlength
    omega
  | cons c v ih =>
    rw [List.all_cons, Bool.and_eq_true] at hv
    obtain ⟨r', hr'⟩ := Option.isSome_iff_exists.1 (afterBlanks_isSome close hv.2 x)
    rw [List.cons_append, List.cons_append, afterBlanks, if_pos hv.1, hr'] at h
    obtain rfl := Option.some.inj h
    exact ih hv.2 hr'

theorem afterWordTag_length_le (hword : Plain word) (hw : d.WordTag word w)
    {x : Text} (h : d.afterWordTag word (w ++ x) = some r) : r.length ≤ x.length := by
  obtain ⟨u, v, hu, hv, rfl⟩ := hw
  rw [List.append_assoc, List.append_assoc, afterWordTag_eq hword hu, ← List.append_assoc] at h
  exact afterBlanks_length_le hv h

/-- What is left is what follows the longest tag. -/
theorem longestTag_of_afterWordTag (hword : Plain word) (h : d.afterWordTag word t = some r) :
    ∃ w, d.LongestTag word t w ∧ t = w ++ r := by
  obtain ⟨w, hw, rfl⟩ := afterWordTag_written h
  refine ⟨w, ⟨hw, ⟨r, rfl⟩, ?_⟩, rfl⟩
  rintro w' hw' ⟨x, hx⟩
  rw [← hx] at h
  have hlength := congrArg List.length hx
  have hle := afterWordTag_length_le hword hw' h
  rw [List.length_append, List.length_append] at hlength
  omega

theorem afterWordTag_longestTag (hword : Plain word) (h : d.LongestTag word t w) :
    d.afterWordTag word t = some (t.drop w.length) := by
  obtain ⟨x, hx⟩ := h.here
  obtain ⟨r, hr⟩ := Option.isSome_iff_exists.1 (afterWordTag_isSome hword h.tag x)
  rw [hx] at hr
  obtain ⟨v, hv, hsplit⟩ := longestTag_of_afterWordTag hword hr
  rw [hr, h.eq hv, hsplit, List.drop_left]

/-- Where a tag stands a longest one stands. -/
theorem TagHere.exists_longestTag (hword : Plain word) (h : d.TagHere word t) : ∃ w, d.LongestTag word t w := by
  cases hr : d.afterWordTag word t with
  | none => exact absurd h ((afterWordTag_eq_none_iff hword).1 hr)
  | some r =>
    obtain ⟨w, hw, -⟩ := longestTag_of_afterWordTag hword hr
    exact ⟨w, hw⟩

/-! ## The text of a raw block -/

theorem not_tagHere_nil (hword : Plain word) : ¬d.TagHere word [] := by
  rintro ⟨w, hw, hhere⟩
  exact hw.ne_nil hword (List.prefix_nil.1 hhere)

theorem splitRaw_firstTag (h : d.FirstTag endRawWord t k) (hv : d.LongestTag endRawWord (t.drop k) v) :
    d.splitRaw t = some (t.take k, t.drop (k + v.length)) := by
  induction t generalizing k with
  | nil =>
    rw [List.drop_nil] at hv
    exact absurd ⟨v, hv.tag, hv.here⟩ (not_tagHere_nil endRawWord_plain)
  | cons c t ih =>
    rw [splitRaw]
    cases k with
    | zero =>
      have hhere : d.afterWordTag endRawWord (c :: t) = some ((c :: t).drop v.length) :=
        afterWordTag_longestTag endRawWord_plain hv
      rw [hhere, Nat.zero_add]
      rfl
    | succ k =>
      have hhere : d.afterWordTag endRawWord (c :: t) = none :=
        (afterWordTag_eq_none_iff endRawWord_plain).2 (h.2 0 (Nat.succ_pos k))
      rw [hhere]
      have hfirst : d.FirstTag endRawWord t k := ⟨h.1, fun j hj => h.2 (j + 1) (Nat.succ_lt_succ hj)⟩
      simp only [ih hfirst hv]
      rw [Nat.add_right_comm]
      rfl

theorem splitRaw_eq_none_iff : d.splitRaw t = none ↔ ∀ k, ¬d.TagHere endRawWord (t.drop k) := by
  have hhere (t : Text) : d.afterWordTag endRawWord t = none ↔ ¬d.TagHere endRawWord t :=
    afterWordTag_eq_none_iff endRawWord_plain
  induction t with
  | nil =>
    rw [splitRaw, Option.map_eq_none_iff, hhere]
    exact ⟨fun h k => by rwa [List.drop_nil], fun h => h 0⟩
  | cons c t ih =>
    rw [splitRaw]
    constructor
    · intro h k
      split at h
      · cases h
      · rename_i hnone
        cases k with
        | zero => exact (hhere _).1 hnone
        | succ k => exact ih.1 (Option.map_eq_none_iff.1 h) k
    · intro h
      rw [(hhere (c :: t)).2 (h 0)]
      exact Option.map_eq_none_iff.2 (ih.2 fun k => h (k + 1))

/-- Where a tag stands somewhere that ends a raw block, one stands first. -/
theorem exists_firstTag (h : d.TagHere endRawWord (t.drop k)) : ∃ j, d.FirstTag endRawWord t j := by
  cases hsplit : d.splitRaw t with
  | none => exact absurd h (splitRaw_eq_none_iff.1 hsplit k)
  | some br =>
    obtain ⟨b, r⟩ := br
    obtain ⟨v, hv, rfl, hfirst⟩ := splitRaw_written hsplit
    refine ⟨b.length, ⟨v, hv, r, ?_⟩, fun j hj => ?_⟩
    · rw [List.append_assoc, List.drop_left]
    · rintro ⟨v', hv', hhere⟩
      exact hfirst j hj v' hv' hhere

end Delimiters

/-! ## Raw blocks in a scan -/

namespace Scan

open Delimiters (rawWord endRawWord)

variable {d : Delimiters} {filename : Option Text} {s₀ s : State} {data rest w v : Text} {k : Nat}

/-- A block opens behind some data: a scan that is outside of tags finds the first start delimiter there, and the
longest one there is that of blocks. -/
structure State.AtBlock (d : Delimiters) (s : State) (data rest : Text) : Prop where
  mode : s.mode = .outside
  split : d.splitData s.rest = (data, rest)
  opener : d.opener? rest = some .block

theorem State.AtBlock.step_eq (h : s.AtBlock d data rest) (filename : Option Text) :
    s.step d filename = (openerStep d filename (s.place.after data) rest (some .block)).map fun r =>
      { r with tokens := dataTokens s.place data ++ r.tokens } := by
  obtain ⟨mode, place, text⟩ := s
  obtain ⟨hmode, hsplit, hopener⟩ := h
  obtain rfl : mode = .outside := hmode
  simp only [State.step]
  rw [hsplit, hopener]

theorem step_block (h : s.AtBlock d data rest) (hraw : ¬d.TagHere rawWord rest) :
    s.step d filename =
      .ok ⟨dataTokens s.place data ++ [⟨.blockBegin, d.blockStart,
          ⟨s.place.after data, (s.place.after data).after d.blockStart⟩⟩],
        some ⟨.inside .block (s.place.after data) [] false, (s.place.after data).after d.blockStart,
          rest.drop d.blockStart.length⟩⟩ := by
  have hnone := (Delimiters.afterWordTag_eq_none_iff Delimiters.rawWord_plain).2 hraw
  rw [h.step_eq, openerStep]
  simp only [hnone]
  rfl

theorem step_raw (h : s.AtBlock d data rest) (hw : d.LongestTag rawWord rest w)
    (hk : d.FirstTag endRawWord (rest.drop w.length) k)
    (hv : d.LongestTag endRawWord ((rest.drop w.length).drop k) v) :
    s.step d filename =
      .ok ⟨dataTokens s.place data ++ dataTokens ((s.place.after data).after w) ((rest.drop w.length).take k),
        some ⟨.outside, (s.place.after data).after (w ++ ((rest.drop w.length).take k ++ v)),
          (rest.drop w.length).drop (k + v.length)⟩⟩ := by
  have htag := Delimiters.afterWordTag_longestTag Delimiters.rawWord_plain hw
  have hbody := Delimiters.splitRaw_firstTag hk hv
  rw [h.step_eq, openerStep]
  simp only [htag, hbody]
  obtain ⟨inner, rfl⟩ := hw.here
  rw [List.drop_left] at hv ⊢
  have hinner : inner = inner.take k ++ v ++ inner.drop (k + v.length) := by
    obtain ⟨behind, hbehind⟩ := hv.here
    rw [← List.drop_drop, ← hbehind, List.drop_left, List.append_assoc, hbehind, List.take_append_drop]
  have hwhole : w ++ inner = w ++ (inner.take k ++ v) ++ inner.drop (k + v.length) := by
    rw [List.append_assoc, ← hinner]
  have hplace : (s.place.after data).upTo (w ++ inner) (inner.drop (k + v.length)) =
      (s.place.after data).after (w ++ (inner.take k ++ v)) := by
    rw [hwhole, Location.upTo_append]
  rw [hplace, Location.upTo_append]
  rfl

theorem step_raw_unclosed (h : s.AtBlock d data rest) (hw : d.LongestTag rawWord rest w)
    (hnone : ∀ k, ¬d.TagHere endRawWord ((rest.drop w.length).drop k)) :
    s.step d filename = .error
      (unclosed filename "raw block" (d.blockStart ++ " endraw " ++ d.blockEnd) (s.place.after data)) := by
  have htag := Delimiters.afterWordTag_longestTag Delimiters.rawWord_plain hw
  have hbody := Delimiters.splitRaw_eq_none_iff.2 hnone
  rw [h.step_eq, openerStep]
  simp only [htag, hbody]
  rfl

/-- A scan that comes to a raw tag reports that the block is not closed just if no tag behind can close it. -/
theorem Reaches.unclosed_raw_iff (hreach : Reaches d filename s₀ s) (hd : d.Sound) (h : s.AtBlock d data rest)
    (hw : d.LongestTag rawWord rest w) :
    (∃ e, Scan.tokensFrom d hd filename s₀ = .error e ∧ e.id = .unclosedTag ∧
      e.location = some (s.place.after data)) ↔ ∀ k, ¬d.TagHere endRawWord ((rest.drop w.length).drop k) := by
  constructor
  · rintro ⟨e, he, -, hplace⟩ k hk
    obtain ⟨j, hj⟩ := Delimiters.exists_firstTag hk
    obtain ⟨v, hv⟩ := hj.1.exists_longestTag Delimiters.endRawWord_plain
    -- the scan gets behind the block, outside of tags, and what it finds from there on is further on
    obtain ⟨l, hl, hbehind | ⟨-, hopened⟩⟩ := hreach.finds hd (step_raw h hw hj hv) rfl he
    · obtain rfl := Option.some.inj (hplace.symm.trans hl)
      refine absurd hbehind (Nat.not_le_of_lt (Location.offset_lt_after _ ?_))
      exact List.append_ne_nil_of_left_ne_nil (hw.tag.ne_nil Delimiters.rawWord_plain) _
    · cases hopened
  · intro hnone
    exact ⟨_, hreach.error hd (step_raw_unclosed h hw hnone), rfl, rfl⟩

end Scan

/-- Raw blocks, wherever a scan comes to a block tag outside of tags. The tag is an ordinary one just if no tag that
holds the word `raw` alone stands there. If one does, the block goes from the longest such tag to the earliest tag
that holds `endraw` alone; what stands between them is one token of data, whatever it is, or none if nothing stands
there. Without such a tag, and only then, `KILN-L003` is reported where the block begins. -/
theorem Environment.raw_blocks_verbatim (env : Environment) (filename : Option Text) {s₀ s : Scan.State}
    {data rest : Text} (hreach : Scan.Reaches env.delimiters filename s₀ s)
    (hblock : s.AtBlock env.delimiters data rest) :
    let d := env.delimiters
    let place := s.place.after data
    let before := Scan.dataTokens s.place data
    (¬d.TagHere Delimiters.rawWord rest ↔
      s.step d filename =
        .ok ⟨before ++ [⟨.blockBegin, d.blockStart, ⟨place, place.after d.blockStart⟩⟩],
          some ⟨.inside .block place [] false, place.after d.blockStart, rest.drop d.blockStart.length⟩⟩) ∧
    (d.TagHere Delimiters.rawWord rest → ∃ w, d.LongestTag Delimiters.rawWord rest w ∧
      let inner := rest.drop w.length
      (∀ k, d.FirstTag Delimiters.endRawWord inner k →
        ∃ v, d.LongestTag Delimiters.endRawWord (inner.drop k) v ∧
          let tokens := before ++ Scan.dataTokens (place.after w) (inner.take k)
          s.step d filename =
            .ok ⟨tokens, some ⟨.outside, place.after (w ++ (inner.take k ++ v)), inner.drop (k + v.length)⟩⟩ ∧
          ∀ ts, Scan.tokensFrom d env.isSound filename s₀ = .ok ts → tokens <:+: ts) ∧
      ((∃ e, Scan.tokensFrom d env.isSound filename s₀ = .error e ∧ e.id.code = ("KILN-L003" : Text) ∧
          e.location = some place) ↔ ∀ k, ¬d.TagHere Delimiters.endRawWord (inner.drop k))) := by
  intro d place before
  have hcode : ("KILN-L003" : Text) = ErrorId.unclosedTag.code := rfl
  simp only [hcode, ErrorId.code_eq_code_iff]
  refine ⟨⟨Scan.step_block hblock, fun hstep hraw => ?_⟩, fun hraw => ?_⟩
  · obtain ⟨w, hw⟩ := hraw.exists_longestTag Delimiters.rawWord_plain
    -- a raw tag leads outside of tags again, or nowhere
    have hunclosed : ∀ k, ¬d.TagHere Delimiters.endRawWord ((rest.drop w.length).drop k) := fun k hk => by
      obtain ⟨j, hj⟩ := Delimiters.exists_firstTag hk
      obtain ⟨v, hv⟩ := hj.1.exists_longestTag Delimiters.endRawWord_plain
      have hnext := congrArg Scan.Step.next (Except.ok.inj (hstep.symm.trans (Scan.step_raw hblock hw hj hv)))
      cases hnext
    cases hstep.symm.trans (Scan.step_raw_unclosed hblock hw hunclosed)
  · obtain ⟨w, hw⟩ := hraw.exists_longestTag Delimiters.rawWord_plain
    refine ⟨w, hw, fun k hk => ?_, ?_⟩
    · obtain ⟨v, hv⟩ := hk.1.exists_longestTag Delimiters.endRawWord_plain
      have hstep : s.step d filename = _ := Scan.step_raw hblock hw hk hv
      exact ⟨v, hv, hstep, fun ts hts => hreach.tokens env.isSound hstep hts⟩
    · exact hreach.unclosed_raw_iff env.isSound hblock hw

/-- Delimiters of which one is a blank: both tags take all blanks but the last, which closes them. A start delimiter,
another raw tag and a quote in the block are its text; and a block without an end is reported. -/
theorem Environment.raw_blocks_verbatim_blank_end :
    let env : Environment := ⟨⟨"(.*", " ", "\x7b\x7b", "\x7d\x7d", "\x7b#", "#\x7d"⟩, [], by decide, rfl⟩
    let d := env.delimiters
    let source : Text := "a(.*raw   \x7b\x7b (.*raw \"(.*endraw  b"
    d.LongestTag Delimiters.rawWord (source.drop 1) "(.*raw   " ∧
      d.FirstTag Delimiters.endRawWord (source.drop 10) 11 ∧
      Scan.State.step d none ⟨.outside, .origin, source⟩ =
        .ok ⟨[⟨.data, "a", ⟨.origin, ⟨1, 2, 1⟩⟩⟩, ⟨.data, "\x7b\x7b (.*raw \"", ⟨⟨1, 11, 10⟩, ⟨1, 22, 21⟩⟩⟩],
          some ⟨.outside, ⟨1, 33, 32⟩, "b"⟩⟩ ∧
      ∃ e, env.tokens none "(.*raw  x" = .error e ∧ e.id.code = ("KILN-L003" : Text) ∧ e.location = some .origin := by
  intro env d source
  have longest {word t r : Text} (hword : Delimiters.Plain word) (h : d.afterWordTag word t = some r) (w : Text)
      (hw : t = w ++ r) : d.LongestTag word t w := by
    obtain ⟨w', hw', hsplit⟩ := Delimiters.longestTag_of_afterWordTag hword h
    rwa [List.append_cancel_right (hw.symm.trans hsplit)]
  have htag : d.LongestTag Delimiters.rawWord (source.drop 1) "(.*raw   " :=
    longest (r := source.drop 10) Delimiters.rawWord_plain (by decide +kernel) _ (by decide +kernel)
  have hend : d.LongestTag Delimiters.endRawWord ((source.drop 10).drop 11) "(.*endraw  " :=
    longest (r := source.drop 32) Delimiters.endRawWord_plain (by decide +kernel) _ (by decide +kernel)
  have hfirst : d.FirstTag Delimiters.endRawWord (source.drop 10) 11 := by
    have hbefore : ∀ j < 11, d.afterWordTag Delimiters.endRawWord ((source.drop 10).drop j) = none := by
      decide +kernel
    exact ⟨⟨_, hend.tag, hend.here⟩,
      fun j hj => (Delimiters.afterWordTag_eq_none_iff Delimiters.endRawWord_plain).1 (hbefore j hj)⟩
  refine ⟨htag, hfirst, ?_, ?_⟩
  · have hopens : Scan.State.AtBlock d ⟨.outside, .origin, source⟩ "a" (source.drop 1) :=
      ⟨rfl, by decide +kernel, by decide +kernel⟩
    obtain ⟨w, hw, hblock, -⟩ := (Environment.raw_blocks_verbatim env none .here hopens).2 ⟨_, htag.tag, htag.here⟩
    obtain rfl := hw.eq htag
    obtain ⟨v, hv, hstep, -⟩ := hblock 11 hfirst
    obtain rfl := hv.eq hend
    exact hstep
  · have htag' : d.LongestTag Delimiters.rawWord "(.*raw  x" "(.*raw  " :=
      longest (r := "x") Delimiters.rawWord_plain (by decide +kernel) _ (by decide +kernel)
    have hopens : Scan.State.AtBlock d ⟨.outside, .origin, "(.*raw  x"⟩ [] "(.*raw  x" :=
      ⟨rfl, by decide +kernel, by decide +kernel⟩
    obtain ⟨w, hw, -, hunclosed⟩ :=
      (Environment.raw_blocks_verbatim env none .here hopens).2 ⟨_, htag'.tag, htag'.here⟩
    obtain rfl := hw.eq htag'
    have hnone : d.splitRaw "x" = none := by decide +kernel
    exact hunclosed.2 (Delimiters.splitRaw_eq_none_iff.1 hnone)

end Stencil
