/-
Where data ends. Outside of tags a scan takes the text up to the first offset at which a start delimiter stands, and
begins what the longest one there begins (`Environment.data_ends_at_opener`). Of sound delimiters the longest one at the
head of a text is one only, and the first that fits in any list of the openers by length (`Delimiters.find?_longest`).
-/
import Stencil.Proofs.Layout.Closing
import Stencil.Proofs.Layout.Cover
import Stencil.Proofs.Progress.Reached

namespace Stencil

/-! ## The longest start delimiter -/

namespace Delimiters

variable {d : Delimiters} {a b o : Opener} {os : List Opener} {t : Text} {k : Nat}

/-- A start delimiter stands at the head of a text, and none that is longer. -/
structure Longest (d : Delimiters) (t : Text) (o : Opener) : Prop where
  here : d.start o <+: t
  longest : ∀ a, d.start a <+: t → (d.start a).length ≤ (d.start o).length

theorem opener?_eq_some_iff (hd : d.Sound) : d.opener? t = some o ↔ d.Longest t o := by
  constructor
  · intro h
    refine ⟨Text.startsWith_iff_isPrefix.1 (startsWith_of_opener? h), fun a ha => ?_⟩
    obtain ⟨b, hb, hle⟩ := exists_opener? (Text.startsWith_iff_isPrefix.2 ha)
    obtain rfl := Option.some.inj (hb.symm.trans h)
    exact hle
  · rintro ⟨hhere, hlongest⟩
    exact opener?_of_longest hd hhere fun a hlt ha => Nat.not_lt_of_le (hlongest a ha) hlt

theorem opener?_eq_none_iff : d.opener? t = none ↔ ∀ a, ¬d.start a <+: t := by
  constructor
  · intro h a ha
    obtain ⟨b, hb, -⟩ := exists_opener? (Text.startsWith_iff_isPrefix.2 ha)
    rw [hb] at h
    cases h
  · intro h
    cases ho : d.opener? t with
    | none => rfl
    | some o => exact absurd (Text.startsWith_iff_isPrefix.1 (startsWith_of_opener? ho)) (h o)

theorem Longest.unique (hd : d.Sound) (ha : d.Longest t a) (hb : d.Longest t b) : a = b :=
  Option.some.inj (((opener?_eq_some_iff hd).2 ha).symm.trans ((opener?_eq_some_iff hd).2 hb))

/-- The first opener that fits in a list of all by the lengths of their delimiters, the longest first, is the one with
the longest delimiter. -/
theorem find?_longest (hall : ∀ a, a ∈ os) (hsorted : os.Pairwise fun a b => (d.start b).length ≤ (d.start a).length)
    (hd : d.Sound) : os.find? (fun a => t.startsWith (d.start a)) = d.opener? t := by
  cases hfind : os.find? (fun a => t.startsWith (d.start a)) with
  | none =>
    rw [List.find?_eq_none] at hfind
    exact (opener?_eq_none_iff.2 fun a ha => hfind a (hall a) (Text.startsWith_iff_isPrefix.2 ha)).symm
  | some o =>
    obtain ⟨ho, before, behind, rfl, hbefore⟩ := List.find?_eq_some_iff_append.1 hfind
    refine ((opener?_eq_some_iff hd).2 ⟨Text.startsWith_iff_isPrefix.1 ho, fun a ha => ?_⟩).symm
    rcases List.mem_append.1 (hall a) with hmem | hmem
    · have := hbefore a hmem
      rw [Text.startsWith_iff_isPrefix.2 ha] at this
      cases this
    · rcases List.mem_cons.1 hmem with rfl | hmem
      · exact Nat.le_refl _
      · exact (List.pairwise_cons.1 (List.pairwise_append.1 hsorted).2.1).1 a hmem

/-- The openers by the lengths of their delimiters, the longest first. -/
def byLength (d : Delimiters) (os : List Opener) : List Opener :=
  os.mergeSort fun a b => (d.start b).length ≤ (d.start a).length

/-- In whatever order the openers come, sorted by length the first that fits is the longest. -/
theorem find?_byLength (hall : ∀ a, a ∈ os) (hd : d.Sound) :
    (d.byLength os).find? (fun a => t.startsWith (d.start a)) = d.opener? t := by
  refine find?_longest (fun a => List.mem_mergeSort.2 (hall a)) ?_ hd
  refine (List.pairwise_mergeSort (fun a b c hab hbc => ?_) (fun a b => ?_) os).imp of_decide_eq_true
  · rw [decide_eq_true_eq] at hab hbc ⊢
    exact hbc.trans hab
  · rw [Bool.or_eq_true, decide_eq_true_eq, decide_eq_true_eq]
    exact Nat.le_total _ _

/-- In front of the text that is left no start delimiter stands. -/
theorem opener?_drop_splitData (h : k < (d.splitData t).1.length) : d.opener? (t.drop k) = none := by
  induction t generalizing k with
  | nil => cases h
  | cons c t ih =>
    rw [splitData] at h
    split at h
    · cases h
    · rename_i hnone
      cases k with
      | zero => exact Option.not_isSome_iff_eq_none.1 hnone
      | succ k => exact ih (Nat.lt_of_succ_lt_succ h)

end Delimiters

/-- No occurrence is found just if there is none. -/
theorem Text.splitAtFirst_eq_none_iff {mark t : Text} : splitAtFirst mark t = none ↔ ∀ k, ¬mark <+: t.drop k := by
  have hhere (t : Text) : after? mark t = none ↔ ¬mark <+: t := by
    rw [← Text.startsWith_iff_isPrefix, startsWith, Bool.not_eq_true, Option.isSome_eq_false_iff,
      Option.isNone_iff_eq_none]
  induction t with
  | nil =>
    rw [splitAtFirst, Option.map_eq_none_iff, hhere]
    exact ⟨fun h k => by rwa [List.drop_nil], fun h => h 0⟩
  | cons c t ih =>
    rw [splitAtFirst]
    constructor
    · intro h
      split at h
      · cases h
      · rename_i hnone
        rintro (- | k)
        · exact (hhere _).1 hnone
        · exact ih.1 (Option.map_eq_none_iff.1 h) k
    · intro h
      rw [(hhere (c :: t)).2 (h 0)]
      exact Option.map_eq_none_iff.2 (ih.2 fun k => h (k + 1))

namespace Scan

open Delimiters (Opener rawWord endRawWord)

variable {d : Delimiters} {filename : Option Text} {source rest : Text} {o : Opener} {s₀ s : State} {m n p : Nat}

/-! ## What a start delimiter begins -/

/-- What the steps are from a start delimiter on: into a tag, behind a comment or a raw block, or the report that one of
these two is not closed. -/
inductive Begun (d : Delimiters) (filename : Option Text) (l : Location) (rest : Text) :
    Opener → Except Diagnostic Step → Prop
  | interpolation : Begun d filename l rest .interpolation
      (.ok (take .variableBegin d.variableStart d.variableStart (.inside .interpolation l [] false) l rest))
  | block (hraw : ¬d.TagHere rawWord rest) : Begun d filename l rest .block
      (.ok (take .blockBegin d.blockStart d.blockStart (.inside .block l [] false) l rest))
  | raw {w v : Text} {k : Nat} (hw : d.LongestTag rawWord rest w) (hk : d.FirstTag endRawWord (rest.drop w.length) k)
      (hv : d.LongestTag endRawWord ((rest.drop w.length).drop k) v) : Begun d filename l rest .block
      (.ok ⟨dataTokens (l.after w) ((rest.drop w.length).take k), some ⟨.outside,
        l.after (w ++ ((rest.drop w.length).take k ++ v)), (rest.drop w.length).drop (k + v.length)⟩⟩)
  | rawUnclosed {w : Text} (hw : d.LongestTag rawWord rest w)
      (hnone : ∀ k, ¬d.TagHere endRawWord ((rest.drop w.length).drop k)) : Begun d filename l rest .block
      (.error (unclosed filename "raw block" (d.blockStart ++ " endraw " ++ d.blockEnd) l))
  | comment {body behind : Text} (hrest : rest = d.commentStart ++ body ++ d.commentEnd ++ behind)
      (hfirst : ∀ k < body.length, ¬d.commentEnd <+: (body ++ d.commentEnd ++ behind).drop k) :
      Begun d filename l rest .comment
        (.ok ⟨[], some ⟨.outside, l.after (d.commentStart ++ body ++ d.commentEnd), behind⟩⟩)
  | commentUnclosed (hnone : ∀ k, ¬d.commentEnd <+: (rest.drop d.commentStart.length).drop k) :
      Begun d filename l rest .comment (.error (unclosed filename "comment" d.commentEnd l))

theorem begun_block (h : d.opener? rest = some .block) (filename : Option Text) (l : Location) :
    Begun d filename l rest .block (openerStep d filename l rest (some .block)) := by
  have hat : State.AtBlock d ⟨.outside, l, rest⟩ [] rest := ⟨rfl, splitData_opener h, h⟩
  rw [← step_opener filename h]
  by_cases hraw : d.TagHere rawWord rest
  · obtain ⟨w, hw⟩ := hraw.exists_longestTag Delimiters.rawWord_plain
    by_cases hend : ∃ k, d.TagHere endRawWord ((rest.drop w.length).drop k)
    · obtain ⟨j, hj⟩ := hend
      obtain ⟨k, hk⟩ := Delimiters.exists_firstTag hj
      obtain ⟨v, hv⟩ := hk.1.exists_longestTag Delimiters.endRawWord_plain
      rw [step_raw hat hw hk hv]
      exact .raw hw hk hv
    · have hnone := not_exists.1 hend
      rw [step_raw_unclosed hat hw hnone]
      exact .rawUnclosed hw hnone
  · rw [step_block hat hraw]
    exact .block hraw

theorem begun_comment (h : d.start .comment <+: rest) (filename : Option Text) (l : Location) :
    Begun d filename l rest .comment (openerStep d filename l rest (some .comment)) := by
  obtain ⟨inner, rfl⟩ := h
  have hcut : (d.start .comment ++ inner).drop d.commentStart.length = inner := List.drop_left
  simp only [openerStep, hcut]
  split
  · rename_i body behind hbody
    have hfirst (k : Nat) (hk : k < body.length) := Text.splitAtFirst_first hbody hk
    obtain rfl := Text.splitAtFirst_eq hbody
    have hwhole : d.start .comment ++ (body ++ d.commentEnd ++ behind) =
        d.commentStart ++ body ++ d.commentEnd ++ behind := by
      simp only [Delimiters.start, List.append_assoc]
    rw [hwhole, Location.upTo_append]
    exact .comment rfl hfirst
  · rename_i hnone
    refine .commentUnclosed ?_
    rw [hcut]
    exact Text.splitAtFirst_eq_none_iff.1 hnone

/-- What is begun where a start delimiter is found is what that delimiter begins. -/
theorem begun_of_opener (h : d.opener? rest = some o) (filename : Option Text) (l : Location) :
    Begun d filename l rest o (openerStep d filename l rest (some o)) := by
  cases o with
  | interpolation => exact .interpolation
  | block => exact begun_block h filename l
  | comment => exact begun_comment (Text.startsWith_iff_isPrefix.1 (Delimiters.startsWith_of_opener? h)) filename l

/-! ## Where data ends -/

/-- Data that begins at one offset ends at another: the least one from there on at which a start delimiter stands, or
the end of the source if none does. -/
structure DataEnds (d : Delimiters) (source : Text) (n p : Nat) : Prop where
  le : n ≤ p
  before : ∀ k, n ≤ k → k < p → ∀ a, ¬d.start a <+: source.drop k
  ends : p = source.length ∨ p < source.length ∧ ∃ a, d.start a <+: source.drop p

theorem DataEnds.le_of (hm : DataEnds d source n m) (hp : DataEnds d source n p) : m ≤ p := by
  by_contra hlt
  rcases hp.ends with rfl | ⟨-, a, ha⟩
  · rcases hm.ends with h | h <;> omega
  · exact hm.before p hp.le (Nat.lt_of_not_le hlt) a ha

theorem DataEnds.unique (hm : DataEnds d source n m) (hp : DataEnds d source n p) : m = p :=
  Nat.le_antisymm (hm.le_of hp) (hp.le_of hm)

/-- The text up to the first start delimiter is the one up to where data ends. -/
theorem dataEnds_splitData (hd : d.Sound) (h : source.Ends rest n) :
    DataEnds d source n (n + (d.splitData rest).1.length) := by
  have hsplit := d.splitData_append rest
  have hends : source.Ends ((d.splitData rest).1 ++ (d.splitData rest).2) n := hsplit.symm ▸ h
  have hlength := hends.behind.length
  refine ⟨Nat.le_add_right .., fun k hk hlt a => ?_, ?_⟩
  · have hdrop : source.drop k = rest.drop (k - n) := by
      rw [← h.drop, List.drop_drop, Nat.add_sub_cancel' hk]
    rw [hdrop]
    exact Delimiters.opener?_eq_none_iff.1 (Delimiters.opener?_drop_splitData (by omega)) a
  · rcases opener?_splitData d rest with hnil | hsome
    · rw [hnil, List.length_nil] at hlength
      exact .inl hlength
    · obtain ⟨o, ho⟩ := Option.isSome_iff_exists.1 hsome
      have hhere := Text.startsWith_iff_isPrefix.1 (Delimiters.startsWith_of_opener? ho)
      have hpos := List.length_pos_iff.2 (Delimiters.start_ne_nil hd o)
      have hle := hhere.length_le
      refine .inr ⟨by omega, o, ?_⟩
      rwa [hends.behind.drop]

/-- A scan that has read the source up to its place still has the rest of it in front. -/
theorem Reaches.ends (h : Reaches d filename s₀ s) (hd : d.Sound) (hs : source.Ends s₀.rest s₀.place.offset) :
    source.Ends s.rest s.place.offset := by
  induction h with
  | here => exact hs
  | step _ hr hn ih =>
    obtain ⟨w, hw, hplace⟩ := step_reads hd hr hn
    rw [hw] at ih
    rw [hplace]
    exact ih.after

/-- The step, with tokens of data in front. -/
def Step.behind (data : List Token) (r : Step) : Step := { r with tokens := data ++ r.tokens }

/-- The step from outside of tags is data and then the step from the start delimiter behind it. -/
theorem step_outside (hs : s.mode = .outside) (filename : Option Text) :
    s.step d filename =
      (openerStep d filename (s.place.after (d.splitData s.rest).1) (d.splitData s.rest).2
        (d.opener? (d.splitData s.rest).2)).map (.behind (dataTokens s.place (d.splitData s.rest).1)) := by
  obtain ⟨mode, place, rest⟩ := s
  obtain rfl : mode = .outside := hs
  rfl

/-- A scan that succeeds gives the data that its step from outside of tags begins with. -/
theorem Reaches.behind_tokens {us ts : List Token} {x : Except Diagnostic Step} (h : Reaches d filename s₀ s)
    (hd : d.Sound) (hr : s.step d filename = x.map (.behind us)) (hts : Scan.tokensFrom d hd filename s₀ = .ok ts) :
    us <:+: ts := by
  cases x with
  | error e => cases (h.error hd hr).symm.trans hts
  | ok r => exact (List.prefix_append us r.tokens).isInfix.trans (h.tokens hd hr hts)

end Scan

/-- Wherever a scan stands outside of tags, it takes the text up to the least offset at which a start delimiter stands,
or else up to the end of the source, as data, which is no token if it is empty. At that offset it begins what the
longest start delimiter there begins; no other is as long, and in whatever order the openers are sorted by length it is
the first that fits. -/
theorem Environment.data_ends_at_opener (env : Environment) (filename : Option Text) (source : Text) {s : Scan.State}
    (hreach : Scan.Reaches env.delimiters filename ⟨.outside, .origin, source⟩ s) (hmode : s.mode = .outside) :
    let d := env.delimiters
    ∃ p, Scan.DataEnds d source s.place.offset p ∧
      let data := source.slice s.place.offset p
      let place := s.place.after data
      let rest : Text := source.drop p
      s.rest = data ++ rest ∧ place.offset = p ∧
      (p = source.length → s.step d filename = .ok ⟨Scan.dataTokens s.place data ++ [Token.atEnd place], none⟩) ∧
      (p < source.length → ∃ o x, d.Longest rest o ∧ (∀ a, d.Longest rest a → a = o) ∧
        (∀ os, (∀ a, a ∈ os) → (d.byLength os).find? (fun a => rest.startsWith (d.start a)) = some o) ∧
        Scan.Begun d filename place rest o x ∧
        s.step d filename = x.map (.behind (Scan.dataTokens s.place data))) ∧
      ∀ ts, env.tokens filename source = .ok ts → Scan.dataTokens s.place data <:+: ts := by
  intro d
  have hd : d.Sound := env.isSound
  have hends : source.Ends s.rest s.place.offset := hreach.ends hd ⟨[], rfl, rfl⟩
  have hp := Scan.dataEnds_splitData hd hends
  have hsplit := d.splitData_append s.rest
  have hstep := Scan.step_outside (d := d) hmode filename
  have hopener := Scan.opener?_splitData d s.rest
  generalize (d.splitData s.rest).1 = text, (d.splitData s.rest).2 = behind at hp hsplit hstep hopener
  rw [← hsplit] at hends
  have hdata : source.slice s.place.offset (s.place.offset + text.length) = text := hends.slice
  have hrest : source.drop (s.place.offset + text.length) = behind := hends.behind.drop
  have hlength := hends.behind.length
  refine ⟨_, hp, ?_⟩
  simp only [hdata, hrest]
  refine ⟨hsplit.symm, Location.offset_after .., fun hend => ?_, fun hlt => ?_, fun ts hts => ?_⟩
  · have hnil : behind = [] := List.length_eq_zero_iff.1 (by omega)
    rw [hstep, hnil, Delimiters.opener?_nil hd]
    rfl
  · have hne : behind ≠ [] := List.length_pos_iff.1 (by omega)
    obtain ⟨o, ho⟩ := Option.isSome_iff_exists.1 (hopener.resolve_left hne)
    have hlongest := (Delimiters.opener?_eq_some_iff hd).1 ho
    refine ⟨o, _, hlongest, fun a ha => ha.unique hd hlongest, fun os hall => ?_,
      Scan.begun_of_opener ho filename _, ?_⟩
    · exact (Delimiters.find?_byLength hall hd).trans ho
    · rw [hstep, ho]
  · exact hreach.behind_tokens hd hstep hts

/-- Start delimiters that begin with one another: the longest one counts, and data ends before it. -/
theorem Environment.data_ends_at_opener_prefixes :
    let env : Environment := ⟨⟨"<", ">", "<%", "%>", "<#", "#>"⟩, [], by decide, rfl⟩
    let source : Text := "ab<% c %>"
    let start : Scan.State := ⟨.outside, .origin, source⟩
    Scan.Reaches env.delimiters none start start ∧ start.mode = .outside ∧
      Scan.DataEnds env.delimiters source 0 2 ∧ env.delimiters.Longest (source.drop 2) .interpolation ∧
      start.step env.delimiters none =
        .ok ⟨[⟨.data, "ab", ⟨.origin, ⟨1, 3, 2⟩⟩⟩, ⟨.variableBegin, "<%", ⟨⟨1, 3, 2⟩, ⟨1, 5, 4⟩⟩⟩],
          some ⟨.inside .interpolation ⟨1, 3, 2⟩ [] false, ⟨1, 5, 4⟩, " c %>"⟩⟩ := by
  intro env source start
  have hreach : Scan.Reaches env.delimiters none start start := .here
  have htwo : Scan.DataEnds env.delimiters source 0 2 := by
    refine ⟨by decide, fun k _ hk a => ?_, .inr ⟨by decide, .block, by decide⟩⟩
    match k with
    | 0 | 1 => cases a <;> decide
  have hlongest : env.delimiters.Longest (source.drop 2) .interpolation :=
    ⟨by decide, fun a _ => by cases a <;> decide⟩
  refine ⟨hreach, rfl, htwo, hlongest, ?_⟩
  obtain ⟨p, hp, -, -, -, hopens, -⟩ := env.data_ends_at_opener none source hreach rfl
  obtain rfl := hp.unique htwo
  obtain ⟨o, x, -, hunique, -, hbegun, hstep⟩ := hopens (by decide)
  obtain rfl := hunique _ hlongest
  cases hbegun
  exact hstep

end Stencil
