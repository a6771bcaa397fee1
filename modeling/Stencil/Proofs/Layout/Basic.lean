/-
How a source is laid out. `Scan.Layout` says that a text, from a place on, is cut into tokens and what
stands between them: white space inside of tags, comments, and the tags around raw blocks. A scan that
succeeds gives the tokens of such a layout (`tokensFrom_layout`).
-/
import Stencil.Proofs.Layout.Written
import Stencil.Proofs.Progress.Scan

namespace Stencil.Scan

/-! ## Layouts -/

/-- Where a piece of a source stands. -/
inductive Zone
  | outside
  | inside (tag : Tag)
  /-- In an expression without a tag around it. -/
  | bare
deriving DecidableEq

namespace Zone

/-- Where a source goes on behind a token of a kind; nowhere if the token cannot stand there. -/
def behind : Zone → TokenKind → Option Zone
  | outside, .data => some outside
  | outside, .variableBegin => some (inside .interpolation)
  | outside, .blockBegin => some (inside .block)
  | outside, _ => none
  | inside tag, k => if k = tag.endKind then some outside
      else if k.inExpression then some (inside tag) else none
  | bare, k => if k.inExpression then some bare else none

/-- A source may end there. -/
def mayEnd : Zone → Bool
  | inside _ => false
  | _ => true

end Zone

def Mode.zone : Mode → Zone
  | .outside => .outside
  | .inside tag _ _ _ => .inside tag
  | .bare _ => .bare

/-- A text that begins at a place in some zone is laid out as tokens. -/
inductive Layout (d : Delimiters) : Zone → Location → Text → List Token → Prop
  | finish {z : Zone} (l : Location) (hz : z.mayEnd = true) : Layout d z l [] [Token.atEnd l]
  | token {z z' : Zone} {l : Location} {w rest : Text} {t : Token} {ts : List Token}
      (hz : z.behind t.kind = some z') (hw : w ≠ []) (hv : t.kind.Writes t.value w)
      (hs : t.span = ⟨l, l.after w⟩) (h : Layout d z' (l.after w) rest ts) :
      Layout d z l (w ++ rest) (t :: ts)
  | spacing {z : Zone} {l : Location} {w rest : Text} {ts : List Token} (hz : z ≠ .outside)
      (hw : w.all Text.isSpacing = true) (h : Layout d z (l.after w) rest ts) : Layout d z l (w ++ rest) ts
  /-- A comment ends with the first closing delimiter behind its opening one. -/
  | comment {l : Location} {w body rest : Text} {ts : List Token}
      (ho : d.opener? (w ++ rest) = some .comment) (hw : w = d.commentStart ++ body ++ d.commentEnd)
      (hfirst : ∀ k < body.length, ¬d.commentEnd <+: (body ++ d.commentEnd ++ rest).drop k)
      (h : Layout d .outside (l.after w) rest ts) : Layout d .outside l (w ++ rest) ts
  /-- A raw block ends with the first tag that can end it; what stands between its tags is data. -/
  | raw {l : Location} {w body v rest : Text} {ts : List Token}
      (ho : d.opener? (w ++ (body ++ v) ++ rest) = some .block) (hw : d.WordTag Delimiters.rawWord w)
      (hv : d.WordTag Delimiters.endRawWord v)
      (hfirst : ∀ k < body.length, ∀ v', d.WordTag Delimiters.endRawWord v' →
        ¬v' <+: (body ++ v ++ rest).drop k)
      (h : Layout d .outside (l.after (w ++ (body ++ v))) rest ts) :
      Layout d .outside l (w ++ (body ++ v) ++ rest) (dataTokens (l.after w) body ++ ts)

theorem mem_dataTokens {l : Location} {text : Text} {t : Token} :
    t ∈ dataTokens l text ↔ text ≠ [] ∧ t = ⟨.data, text, ⟨l, l.after text⟩⟩ := by
  unfold dataTokens
  split
  · rename_i hnil
    exact iff_of_false List.not_mem_nil fun h => h.1 hnil
  · rename_i hne
    rw [List.mem_singleton, and_iff_right hne]

/-! ## One step -/

/-- The tokens of a step lay out a text together with those behind the step, which begin where the text
that they come from begins. -/
def Step.Lays (r : Step) (d : Delimiters) (z : Zone) (l : Location) (text : Text) : Prop :=
  match r.next with
  | some s => (∃ w, text = w ++ s.rest ∧ s.place = l.after w) ∧
      ∀ ts, Layout d s.mode.zone s.place s.rest ts → Layout d z l text (r.tokens ++ ts)
  | none => Layout d z l text r.tokens

variable {d : Delimiters} {filename : Option Text} {z : Zone} {l : Location} {w rest : Text} {r : Step}

theorem take_lays {kind : TokenKind} {value : Text} {mode : Mode} (hne : w ≠ [])
    (hz : z.behind kind = some mode.zone) (hv : kind.Writes value w) (h : w <+: rest) :
    (take kind value w mode l rest).Lays d z l rest := by
  obtain ⟨u, rfl⟩ := h
  have hdrop : (w ++ u).drop w.length = u := List.drop_left
  refine ⟨⟨w, by rw [hdrop], rfl⟩, fun ts hts => ?_⟩
  rw [hdrop] at hts
  exact .token hz hne hv rfl hts

theorem Step.Lays.spacing (hz : z ≠ .outside) (hw : w.all Text.isSpacing = true)
    (h : r.Lays d z (l.after w) rest) : r.Lays d z l (w ++ rest) := by
  unfold Step.Lays at h ⊢
  cases hn : r.next with
  | some s =>
    rw [hn] at h
    obtain ⟨⟨v, rfl, hplace⟩, hlay⟩ := h
    refine ⟨⟨w ++ v, (List.append_assoc ..).symm, by rw [Location.after_append, hplace]⟩, fun ts hts => ?_⟩
    exact .spacing hz hw (hlay ts hts)
  | none =>
    rw [hn] at h
    exact .spacing hz hw h

theorem Layout.data {text : Text} {ts : List Token} (h : Layout d .outside (l.after text) rest ts) :
    Layout d .outside l (text ++ rest) (dataTokens l text ++ ts) := by
  unfold dataTokens
  split
  · rename_i hnil
    subst hnil
    exact h
  · rename_i hne
    exact .token rfl hne rfl rfl h

theorem Step.Lays.data {text : Text} (h : r.Lays d .outside (l.after text) rest) :
    Step.Lays { r with tokens := dataTokens l text ++ r.tokens } d .outside l (text ++ rest) := by
  unfold Step.Lays at h ⊢
  cases hn : r.next with
  | some s =>
    rw [hn] at h
    obtain ⟨⟨v, rfl, hplace⟩, hlay⟩ := h
    refine ⟨⟨text ++ v, (List.append_assoc ..).symm, by rw [Location.after_append, hplace]⟩,
      fun ts hts => ?_⟩
    rw [List.append_assoc]
    exact (hlay ts hts).data
  | none =>
    rw [hn] at h
    exact h.data

theorem lexemeStep_lays {mode : TokenKind → Mode} {afterDot : Bool}
    (hz : ∀ k, k.inExpression = true → z.behind k = some (mode k).zone)
    (h : lexemeStep filename mode afterDot l rest = .ok r) : r.Lays d z l rest := by
  unfold lexemeStep at h
  split at h
  · rename_i x hx
    cases h
    obtain ⟨hv, hk⟩ := Lexeme.read_writes hx
    obtain ⟨u, hu⟩ := Lexeme.read_written hx
    exact take_lays x.written_ne (hz _ hk) hv ⟨u, hu.symm⟩
  · cases h

theorem openerStep_lays (hd : d.Sound) (hrest : d.opener? rest = none → rest = [])
    (h : openerStep d filename l rest (d.opener? rest) = .ok r) : r.Lays d .outside l rest := by
  cases ho : d.opener? rest with
  | none =>
    rw [ho] at h
    cases h
    rw [hrest ho]
    exact .finish l rfl
  | some o =>
    obtain ⟨u, hu⟩ := Text.startsWith_iff.1 (Delimiters.startsWith_of_opener? ho)
    have hne := Delimiters.start_ne_nil hd o
    rw [ho] at h
    cases o with
    | interpolation => cases h; exact take_lays hne rfl rfl ⟨u, hu.symm⟩
    | comment =>
      simp only [openerStep] at h
      split at h
      · rename_i body after hb
        cases h
        have hcut : (d.start .comment ++ u).drop d.commentStart.length = u := List.drop_left
        rw [hu, hcut] at hb
        have hfirst (k : Nat) (hk : k < body.length) := Text.splitAtFirst_first hb hk
        rw [Text.splitAtFirst_eq hb] at hu hfirst
        have hw : rest = d.commentStart ++ body ++ d.commentEnd ++ after := by
          rw [hu]
          simp only [Delimiters.start, List.append_assoc]
        subst hw
        refine ⟨⟨_, rfl, Location.upTo_append ..⟩, fun ts hts => ?_⟩
        rw [Location.upTo_append] at hts
        exact .comment ho rfl hfirst hts
      · cases h
    | block =>
      simp only [openerStep] at h
      split at h
      · rename_i inner hi
        obtain ⟨w, hw, rfl⟩ := Delimiters.afterWordTag_written hi
        split at h
        · rename_i body after hb
          cases h
          obtain ⟨v, hv, rfl, hfirst⟩ := Delimiters.splitRaw_written hb
          have hwhole : w ++ (body ++ v ++ after) = w ++ (body ++ v) ++ after := by
            simp only [List.append_assoc]
          rw [Location.upTo_append, hwhole, Location.upTo_append]
          refine ⟨⟨_, rfl, rfl⟩, fun ts hts => ?_⟩
          exact .raw (hwhole ▸ ho) hw hv hfirst hts
        · cases h
      · cases h; exact take_lays hne rfl rfl ⟨u, hu.symm⟩

theorem step_lays (hd : d.Sound) {s : State} (h : s.step d filename = .ok r) :
    r.Lays d s.mode.zone s.place s.rest := by
  have hspacing : s.rest.takeWhile Text.isSpacing ++ s.rest.dropWhile Text.isSpacing = s.rest :=
    List.takeWhile_append_dropWhile
  unfold State.step at h
  split at h
  · rename_i hm
    simp only at h
    cases ho : openerStep d filename (s.place.after (d.splitData s.rest).1) (d.splitData s.rest).2
        (d.opener? (d.splitData s.rest).2) with
    | error e => rw [ho] at h; cases h
    | ok r' =>
      rw [ho] at h
      cases h
      have hnone : d.opener? (d.splitData s.rest).2 = none → (d.splitData s.rest).2 = [] := by
        intro hn
        rcases opener?_splitData d s.rest with hs | hs
        · exact hs
        · rw [hn] at hs; cases hs
      have hlays := (openerStep_lays hd hnone ho).data
      rw [d.splitData_append] at hlays
      rw [hm]
      exact hlays
  · rename_i tag opened closers afterDot hm
    simp only at h
    rw [hm, ← hspacing]
    split at h
    · cases h
    · refine Step.Lays.spacing nofun List.all_takeWhile ?_
      split at h
      · rename_i hc
        cases h
        obtain ⟨u, hu⟩ := Text.startsWith_iff.1 hc.2
        have hne : tag.close d ≠ [] := by
          cases tag
          · exact hd.ne_nil .variableEnd
          · exact hd.ne_nil .blockEnd
        exact take_lays hne (if_pos rfl) (by cases tag <;> rfl) ⟨u, hu.symm⟩
      · refine lexemeStep_lays (fun k hk => ?_) h
        have hnot : k ≠ tag.endKind := by rintro rfl; cases tag <;> cases hk
        show (if k = tag.endKind then _ else if k.inExpression = true then _ else _) = _
        rw [if_neg hnot, if_pos hk]
        rfl
  · rename_i hm
    simp only at h
    rw [hm, ← hspacing]
    refine Step.Lays.spacing nofun List.all_takeWhile ?_
    split at h
    · rename_i hrest
      cases h
      rw [hrest]
      exact .finish _ rfl
    · refine lexemeStep_lays (fun k hk => ?_) h
      show (if k.inExpression = true then some Zone.bare else none) = _
      rw [if_pos hk]
      rfl

/-- A step reads a part of the text: the next one begins behind it. -/
theorem step_reads (hd : d.Sound) {s s' : State} (h : s.step d filename = .ok r) (hs : r.next = some s') :
    ∃ w, s.rest = w ++ s'.rest ∧ s'.place = s.place.after w := by
  have hlays := step_lays hd h
  unfold Step.Lays at hlays
  rw [hs] at hlays
  exact hlays.1

/-! ## The whole scan -/

/-- What a scan gives is a layout of the text it has read. -/
theorem tokensFrom_layout (hd : d.Sound) {s : State} {ts : List Token}
    (h : tokensFrom d hd filename s = .ok ts) : Layout d s.mode.zone s.place s.rest ts := by
  fun_induction tokensFrom d hd filename s generalizing ts with
  | case1 => cases h
  | case2 s r hr hn =>
    cases h
    have hlays := step_lays hd hr
    unfold Step.Lays at hlays
    rwa [hn] at hlays
  | case3 s r hr s' hn ih =>
    have hlays := step_lays hd hr
    unfold Step.Lays at hlays
    rw [hn] at hlays
    cases hrest : tokensFrom d hd filename s' with
    | error e => rw [hrest] at h; cases h
    | ok us =>
      rw [hrest] at h
      cases h
      exact hlays.2 us (ih hrest)

end Stencil.Scan
