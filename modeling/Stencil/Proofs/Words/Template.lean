/-
The words that the tokens of a template form: data and tags in any order, and the end of the source. What
stands inside of a tag is spelled as its kinds want it and leaves no bracket open. Every scan that succeeds
gives such a word (`tokens_form_word`), whatever the delimiters are.
-/
import Stencil.Environment.Read
import Stencil.Proofs.Progress.Scan
import Stencil.Proofs.Words.Brackets
import Stencil.Proofs.Words.Spelling

namespace Stencil

namespace Scan

/-- What stands between the begin and the end of a tag. -/
structure Inner (ts : List Token) : Prop where
  inExpression : ∀ t ∈ ts, t.kind.inExpression = true
  contents : Contents false (ts.map Token.content)
  brackets : Tracks [] (ts.map Token.kind) []

/-- The words of templates. -/
inductive Word : List Token → Prop
  | finish {t : Token} (hk : t.kind = .eof) : Word [t]
  | data {t : Token} {ts : List Token} (hk : t.kind = .data) (hv : t.value ≠ []) (h : Word ts) : Word (t :: ts)
  | tag (tag : Tag) {b e : Token} {inner ts : List Token} (hb : b.kind = tag.beginKind) (hi : Inner inner)
      (he : e.kind = tag.endKind) (h : Word ts) : Word (b :: (inner ++ e :: ts))

/-- What may follow in a mode: a word outside of tags, the rest of a tag inside of one, and in a bare
expression tokens up to the end of the source. -/
def Mode.Continues : Mode → List Token → Prop
  | .outside, ts => Word ts
  | .inside tag _ closers afterDot, ts => ∃ inner e rest, ts = inner ++ e :: rest ∧
      Contents afterDot (inner.map Token.content) ∧ (inner.map Token.kind).foldl trackBrackets closers = [] ∧
      e.kind = tag.endKind ∧ Word rest
  | .bare afterDot, ts => ∃ inner e, ts = inner ++ [e] ∧ Contents afterDot (inner.map Token.content) ∧
      e.kind = .eof

theorem Word.tag_of_continues {tag : Tag} {opened : Location} {b : Token} {ts : List Token}
    (hb : b.kind = tag.beginKind) (h : (Mode.inside tag opened [] false).Continues ts) : Word (b :: ts) := by
  obtain ⟨inner, e, rest, rfl, hinner, hclosed, he, hrest⟩ := h
  have hbrackets := foldl_tracks Closers.nil (inner.map Token.kind)
  rw [hclosed] at hbrackets
  refine .tag tag hb ⟨fun t ht => ?_, hinner, hbrackets⟩ he hrest
  exact hinner.inExpression t.content (List.mem_map_of_mem ht)

theorem Word.behind_data {ts : List Token} (h : Word ts) (place : Location) (text : Text) :
    Word (dataTokens place text ++ ts) := by
  unfold dataTokens
  split
  · exact h
  · rename_i hne
    exact .data rfl hne h

/-! ## One step -/

/-- The tokens of a step, with any that may follow in the mode behind it, may follow in a mode. -/
def Step.Forms (r : Step) (m : Mode) : Prop :=
  match r.next with
  | some s => ∀ ts, s.mode.Continues ts → m.Continues (r.tokens ++ ts)
  | none => m.Continues r.tokens

variable {d : Delimiters} {filename : Option Text} {place : Location} {rest : Text} {r : Step}

theorem Step.Forms.behind_data (h : r.Forms .outside) (place : Location) (text : Text) :
    Step.Forms { r with tokens := dataTokens place text ++ r.tokens } .outside := by
  unfold Step.Forms at h ⊢
  cases hn : r.next with
  | some s =>
    simp only [hn] at h ⊢
    intro ts hts
    rw [List.append_assoc]
    exact (h ts hts).behind_data place text
  | none =>
    simp only [hn] at h ⊢
    exact h.behind_data place text

theorem openerStep_forms {o : Option Delimiters.Opener} (h : openerStep d filename place rest o = .ok r) :
    r.Forms .outside := by
  cases o with
  | none => cases h; exact .finish rfl
  | some o =>
    cases o with
    | interpolation => cases h; exact fun ts hts => .tag_of_continues rfl hts
    | comment =>
      simp only [openerStep] at h
      split at h
      · cases h; exact fun ts hts => hts
      · cases h
    | block =>
      simp only [openerStep] at h
      split at h
      · split at h
        · cases h; exact fun ts hts => hts.behind_data _ _
        · cases h
      · cases h; exact fun ts hts => .tag_of_continues rfl hts

/-- A token that is read stands before what may follow behind it. -/
theorem lexemeStep_forms {m : Mode} {mode : TokenKind → Mode} {afterDot : Bool}
    (hm : ∀ t ts, t.kind.Spells t.value → (afterDot = true → t.kind ≠ .float) → (mode t.kind).Continues ts →
      m.Continues (t :: ts))
    (h : lexemeStep filename mode afterDot place rest = .ok r) : r.Forms m := by
  unfold lexemeStep at h
  split at h
  · rename_i l hl
    cases h
    obtain ⟨hv, hdot⟩ := Lexeme.read_spells hl
    exact fun ts hts => hm ⟨l.kind, l.value, _⟩ ts hv hdot hts
  · cases h

theorem step_forms {s : State} (h : s.step d filename = .ok r) : r.Forms s.mode := by
  unfold State.step at h
  split at h
  · rename_i hm
    rw [hm]
    simp only at h
    cases ho : openerStep d filename (s.place.after (d.splitData s.rest).1) (d.splitData s.rest).2
        (d.opener? (d.splitData s.rest).2) with
    | error e => rw [ho] at h; cases h
    | ok r' =>
      rw [ho] at h
      cases h
      exact (openerStep_forms ho).behind_data _ _
  · rename_i tag opened closers afterDot hm
    rw [hm]
    simp only at h
    split at h
    · cases h
    · split at h
      · rename_i hclose
        cases h
        exact fun ts hts => ⟨[], _, ts, rfl, .nil _, hclose.1, rfl, hts⟩
      · refine lexemeStep_forms (fun t ts hv hdot hts => ?_) h
        obtain ⟨inner, e, rest, rfl, hinner, hclosed, he, hrest⟩ := hts
        exact ⟨t :: inner, e, rest, rfl, .cons hv hdot hinner, hclosed, he, hrest⟩
  · rename_i afterDot hm
    rw [hm]
    simp only at h
    split at h
    · cases h; exact ⟨[], _, rfl, .nil _, rfl⟩
    · refine lexemeStep_forms (fun t ts hv hdot hts => ?_) h
      obtain ⟨inner, e, rfl, hinner, he⟩ := hts
      exact ⟨t :: inner, e, rfl, .cons hv hdot hinner, he⟩

/-! ## The whole scan -/

/-- The tokens from a state on may follow in its mode. -/
theorem tokensFrom_continues (hd : d.Sound) {s : State} {ts : List Token}
    (h : tokensFrom d hd filename s = .ok ts) : s.mode.Continues ts := by
  fun_induction tokensFrom d hd filename s generalizing ts with
  | case1 => cases h
  | case2 s r hr hn =>
    cases h
    have hforms := step_forms hr
    unfold Step.Forms at hforms
    rwa [hn] at hforms
  | case3 s r hr s' hn ih =>
    have hforms := step_forms hr
    unfold Step.Forms at hforms
    rw [hn] at hforms
    cases hrest : tokensFrom d hd filename s' with
    | error e => rw [hrest] at h; cases h
    | ok us =>
      rw [hrest] at h
      cases h
      exact hforms us (ih hrest)

end Scan

/-- The tokens of a template form a word. -/
theorem Environment.tokens_form_word (env : Environment) {filename : Option Text} {source : Text}
    {ts : List Token} (h : env.tokens filename source = .ok ts) : Scan.Word ts :=
  Scan.tokensFrom_continues env.isSound h

/-- A closing delimiter that is itself a bracket does not end the tag while that bracket is awaited. -/
theorem Environment.tokens_form_word_bracket_delimiter :
    let env : Environment :=
      ⟨{ Delimiters.standard with variableStart := "[[", variableEnd := "]" }, [], by decide, rfl⟩
    ∃ ts, env.tokens none "x[[ a[0.5].1.2 ]" = .ok ts ∧
      ts.map Token.kind = [.data, .variableBegin, .name, .symbol .openBracket, .float, .symbol .closeBracket,
        .symbol .dot, .integer, .symbol .dot, .integer, .variableEnd, .eof] ∧
      Scan.Word ts := by
  intro env
  have hread : (Scan.tokensWithin env.delimiters none 17 ⟨.outside, .origin, "x[[ a[0.5].1.2 ]"⟩).any
      (fun scan => scan.toOption.any fun ts => decide (ts.map Token.kind =
        [.data, .variableBegin, .name, .symbol .openBracket, .float, .symbol .closeBracket,
          .symbol .dot, .integer, .symbol .dot, .integer, .variableEnd, .eof])) = true := by decide +kernel
  obtain ⟨scan, hscan, hread⟩ := (Option.any_eq_true ..).1 hread
  cases scan with
  | error e => cases hread
  | ok ts =>
    have h : env.tokens none "x[[ a[0.5].1.2 ]" = .ok ts :=
      Scan.tokensFrom_of_within env.isSound (by decide +kernel) hscan
    exact ⟨ts, h, of_decide_eq_true hread, env.tokens_form_word h⟩

end Stencil
