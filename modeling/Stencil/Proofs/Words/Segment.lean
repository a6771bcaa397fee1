/-
Scanning undoes writing. A template is written as segments: data, comments, raw blocks, and tags whose
tokens stand one blank apart. Under the standard delimiters the scan of what is written gives the tokens
of the segments again, up to their places (`written_segments_scanned`): each segment is read up to
where it ends, whatever stands behind it (`Segment.scans`).
-/
import Mathlib.Data.List.Chain
import Stencil.Environment.Read
import Stencil.Proofs.Layout.Written
import Stencil.Proofs.Progress.Scan
import Stencil.Proofs.Words.Brackets
import Stencil.Proofs.Words.Draft

namespace Stencil

open Lexeme (Draft)

/-- A part of a template. -/
inductive Segment
  | data (text : Text)
  | comment (text : Text)
  | raw (text : Text)
  | tag (tag : Tag) (inner : List Draft)

namespace Segment

/-- The written form under the standard delimiters. -/
def text : Segment → Text
  | data t => t
  | comment t => "\x7b#" ++ t ++ "#\x7d"
  | raw t => "\x7b% raw %\x7d" ++ t ++ "\x7b% endraw %\x7d"
  | tag g inner =>
    g.start .standard ++ Text.unit ' ' :: (inner.flatMap (·.text ++ [Text.unit ' ']) ++ g.close .standard)

/-- The tokens that it stands for. -/
def contents : Segment → List (TokenKind × Text)
  | data t => [(.data, t)]
  | comment _ => []
  | raw t => if t = [] then [] else [(.data, t)]
  | tag g inner =>
    (g.beginKind, g.start .standard) :: (inner.map Draft.content ++ [(g.endKind, g.close .standard)])

/-- Data has no brace that could begin something else, a comment or raw block no end before its own, and
the tokens of a tag are spelled as their kinds want it and have properly matched brackets. -/
def Valid : Segment → Prop
  | data t => t ≠ [] ∧ Text.unit '\x7b' ∉ t
  | comment t => ¬("#\x7d" : Text) <:+: t
  | raw t => ∀ w, Delimiters.standard.WordTag Delimiters.endRawWord w → ¬w <:+: t
  | tag g inner => Scan.Contents false (inner.map Draft.content) ∧ Scan.Matched (inner.map Draft.kind) ∧
      (g = .block → inner.map Draft.content ≠ [(TokenKind.name, Delimiters.rawWord)])

def isData : Segment → Bool
  | data _ => true
  | _ => false

end Segment

namespace Scan

variable {filename : Option Text} {d : Delimiters} {rest : Text}

/-! ## Scans up to places -/

/-- A step that is not the last one gives its tokens, and then those from the next state on. -/
theorem tokensFrom_of_next (hd : d.Sound) {s s' : State} {ts : List Token}
    (h : s.step d filename = .ok ⟨ts, some s'⟩) :
    tokensFrom d hd filename s = (tokensFrom d hd filename s').map (ts ++ ·) := by
  rw [tokensFrom_eq, h]

/-- A step that gives some tokens before those of another one leads to what the other leads to. -/
theorem tokensFrom_of_step (hd : d.Sound) {s s' : State} {ts : List Token}
    (h : s.step d filename = (s'.step d filename).map fun r => { r with tokens := ts ++ r.tokens }) :
    tokensFrom d hd filename s = (tokensFrom d hd filename s').map (ts ++ ·) := by
  rw [tokensFrom_eq hd s, tokensFrom_eq hd s', h]
  cases s'.step d filename with
  | error e => rfl
  | ok r =>
    obtain ⟨us, next⟩ := r
    cases next with
    | none => rfl
    | some s₁ =>
      simp only [Except.map]
      cases tokensFrom d hd filename s₁ with
      | error e => rfl
      | ok vs => exact congrArg Except.ok (List.append_assoc ..)

/-- The contents of the tokens from a state on. -/
def contentsFrom (d : Delimiters) (hd : d.Sound) (filename : Option Text) (s : State) :
    Except Diagnostic (List (TokenKind × Text)) :=
  (tokensFrom d hd filename s).map (·.map Token.content)

/-- From a state on the scan gives some contents and those from another state on. -/
def Passes (hd : d.Sound) (filename : Option Text) (s : State) (cs : List (TokenKind × Text)) (s' : State) : Prop :=
  contentsFrom d hd filename s = (contentsFrom d hd filename s').map (cs ++ ·)

variable {hd : d.Sound} {s s' s'' : State} {cs cs' : List (TokenKind × Text)}

theorem Passes.refl : Passes hd filename s [] s := by
  unfold Passes
  cases contentsFrom d hd filename s <;> rfl

theorem Passes.trans (h : Passes hd filename s cs s') (h' : Passes hd filename s' cs' s'') :
    Passes hd filename s (cs ++ cs') s'' := by
  unfold Passes at h h' ⊢
  rw [h, h']
  cases contentsFrom d hd filename s'' with
  | error e => rfl
  | ok us => exact congrArg Except.ok (List.append_assoc ..).symm

theorem Passes.of_tokensFrom {ts : List Token}
    (h : tokensFrom d hd filename s = (tokensFrom d hd filename s').map (ts ++ ·)) :
    Passes hd filename s (ts.map Token.content) s' := by
  unfold Passes contentsFrom
  rw [h]
  cases tokensFrom d hd filename s' with
  | error e => rfl
  | ok us => exact congrArg Except.ok List.map_append

theorem Passes.of_step {ts : List Token} (h : s.step d filename = .ok ⟨ts, some s'⟩) :
    Passes hd filename s (ts.map Token.content) s' :=
  .of_tokensFrom (tokensFrom_of_next hd h)

/-! ## Inside of tags -/

variable (filename)

/-- No written token begins with a closing delimiter. -/
theorem startsWith_close {t : Draft} (hv : t.kind.Spells t.value) (tag : Tag) (rest : Text) :
    ¬Text.startsWith (t.text ++ Text.unit ' ' :: rest) (tag.close .standard) = true := by
  obtain ⟨c, u, htext, -, halone⟩ := Draft.text_head hv
  rw [htext, Text.startsWith_iff]
  rintro ⟨r, hr⟩
  cases tag with
  | interpolation =>
    obtain ⟨hc, hu⟩ := List.cons_eq_cons.1 hr
    rw [halone (.inl hc)] at hu
    exact absurd (List.cons_eq_cons.1 hu).1 (by decide)
  | block =>
    obtain ⟨hc, hu⟩ := List.cons_eq_cons.1 hr
    rw [halone (.inr hc)] at hu
    exact absurd (List.cons_eq_cons.1 hu).1 (by decide)

/-- Of a blank and something else only the blank is spacing. -/
theorem spacing_blank {c : CodeUnit} {t : Text} (hc : Text.isSpacing c = false) :
    (Text.unit ' ' :: c :: t).takeWhile Text.isSpacing = [Text.unit ' '] ∧
      (Text.unit ' ' :: c :: t).dropWhile Text.isSpacing = c :: t := by
  have hblank : Text.isSpacing (Text.unit ' ') = true := by decide
  have hstop : ¬Text.isSpacing c = true := by rw [hc]; exact Bool.false_ne_true
  rw [List.takeWhile_cons_of_pos hblank, List.takeWhile_cons_of_neg hstop, List.dropWhile_cons_of_pos hblank,
    List.dropWhile_cons_of_neg hstop]
  exact ⟨rfl, rfl⟩

/-- A blank and a written token are read in one step. -/
theorem step_draft {t : Draft} {afterDot : Bool} (hv : t.kind.Spells t.value) (hdot : afterDot = true → t.kind ≠ .float)
    (tag : Tag) (opened : Location) (σ : List Symbol) (l : Location) (rest : Text) :
    ∃ span l', State.step .standard filename
        ⟨.inside tag opened σ afterDot, l, Text.unit ' ' :: (t.text ++ Text.unit ' ' :: rest)⟩ =
      .ok ⟨[⟨t.kind, t.value, span⟩],
        some ⟨.inside tag opened (trackBrackets σ t.kind) (isDot t.kind), l', Text.unit ' ' :: rest⟩⟩ := by
  obtain ⟨x, hread, hkind, hvalue, hwritten⟩ := Draft.reads_text hv hdot rest
  obtain ⟨c, u, htext, hblank, -⟩ := Draft.text_head hv
  have hspacing : Text.isSpacing c = false := by
    rw [Bool.eq_false_iff]
    intro hc
    rw [Text.isBlank_of_isSpacing hc] at hblank
    cases hblank
  have hcons : t.text ++ Text.unit ' ' :: rest = c :: (u ++ Text.unit ' ' :: rest) := by
    rw [htext, List.cons_append]
  obtain ⟨htake, hdrop⟩ := spacing_blank (t := u ++ Text.unit ' ' :: rest) hspacing
  rw [← hcons] at htake hdrop
  have hne : t.text ++ Text.unit ' ' :: rest ≠ [] := by rw [hcons]; exact List.cons_ne_nil _ _
  have hopen : ¬(σ = [] ∧ Text.startsWith (t.text ++ Text.unit ' ' :: rest) (tag.close .standard) = true) :=
    fun h => startsWith_close hv tag rest h.2
  let stop := (l.after [Text.unit ' ']).after t.text
  refine ⟨⟨l.after [Text.unit ' '], stop⟩, stop, ?_⟩
  simp only [State.step, htake, hdrop, if_neg hne, if_neg hopen, lexemeStep, hread, take, hkind, hvalue, hwritten,
    List.drop_left, stop]

/-- A blank and the delimiter that closes a tag are read in one step when no closer is awaited. -/
theorem step_close (tag : Tag) (opened : Location) (afterDot : Bool) (l : Location) (rest : Text) :
    ∃ span l', State.step .standard filename
        ⟨.inside tag opened [] afterDot, l, Text.unit ' ' :: (tag.close .standard ++ rest)⟩ =
      .ok ⟨[⟨tag.endKind, tag.close .standard, span⟩], some ⟨.outside, l', rest⟩⟩ := by
  obtain ⟨c, u, hclose, hspacing⟩ : ∃ c u, tag.close .standard = c :: u ∧ Text.isSpacing c = false := by
    cases tag <;> exact ⟨_, _, rfl, by decide⟩
  have hcons : tag.close .standard ++ rest = c :: (u ++ rest) := by rw [hclose, List.cons_append]
  obtain ⟨htake, hdrop⟩ := spacing_blank (t := u ++ rest) hspacing
  rw [← hcons] at htake hdrop
  have hne : tag.close .standard ++ rest ≠ [] := by rw [hcons]; exact List.cons_ne_nil _ _
  have hends : Text.startsWith (tag.close .standard ++ rest) (tag.close .standard) = true :=
    Text.startsWith_iff.2 ⟨rest, rfl⟩
  let stop := (l.after [Text.unit ' ']).after (tag.close .standard)
  refine ⟨⟨l.after [Text.unit ' '], stop⟩, stop, ?_⟩
  simp only [State.step, htake, hdrop, if_neg hne, hends, and_self, if_true, take, List.drop_left, stop]

variable (hd : Delimiters.standard.Sound)

theorem flatMap_text_cons (t : Draft) (inner : List Draft) (x : Text) :
    (t :: inner).flatMap (·.text ++ [Text.unit ' ']) ++ x =
      t.text ++ Text.unit ' ' :: (inner.flatMap (·.text ++ [Text.unit ' ']) ++ x) := by
  simp only [List.flatMap_cons, List.append_assoc, List.cons_append, List.nil_append]

/-- The tokens of a tag and its end are read, and the scan goes on outside of tags. -/
theorem passes_inner {inner : List Draft} {afterDot : Bool} {σ : List Symbol}
    (hc : Contents afterDot (inner.map Draft.content)) (hσ : (inner.map Draft.kind).foldl trackBrackets σ = [])
    (tag : Tag) (opened l : Location) (rest : Text) :
    ∃ l', Passes hd filename
      ⟨.inside tag opened σ afterDot, l,
        Text.unit ' ' :: (inner.flatMap (·.text ++ [Text.unit ' ']) ++ (tag.close .standard ++ rest))⟩
      (inner.map Draft.content ++ [(tag.endKind, tag.close .standard)]) ⟨.outside, l', rest⟩ := by
  induction inner generalizing afterDot σ l with
  | nil =>
    obtain rfl : σ = [] := hσ
    obtain ⟨span, l', hstep⟩ := step_close filename tag opened afterDot l rest
    exact ⟨l', .of_step hstep⟩
  | cons t inner ih =>
    obtain ⟨hv, hdot, hc⟩ := contents_cons.1 hc
    obtain ⟨span, l₁, hstep⟩ := step_draft filename hv hdot tag opened σ l
      (inner.flatMap (·.text ++ [Text.unit ' ']) ++ (tag.close .standard ++ rest))
    obtain ⟨l', hrest⟩ := ih hc hσ l₁
    rw [flatMap_text_cons]
    exact ⟨l', (Passes.of_step hstep).trans hrest⟩

/-! ## Outside of tags -/

theorem splitData_opener {o : Delimiters.Opener} (h : d.opener? rest = some o) : d.splitData rest = ([], rest) := by
  cases rest with
  | nil => rfl
  | cons c t => rw [Delimiters.splitData, h, if_pos Option.isSome_some]

/-- At a start delimiter the scan goes on from there, without data. -/
theorem step_opener {o : Delimiters.Opener} (h : d.opener? rest = some o) (l : Location) :
    State.step d filename ⟨.outside, l, rest⟩ = openerStep d filename l rest (some o) := by
  simp only [State.step, splitData_opener h, h]
  cases hstep : openerStep d filename (l.after []) rest (some o) with
  | error e => exact hstep.symm
  | ok r => exact hstep.symm

/-- Data without a brace ends where a start delimiter stands, or with the source. -/
theorem splitData_data {t : Text} (ht : Text.unit '\x7b' ∉ t) (rest : Text) :
    Delimiters.standard.splitData (t ++ rest) =
      (t ++ (Delimiters.standard.splitData rest).1, (Delimiters.standard.splitData rest).2) := by
  induction t with
  | nil => rfl
  | cons c t ih =>
    rw [List.mem_cons, not_or] at ht
    obtain ⟨hc, ht⟩ := ht
    have hnone : Delimiters.standard.opener? (c :: (t ++ rest)) = none := by
      have hlead (u : Text) : Text.startsWith (c :: (t ++ rest)) (Text.unit '\x7b' :: u) = false := by
        rw [Text.startsWith, Text.after?, if_neg hc]
        rfl
      have hno (o : Delimiters.Opener) : Text.startsWith (c :: (t ++ rest)) (Delimiters.standard.start o) = false := by
        cases o <;> exact hlead _
      unfold Delimiters.opener?
      rw [List.filter_eq_nil_iff.2 fun o _ => by rw [hno o]; exact Bool.false_ne_true]
    rw [List.cons_append, Delimiters.splitData, hnone, Option.isSome_none, if_neg Bool.false_ne_true, ih ht]
    rfl

theorem passes_data {t : Text} (hne : t ≠ []) (ht : Text.unit '\x7b' ∉ t)
    (hrest : (Delimiters.standard.splitData rest).1 = []) (l : Location) :
    Passes hd filename ⟨.outside, l, t ++ rest⟩ [(.data, t)] ⟨.outside, l.after t, rest⟩ := by
  have hstep : State.step .standard filename ⟨.outside, l, t ++ rest⟩ =
      (State.step .standard filename ⟨.outside, l.after t, rest⟩).map
        fun r => { r with tokens := dataTokens l t ++ r.tokens } := by
    simp only [State.step, splitData_data ht, hrest, List.append_nil]
    show _ = ((openerStep .standard filename (l.after t) _ _).map _).map _
    cases openerStep .standard filename (l.after t) (Delimiters.standard.splitData rest).2
      (Delimiters.standard.opener? (Delimiters.standard.splitData rest).2) <;> rfl
  have hpass : Passes hd filename _ _ _ := .of_tokensFrom (tokensFrom_of_step hd hstep)
  rwa [dataTokens, if_neg hne] at hpass

/-! ## Comments -/

/-- Two units that differ do not overlap with themselves, so a text without them ends before them. -/
theorem splitAtFirst_pair {a b : CodeUnit} (hab : a ≠ b) {t : Text} (ht : ¬[a, b] <:+: t) (rest : Text) :
    Text.splitAtFirst [a, b] (t ++ ([a, b] ++ rest)) = some (t, rest) := by
  induction t with
  | nil =>
    show Text.splitAtFirst [a, b] (a :: b :: rest) = _
    have hhere : Text.after? [a, b] (a :: b :: rest) = some rest := Text.after?_eq_some.2 rfl
    rw [Text.splitAtFirst, hhere]
  | cons c t ih =>
    have hnone : Text.after? [a, b] (c :: (t ++ ([a, b] ++ rest))) = none := by
      rw [Option.eq_none_iff_forall_ne_some]
      intro r hr
      obtain ⟨rfl, hr⟩ := List.cons_eq_cons.1 (Text.after?_eq_some.1 hr)
      cases t with
      | nil => exact hab (List.cons_eq_cons.1 hr).1
      | cons e t =>
        obtain ⟨rfl, -⟩ := List.cons_eq_cons.1 hr
        exact ht ⟨[], t, rfl⟩
    rw [List.cons_append, Text.splitAtFirst, hnone, ih fun h => ht (List.infix_cons h)]
    rfl

/-- A comment is read in one step, up to where it ends. -/
theorem step_comment {t : Text} (ht : ¬("#\x7d" : Text) <:+: t) (l : Location) (rest : Text) :
    State.step .standard filename ⟨.outside, l, "\x7b#" ++ t ++ "#\x7d" ++ rest⟩ =
      .ok ⟨[], some ⟨.outside, l.after ("\x7b#" ++ t ++ "#\x7d"), rest⟩⟩ := by
  have hsplit : ("\x7b#" : Text) ++ t ++ "#\x7d" ++ rest = "\x7b#" ++ (t ++ ("#\x7d" ++ rest)) := by
    simp only [List.append_assoc]
  have hopen : Delimiters.standard.opener? ("\x7b#" ++ (t ++ ("#\x7d" ++ rest))) = some .comment := rfl
  have hbody : Text.splitAtFirst Delimiters.standard.commentEnd (t ++ ("#\x7d" ++ rest)) = some (t, rest) :=
    splitAtFirst_pair (by decide) ht rest
  have hdrop : (("\x7b#" : Text) ++ (t ++ ("#\x7d" ++ rest))).drop Delimiters.standard.commentStart.length =
      t ++ ("#\x7d" ++ rest) := rfl
  have hplace : l.upTo ("\x7b#" ++ (t ++ ("#\x7d" ++ rest))) rest = l.after ("\x7b#" ++ t ++ "#\x7d") := by
    rw [← hsplit, Location.upTo_append]
  rw [hsplit, step_opener filename hopen]
  simp only [openerStep, hdrop, hbody, hplace]

theorem passes_comment {t : Text} (ht : ¬("#\x7d" : Text) <:+: t) (l : Location) (rest : Text) :
    ∃ l', Passes hd filename ⟨.outside, l, "\x7b#" ++ t ++ "#\x7d" ++ rest⟩ [] ⟨.outside, l', rest⟩ :=
  ⟨_, .of_step (step_comment filename ht l rest)⟩

/-! ## Raw blocks -/

/-- Behind its first unit a raw tag has no brace that opens. -/
theorem brace_notMem_tail {word w : Text} (hword : Text.unit '\x7b' ∉ word)
    (hw : Delimiters.standard.WordTag word w) : Text.unit '\x7b' ∉ w.tail := by
  obtain ⟨u, v, hu, hv, rfl⟩ := hw
  have hblank {u : Text} (hu : u.all Text.isBlank = true) : Text.unit '\x7b' ∉ u := fun h =>
    absurd (List.all_eq_true.1 hu _ h) (by decide)
  show Text.unit '\x7b' ∉ Text.unit '%' :: (u ++ word ++ v ++ Delimiters.standard.blockEnd)
  simp only [List.mem_cons, List.mem_append, not_or]
  exact ⟨by decide, ⟨⟨hblank hu, hword⟩, hblank hv⟩, by decide⟩

/-- No raw tag begins in a text without one and goes on behind it, where a brace stands. -/
theorem not_wordTag_across {word w t rest : Text} (hword : Text.unit '\x7b' ∉ word)
    (hw : Delimiters.standard.WordTag word w) (hne : t ≠ []) (ht : ¬w <:+: t) :
    ¬w <+: t ++ Text.unit '\x7b' :: rest := by
  rintro ⟨r, hr⟩
  rcases List.append_eq_append_iff.1 hr with ⟨u, rfl, -⟩ | ⟨u, rfl, hu⟩
  · exact ht (List.prefix_append w u).isInfix
  · cases u with
    | nil => exact ht ⟨[], [], by simp only [List.append_nil, List.nil_append]⟩
    | cons c u =>
      obtain ⟨rfl, -⟩ := List.cons_eq_cons.1 hu
      obtain ⟨b, t, rfl⟩ := List.exists_cons_of_ne_nil hne
      exact brace_notMem_tail hword hw (List.mem_append_right t List.mem_cons_self)

theorem splitRaw_body {t : Text} (ht : ∀ w, Delimiters.standard.WordTag Delimiters.endRawWord w → ¬w <:+: t)
    (rest : Text) :
    Delimiters.standard.splitRaw (t ++ ("\x7b% endraw %\x7d" ++ rest)) = some (t, rest) := by
  induction t with
  | nil =>
    have hhere : Delimiters.standard.afterWordTag Delimiters.endRawWord
        (Text.unit '\x7b' :: ("% endraw %\x7d" ++ rest)) = some rest := rfl
    show Delimiters.standard.splitRaw (Text.unit '\x7b' :: ("% endraw %\x7d" ++ rest)) = _
    rw [Delimiters.splitRaw, hhere]
  | cons c t ih =>
    have hnone : Delimiters.standard.afterWordTag Delimiters.endRawWord
        (c :: (t ++ ("\x7b% endraw %\x7d" ++ rest))) = none := by
      rw [Option.eq_none_iff_forall_ne_some]
      intro r hr
      obtain ⟨w, hw, hsplit⟩ := Delimiters.afterWordTag_written hr
      exact not_wordTag_across (by decide) hw (List.cons_ne_nil c t) (ht w hw) ⟨r, hsplit.symm⟩
    rw [List.cons_append, Delimiters.splitRaw, hnone, ih fun w hw h => ht w hw (List.infix_cons h)]
    rfl

theorem passes_raw {t : Text} (ht : ∀ w, Delimiters.standard.WordTag Delimiters.endRawWord w → ¬w <:+: t)
    (l : Location) (rest : Text) :
    ∃ l', Passes hd filename ⟨.outside, l, "\x7b% raw %\x7d" ++ t ++ "\x7b% endraw %\x7d" ++ rest⟩
      (if t = [] then [] else [(.data, t)]) ⟨.outside, l', rest⟩ := by
  have hsplit : ("\x7b% raw %\x7d" : Text) ++ t ++ "\x7b% endraw %\x7d" ++ rest =
      "\x7b% raw %\x7d" ++ (t ++ ("\x7b% endraw %\x7d" ++ rest)) := by
    simp only [List.append_assoc]
  rw [hsplit]
  have hbody := splitRaw_body ht rest
  generalize t ++ ("\x7b% endraw %\x7d" ++ rest) = inner at hbody
  have hopen : Delimiters.standard.opener? ("\x7b% raw %\x7d" ++ inner) = some .block := rfl
  have hraw : Delimiters.standard.afterWordTag Delimiters.rawWord ("\x7b% raw %\x7d" ++ inner) = some inner := rfl
  let begins := l.upTo ("\x7b% raw %\x7d" ++ inner) inner
  let stop := l.upTo ("\x7b% raw %\x7d" ++ inner) rest
  have hstep : openerStep .standard filename l ("\x7b% raw %\x7d" ++ inner) (some .block) =
      .ok ⟨dataTokens begins t, some ⟨.outside, stop, rest⟩⟩ := by
    simp only [openerStep, hraw, hbody, begins, stop]
  have hcontents : (dataTokens begins t).map Token.content = if t = [] then [] else [(.data, t)] := by
    unfold dataTokens
    split <;> rfl
  rw [← hcontents]
  exact ⟨stop, .of_step ((step_opener filename hopen l).trans hstep)⟩

/-! ## Tags -/

/-- Behind the word of a raw block at the head of a written token more of a name follows, or the token is
that name. -/
theorem raw_head {t : Draft} (hv : t.kind.Spells t.value) {y z : Text}
    (h : t.text ++ Text.unit ' ' :: y = Delimiters.rawWord ++ z) :
    t.content = (.name, Delimiters.rawWord) ∧ z = Text.unit ' ' :: y ∨
      ∃ c z', z = c :: z' ∧ Text.isNamePart c = true := by
  have hword {c : CodeUnit} {u : Text} (htext : t.text = c :: u) (hc : Text.isNameStart c = true) :=
    Draft.text_of_nameStart hv htext hc
  have hname (htext : t.text = Delimiters.rawWord) : t.content = (.name, Delimiters.rawWord) := by
    obtain ⟨-, hkind, hvalue⟩ := hword htext (by decide)
    rw [Draft.content, hkind, hvalue, htext]
    decide
  rcases List.append_eq_append_iff.1 h with ⟨u, hraw, hu⟩ | ⟨u, htext, hu⟩
  · cases u with
    | nil => exact .inl ⟨hname (by rw [hraw, List.append_nil]), hu.symm⟩
    | cons c u =>
      obtain ⟨rfl, -⟩ := List.cons_eq_cons.1 hu
      have hmem : Text.unit ' ' ∈ Delimiters.rawWord := hraw ▸ List.mem_append_right t.text List.mem_cons_self
      exact absurd hmem (by decide)
  · cases u with
    | nil => exact .inl ⟨hname (by rw [htext, List.append_nil]), hu⟩
    | cons c u =>
      obtain ⟨hparts, -⟩ := hword htext (by decide)
      have hc := List.all_eq_true.1 hparts c (List.mem_append_right _ List.mem_cons_self : c ∈ ("aw" : Text) ++ c :: u)
      exact .inr ⟨c, _, hu, hc⟩

theorem afterBlanks_eq_none {close t : Text} {c : CodeUnit} (hc : Text.isBlank c = false)
    (h : ¬Text.startsWith (c :: t) close = true) : Delimiters.afterBlanks close (c :: t) = none := by
  have hblank : ¬Text.isBlank c = true := by rw [hc]; exact Bool.false_ne_true
  rw [Delimiters.afterBlanks, if_neg hblank]
  exact Option.not_isSome_iff_eq_none.1 h

theorem afterBlanks_namePart {c : CodeUnit} (hc : Text.isNamePart c = true) (z : Text) :
    Delimiters.afterBlanks Delimiters.standard.blockEnd (c :: z) = none := by
  refine afterBlanks_eq_none (Text.isBlank_of_isNamePart hc) fun hstart => ?_
  obtain ⟨r, hr⟩ := Text.startsWith_iff.1 hstart
  obtain ⟨rfl, -⟩ := List.cons_eq_cons.1 hr
  exact absurd hc (by decide)

theorem afterBlanks_draft {t : Draft} (hv : t.kind.Spells t.value) (x : Text) :
    Delimiters.afterBlanks Delimiters.standard.blockEnd (Text.unit ' ' :: (t.text ++ Text.unit ' ' :: x)) = none := by
  obtain ⟨c, u, htext, hblank, -⟩ := Draft.text_head hv
  have hstart := startsWith_close hv .block x
  rw [htext] at hstart
  have hnone : Delimiters.afterBlanks Delimiters.standard.blockEnd (t.text ++ Text.unit ' ' :: x) = none := by
    rw [htext]
    exact afterBlanks_eq_none hblank hstart
  rw [Delimiters.afterBlanks, if_pos (by decide), hnone]
  rfl

/-- A block tag that holds anything but the word of a raw block does not begin one. -/
theorem afterWordTag_raw_eq_none {inner : List Draft} {afterDot : Bool}
    (hc : Contents afterDot (inner.map Draft.content))
    (hraw : inner.map Draft.content ≠ [(TokenKind.name, Delimiters.rawWord)]) (rest : Text) :
    Delimiters.standard.afterWordTag Delimiters.rawWord (Tag.start .standard .block ++ Text.unit ' ' ::
      (inner.flatMap (·.text ++ [Text.unit ' ']) ++ (Tag.close .standard .block ++ rest))) = none := by
  have hopen (x : Text) : Text.after? Delimiters.standard.blockStart (Tag.start .standard .block ++ x) = some x :=
    Text.after?_eq_some.2 rfl
  cases inner with
  | nil => rfl
  | cons t inner =>
    obtain ⟨hv, -, hc⟩ := contents_cons.1 hc
    obtain ⟨c, u, htext, hblank, -⟩ := Draft.text_head hv
    have hstop : ¬Text.isBlank c = true := by rw [hblank]; exact Bool.false_ne_true
    have hdrop (y : Text) : (Text.unit ' ' :: (t.text ++ Text.unit ' ' :: y)).dropWhile Text.isBlank =
        t.text ++ Text.unit ' ' :: y := by
      rw [htext, List.cons_append, List.dropWhile_cons_of_pos (by decide), List.dropWhile_cons_of_neg hstop]
    rw [flatMap_text_cons]
    simp only [Delimiters.afterWordTag, hopen, hdrop]
    cases hword : Text.after? Delimiters.rawWord (t.text ++ Text.unit ' ' :: _) with
    | none => rfl
    | some z =>
      rcases raw_head hv (Text.after?_eq_some.1 hword) with ⟨hname, rfl⟩ | ⟨c, z, rfl, hpart⟩
      · -- the word is a token by itself, so another token stands behind it
        cases inner with
        | nil => exact absurd (congrArg (· :: []) hname) hraw
        | cons t' inner =>
          obtain ⟨hv', -, -⟩ := contents_cons.1 hc
          rw [flatMap_text_cons]
          exact afterBlanks_draft hv' _
      · exact afterBlanks_namePart hpart z

theorem passes_tag {inner : List Draft} (tag : Tag) (hc : Contents false (inner.map Draft.content))
    (hm : Matched (inner.map Draft.kind))
    (hraw : tag = .block → inner.map Draft.content ≠ [(TokenKind.name, Delimiters.rawWord)]) (l : Location)
    (rest : Text) :
    ∃ l', Passes hd filename ⟨.outside, l, (Segment.tag tag inner).text ++ rest⟩ (Segment.tag tag inner).contents
      ⟨.outside, l', rest⟩ := by
  have hσ : (inner.map Draft.kind).foldl trackBrackets [] = [] := hm.foldl_trackBrackets Closers.nil
  let behind : Text := Text.unit ' ' :: (inner.flatMap (·.text ++ [Text.unit ' ']) ++ (tag.close .standard ++ rest))
  have hsplit : (Segment.tag tag inner).text ++ rest = tag.start .standard ++ behind := by
    simp only [Segment.text, behind, List.append_assoc, List.cons_append]
  have hstep : State.step .standard filename ⟨.outside, l, tag.start .standard ++ behind⟩ =
      .ok (take tag.beginKind (tag.start .standard) (tag.start .standard) (.inside tag l [] false) l
        (tag.start .standard ++ behind)) := by
    cases tag with
    | interpolation =>
      have hopen : Delimiters.standard.opener? (Tag.start .standard .interpolation ++ behind) = some .interpolation :=
        rfl
      rw [step_opener filename hopen]
      rfl
    | block =>
      have hopen : Delimiters.standard.opener? (Tag.start .standard .block ++ behind) = some .block := rfl
      rw [step_opener filename hopen]
      simp only [openerStep, behind, afterWordTag_raw_eq_none hc (hraw rfl)]
      rfl
  obtain ⟨l', hinner⟩ := passes_inner filename hd hc hσ tag l (l.after (tag.start .standard)) rest
  rw [hsplit]
  simp only [take, List.drop_left] at hstep
  exact ⟨l', (Passes.of_step hstep).trans hinner⟩

/-! ## Segments -/

theorem contentsFrom_end (l : Location) :
    contentsFrom .standard hd filename ⟨.outside, l, []⟩ = .ok [(.eof, [])] := by
  unfold contentsFrom
  rw [tokensFrom_eq]
  rfl

variable {filename hd} in
/-- A scan that gets to the end of the source gives what it has passed and the end token. -/
theorem Passes.tokens_of_end {s : State} {cs : List (TokenKind × Text)} {l : Location}
    (h : Passes hd filename s cs ⟨.outside, l, []⟩) :
    ∃ ts, tokensFrom .standard hd filename s = .ok ts ∧ ts.map Token.content = cs ++ [(.eof, [])] := by
  unfold Passes at h
  rw [contentsFrom_end] at h
  unfold contentsFrom at h
  cases hscan : tokensFrom .standard hd filename s with
  | error e => rw [hscan] at h; cases h
  | ok ts =>
    rw [hscan] at h
    exact ⟨ts, rfl, Except.ok.inj h⟩

/-- A segment other than data begins with a start delimiter. -/
theorem splitData_segment {s : Segment} (hs : s.isData = false) (rest : Text) :
    (Delimiters.standard.splitData (s.text ++ rest)).1 = [] := by
  obtain ⟨o, ho⟩ : ∃ o, Delimiters.standard.opener? (s.text ++ rest) = some o := by
    cases s with
    | data => cases hs
    | comment => exact ⟨.comment, rfl⟩
    | raw => exact ⟨.block, rfl⟩
    | tag g inner =>
      cases g with
      | interpolation => exact ⟨.interpolation, rfl⟩
      | block => exact ⟨.block, rfl⟩
  rw [splitData_opener ho]

/-- A segment is read up to where it ends. -/
theorem passes_segment {s : Segment} (hv : s.Valid)
    (hrest : s.isData = true → (Delimiters.standard.splitData rest).1 = []) (l : Location) :
    ∃ l', Passes hd filename ⟨.outside, l, s.text ++ rest⟩ s.contents ⟨.outside, l', rest⟩ := by
  cases s with
  | data t => exact ⟨_, passes_data filename hd hv.1 hv.2 (hrest rfl) l⟩
  | comment t => exact passes_comment filename hd hv l rest
  | raw t => exact passes_raw filename hd hv l rest
  | tag g inner => exact passes_tag filename hd g hv.1 hv.2.1 hv.2.2 l rest

/-- Segments are read one behind the other, up to the end of the source. -/
theorem passes_segments {segments : List Segment} (hv : ∀ s ∈ segments, s.Valid)
    (hdata : segments.IsChain fun s t => ¬(s.isData = true ∧ t.isData = true)) (l : Location) :
    ∃ l', Passes hd filename ⟨.outside, l, segments.flatMap Segment.text⟩ (segments.flatMap Segment.contents)
      ⟨.outside, l', []⟩ := by
  induction segments generalizing l with
  | nil => exact ⟨l, Passes.refl⟩
  | cons s segments ih =>
    obtain ⟨hs, hv⟩ := List.forall_mem_cons.1 hv
    have hrest (hdat : s.isData = true) : (Delimiters.standard.splitData (segments.flatMap Segment.text)).1 = [] := by
      cases segments with
      | nil => rfl
      | cons t segments =>
        refine splitData_segment (Bool.eq_false_iff.2 fun ht => ?_) _
        exact (List.isChain_cons_cons.1 hdata).1 ⟨hdat, ht⟩
    obtain ⟨l₁, hhead⟩ := passes_segment filename hd hs hrest l
    obtain ⟨l', htail⟩ := ih hv hdata.tail l₁
    rw [List.flatMap_cons, List.flatMap_cons]
    exact ⟨l', hhead.trans htail⟩

end Scan

/-- Scanning undoes writing: the tokens of a template that is written segment by segment are those of the
segments, up to their places, and the end of the source. -/
theorem Environment.written_segments_scanned (filename : Option Text) {segments : List Segment}
    (hv : ∀ s ∈ segments, s.Valid)
    (hdata : segments.IsChain fun s t => ¬(s.isData = true ∧ t.isData = true)) :
    ∃ ts, Environment.standard.tokens filename (segments.flatMap Segment.text) = .ok ts ∧
      ts.map Token.content = segments.flatMap Segment.contents ++ [(.eof, [])] := by
  have hd : Delimiters.standard.Sound := Delimiters.fault?_eq_none_iff.1 Delimiters.standard_fault
  obtain ⟨l, hpass⟩ := Scan.passes_segments filename hd hv hdata .origin
  unfold Scan.Passes at hpass
  rw [Scan.contentsFrom_end] at hpass
  show ∃ ts, Scan.tokensFrom .standard hd filename ⟨.outside, .origin, segments.flatMap Segment.text⟩ = .ok ts ∧ _
  unfold Scan.contentsFrom at hpass
  cases hscan : Scan.tokensFrom .standard hd filename ⟨.outside, .origin, segments.flatMap Segment.text⟩ with
  | error e => rw [hscan] at hpass; cases hpass
  | ok ts =>
    rw [hscan] at hpass
    exact ⟨ts, rfl, Except.ok.inj hpass⟩

/-- Delimiters in data, comments, raw blocks and strings, and braces in tags. -/
theorem Environment.written_segments_scanned_braces :
    let segments : List Segment := [.data "a\x7d\x7d", .comment "\x7b% #", .raw "\x7b\x7b b",
      .tag .interpolation [⟨.symbol .openBrace, "\x7b", .single⟩, ⟨.string, "\x7d\x7d\'", .single⟩,
        ⟨.symbol .closeBrace, "\x7d", .single⟩],
      .tag .block [⟨.name, "raw", .single⟩, ⟨.symbol .percent, "%", .single⟩, ⟨.float, "1.5", .single⟩]]
    segments.flatMap Segment.text = Text.ofString (
      "a\x7d\x7d\x7b#\x7b% ##\x7d\x7b% raw %\x7d\x7b\x7b b\x7b% endraw %\x7d" ++
      "\x7b\x7b \x7b '\x7d\x7d\\'' \x7d \x7d\x7d\x7b% raw % 1.5 %\x7d") ∧
    ∃ ts, Environment.standard.tokens none (segments.flatMap Segment.text) = .ok ts ∧
      ts.map Token.content = segments.flatMap Segment.contents ++ [(.eof, [])] := by
  intro segments
  have hraw : (Segment.raw "\x7b\x7b b").Valid := by
    rintro w ⟨u, v, -, -, rfl⟩ hw
    have hlen := hw.length_le
    simp only [List.length_append] at hlen
    have hshort : (Text.ofString "\x7b\x7b b").length < Delimiters.endRawWord.length := by decide
    omega
  have hdict : (Segment.tag .interpolation [⟨.symbol .openBrace, "\x7b", .single⟩, ⟨.string, "\x7d\x7d\'", .single⟩,
      ⟨.symbol .closeBrace, "\x7d", .single⟩]).Valid :=
    ⟨.cons rfl nofun (.cons trivial nofun (.cons rfl nofun (.nil _))),
      @Scan.Matched.pair .openBrace .closeBrace [.string] [] .braces
        (.plain (fun _ _ _ => ⟨nofun, nofun⟩) .nil) .nil, nofun⟩
  have hblock : (Segment.tag .block [⟨.name, "raw", .single⟩, ⟨.symbol .percent, "%", .single⟩,
      ⟨.float, "1.5", .single⟩]).Valid := by
    refine ⟨.cons ⟨_, _, rfl, by decide, by decide, fun k => by cases k <;> decide⟩ nofun (.cons rfl nofun
      (.cons ⟨"1", "5", rfl, by decide, by decide, by decide, by decide⟩ nofun (.nil _))), ?_, fun _ => nofun⟩
    exact .plain (fun _ _ _ => ⟨nofun, nofun⟩) (.plain (fun _ _ hp => by cases hp <;> decide)
      (.plain (fun _ _ _ => ⟨nofun, nofun⟩) .nil))
  refine ⟨by decide +kernel, Environment.written_segments_scanned none ?_ ?_⟩
  · exact List.forall_mem_cons.2 ⟨⟨by decide, by decide⟩, List.forall_mem_cons.2 ⟨by show ¬_; decide,
      List.forall_mem_cons.2 ⟨hraw, List.forall_mem_cons.2 ⟨hdict, List.forall_mem_cons.2 ⟨hblock, nofun⟩⟩⟩⟩⟩
  · decide

end Stencil
