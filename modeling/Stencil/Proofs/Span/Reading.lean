/-
Reading the tokens of a scan. What a scan gives stands in its source where it should (`Scan.Faithful`); so
a reader that places its trees among the tokens places them in the source, and the edges of the tokens are
in order (`Scan.Layout.edge_le`).
-/
import Stencil.Proofs.Layout.Cover
import Stencil.Proofs.Layout.Place
import Stencil.Proofs.Safety.Examine
import Stencil.Proofs.Span.Run

namespace Stencil

/-! ## Streams of scanned tokens -/

namespace Stream

variable {s : Stream}

theorem last_mem (s : Stream) : s.last ∈ s.tokens.toList := by
  rw [← s.get_last, get, Array.getElem?_eq_getElem (Nat.sub_lt s.ne_empty Nat.one_pos), Option.getD_some]
  exact Array.getElem_mem_toList _

theorem get_mem (s : Stream) (i : Nat) : s.get i ∈ s.tokens.toList := by
  rcases s.get_eq_or i with h | h
  · exact List.mem_of_getElem? h
  · rw [h]
    exact s.last_mem

/-- The edges of tokens that stand one behind the other, the last of them being empty, are in order. -/
theorem edge_le (hpairwise : s.tokens.toList.Pairwise fun t u => t.span.finish.offset ≤ u.span.start.offset)
    (hspan : ∀ t ∈ s.tokens.toList, t.span.start.offset ≤ t.span.finish.offset)
    (hlast : s.last.span.finish.offset ≤ s.last.span.start.offset) {m n : Nat} (h : m ≤ n) :
    (s.edge m).offset ≤ (s.edge n).offset := by
  -- an edge is not behind the next one: both are of one token, of two neighbours, or of the last token
  have next (n : Nat) : (s.edge n).offset ≤ (s.edge (n + 1)).offset := by
    obtain ⟨i, rfl | rfl⟩ : ∃ i, n = 2 * i ∨ n = 2 * i + 1 := ⟨n / 2, by omega⟩
    · rw [edge_start, edge_finish]
      exact hspan _ (s.get_mem i)
    · have hnumber : 2 * i + 1 + 1 = 2 * (i + 1) := by omega
      rw [edge_finish, hnumber, edge_start]
      by_cases hi : i + 1 < s.tokens.size
      · have hget (j : Nat) (hj : j < s.tokens.size) : s.get j = s.tokens.toList[j] := by
          rw [get, Array.getElem?_eq_getElem hj]
          rfl
        rw [hget i (by omega), hget (i + 1) hi]
        exact List.pairwise_iff_getElem.1 hpairwise i (i + 1) (by simp; omega) (by simpa using hi) (Nat.lt_succ_self i)
      · have hsucc : s.get (i + 1) = s.last := s.get_of_size_le (by omega)
        have hthis : s.get i = s.last := by
          rcases Nat.lt_or_ge i s.tokens.size with hlt | hge
          · obtain rfl : i = s.tokens.size - 1 := by omega
            exact s.get_last
          · exact s.get_of_size_le hge
        rw [hsucc, hthis]
        exact hlast
  induction h with
  | refl => exact Nat.le_refl _
  | step _ ih => exact Nat.le_trans ih (next _)

end Stream

/-! ## Reading what has been scanned -/

/-- A scan lays out its source, or fails with a mistake of its own whose place is true. -/
structure Scan.Faithful (source : Text) (filename : Option Text) (scan : Except Diagnostic (List Token)) : Prop where
  layout : ∀ ts, scan = .ok ts → ∃ d z, Scan.Layout d z .origin source ts
  mistake : ∀ e, scan = .error e → e.kind = .lexer ∧ e.TrueIn source filename

/-- The mistake has a true place, and is one of the scan or reported where a token begins. -/
def Diagnostic.Found (source : Text) (filename : Option Text) (scan : Except Diagnostic (List Token))
    (d : Diagnostic) : Prop :=
  d.TrueIn source filename ∧
    (d.kind = .lexer ∧ scan = .error d ∨ ∃ ts, scan = .ok ts ∧ ∃ t ∈ ts, d.location = some t.span.start)

variable {env : Environment} {filename : Option Text} {source : Text} {ts : List Token} {s : Stream}

theorem Scan.Layout.origin_true {d : Delimiters} {z : Zone} (h : Layout d z .origin source ts) :
    ∀ t ∈ ts, t.span.TrueIn source := h.places_true ⟨[], rfl, rfl⟩

theorem Scan.Layout.ne_nil {d : Delimiters} {z : Zone} {l : Location} (h : Layout d z l source ts) : ts ≠ [] := by
  rintro rfl
  obtain ⟨e, he, -⟩ := h.getLast?
  cases he

/-- The edges of scanned tokens are in order. -/
theorem Scan.Layout.edge_le {d : Delimiters} {z : Zone} (h : Layout d z .origin source s.tokens.toList) {m n : Nat}
    (hmn : m ≤ n) : (s.edge m).offset ≤ (s.edge n).offset := by
  obtain ⟨hpairwise, hspan⟩ := h.ordered
  refine Stream.edge_le hpairwise (fun t ht => (hspan t ht).1) ?_ hmn
  obtain ⟨l, hl, -⟩ := h.getLast?
  have hlast : s.last = Token.atEnd l := by
    have hback : s.tokens[s.tokens.size - 1]? = some (Token.atEnd l) := by
      rw [← hl, Array.getLast?_toList, Array.back?]
    rw [← s.get_last, Stream.get, hback]
    rfl
  rw [hlast]
  exact Nat.le_refl _

theorem Scan.tokensFrom_faithful {d : Delimiters} (hd : d.Sound) {m : Mode} (hm : m.zone.mayEnd = true) :
    Faithful source filename (tokensFrom d hd filename ⟨m, .origin, source⟩) where
  layout ts hts := ⟨d, m.zone, tokensFrom_layout hd hts⟩
  mistake e he := by
    refine ⟨(tokensFrom_error hd he).kind_lexer, tokensFrom_error_true hd ⟨⟨[], rfl, rfl⟩, ?_⟩ he⟩
    rintro _ _ _ _ rfl
    cases hm

namespace Environment

theorem tokens_faithful : Scan.Faithful source filename (env.tokens filename source) :=
  Scan.tokensFrom_faithful env.isSound rfl

theorem expressionTokens_faithful : Scan.Faithful source filename (env.expressionTokens filename source) :=
  Scan.tokensFrom_faithful env.isSound rfl

/-! A reading can be run by counting the steps of its scan, which needs no argument that the scan ends. -/

section Counted

variable (env : Environment) (filename : Option Text) (source : Text)

/-- The tokens of a template are those of the counted scan. -/
theorem tokens_of_counted (check : Except Diagnostic (List Token) → Bool)
    (h : (Scan.tokensWithin env.delimiters filename (source.length + 1) ⟨.outside, .origin, source⟩).any check = true) :
    check (env.tokens filename source) = true := by
  have hscan : Scan.tokensWithin env.delimiters filename (source.length + 1) ⟨.outside, .origin, source⟩ =
      some (env.tokens filename source) :=
    Scan.tokensWithin_eq_some env.isSound (Nat.lt_succ_self source.length)
  rw [hscan] at h
  exact h

/-- The tokens of an expression that stands alone are those of the counted scan. -/
theorem expressionTokens_of_counted (check : Except Diagnostic (List Token) → Bool)
    (h : (Scan.tokensWithin env.delimiters filename (source.length + 1) ⟨.bare false, .origin, source⟩).any check =
      true) : check (env.expressionTokens filename source) = true := by
  have hscan : Scan.tokensWithin env.delimiters filename (source.length + 1) ⟨.bare false, .origin, source⟩ =
      some (env.expressionTokens filename source) :=
    Scan.tokensWithin_eq_some env.isSound (Nat.lt_succ_self source.length)
  rw [hscan] at h
  exact h

/-- An expression that stands alone is read as the counted reading of it is. -/
theorem readExpression_of_counted (check : Except Failure Expr → Bool)
    (h : ((Scan.tokensWithin env.delimiters filename (source.length + 1) ⟨.bare false, .origin, source⟩).map
      (env.readTokens filename env.grammar.wholeExpression)).any check = true) :
    check (env.readExpression filename source) = true := by
  rw [Option.any_map] at h
  exact env.expressionTokens_of_counted filename source _ h

/-- A template is read as the counted reading of it is. -/
theorem readTemplate_of_counted (check : Except Failure Template → Bool)
    (h : ((Scan.tokensWithin env.delimiters filename (source.length + 1) ⟨.outside, .origin, source⟩).map
      (env.readTokens filename (env.grammar .template))).any check = true) :
    check ((env.readTemplate filename source).map Document.template) = true := by
  have hscan : Scan.tokensWithin env.delimiters filename (source.length + 1) ⟨.outside, .origin, source⟩ =
      some (env.tokens filename source) :=
    Scan.tokensWithin_eq_some env.isSound (Nat.lt_succ_self source.length)
  rw [hscan] at h
  unfold readTemplate
  cases hx : env.readTokens filename (env.grammar .template) (env.tokens filename source) with
  | ok t =>
    rw [Option.map_some, hx] at h
    exact h
  | error e =>
    rw [Option.map_some, hx] at h
    exact h

end Counted

/-- Reading tokens is reading the stream that holds them. -/
theorem readTokens_eq {α : Type} (env : Environment) (filename : Option Text) (p : Parser α) (hne : ts ≠ []) :
    ∃ s : Stream, s.tokens.toList = ts ∧ s.filename = filename ∧
      (∀ x, env.readTokens filename p (.ok ts) = .ok x → ∃ q, p s 0 = .ok x q) ∧
      ∀ e, env.readTokens filename p (.ok ts) = .error e → ∃ q, p s 0 = .fail e q := by
  have hpos : 0 < ts.toArray.size := by
    rw [List.size_toArray]
    exact List.length_pos_iff.2 hne
  refine ⟨⟨ts.toArray, hpos, filename, env.delimiters⟩, rfl, rfl, ?_⟩
  unfold readTokens Stream.ofTokens
  simp only [dif_pos hpos]
  split
  · rename_i a q h
    refine ⟨?_, by rintro _ ⟨⟩⟩
    rintro _ ⟨⟩
    exact ⟨q, h⟩
  · rename_i e q h
    refine ⟨by rintro _ ⟨⟩, ?_⟩
    rintro _ ⟨⟩
    exact ⟨q, h⟩

/-- What a reader yields on every stream it yields on the tokens of a scan. -/
theorem readTokens_yields {α : Type} {p : Parser α} {good : Stream → α → Nat → Prop}
    {scan : Except Diagnostic (List Token)} (hscan : Scan.Faithful source filename scan)
    (hp : ∀ s, p.Yields s 0 (good s)) :
    (∀ x, env.readTokens filename p scan = .ok x → ∃ s : Stream, scan = .ok s.tokens.toList ∧ ∃ q, good s x q) ∧
      ∀ d, env.readTokens filename p scan = .error (.reported d) → d.Found source filename scan := by
  cases scan with
  | error e =>
    refine ⟨nofun, ?_⟩
    rintro _ ⟨⟩
    obtain ⟨hkind, htrue⟩ := hscan.mistake e rfl
    exact ⟨htrue, .inl ⟨hkind, rfl⟩⟩
  | ok ts =>
    obtain ⟨d, z, hlayout⟩ := hscan.layout ts rfl
    obtain ⟨s, rfl, rfl, hok, herror⟩ := env.readTokens_eq filename p hlayout.ne_nil
    constructor
    · intro x hx
      obtain ⟨q, hq⟩ := hok x hx
      exact ⟨s, rfl, q, (hp s).of_ok hq⟩
    · intro e he
      obtain ⟨q, hq⟩ := herror _ he
      obtain ⟨⟨l, hl, i, rfl⟩, hfilename⟩ := (hp s).of_fail hq
      have hmem := s.get_mem i
      exact ⟨⟨⟨_, hl, (hlayout.origin_true _ hmem).1⟩, hfilename⟩, .inr ⟨_, rfl, _, hmem, hl⟩⟩

theorem readTemplate_yields (hb : env.IsBuiltin) (filename : Option Text) (source : Text) :
    (∀ doc, env.readTemplate filename source = .ok doc → ∃ s : Stream,
      env.tokens filename source = .ok s.tokens.toList ∧ ∃ q, Rule.template.Result s 0 0 doc.template q) ∧
    ∀ d, env.readTemplate filename source = .error (.reported d) →
      d.Found source filename (env.tokens filename source) := by
  obtain ⟨hok, herror⟩ := env.readTokens_yields (p := env.grammar .template) tokens_faithful
    fun s => hb.places s .template (Nat.zero_le _) trivial
  unfold readTemplate
  constructor
  · intro doc h
    cases hx : env.readTokens filename (env.grammar .template) (env.tokens filename source) with
    | ok t =>
      rw [hx] at h
      cases h
      exact hok t hx
    | error e => rw [hx] at h; cases h
  · intro d h
    cases hx : env.readTokens filename (env.grammar .template) (env.tokens filename source) with
    | ok t => rw [hx] at h; cases h
    | error e =>
      rw [hx] at h
      cases h
      exact herror d hx

theorem readExpression_yields (hb : env.IsBuiltin) (filename : Option Text) (source : Text) :
    (∀ e, env.readExpression filename source = .ok e → ∃ s : Stream,
      env.expressionTokens filename source = .ok s.tokens.toList ∧ ∃ q, e.Placed s 0 (2 * q + 1)) ∧
    ∀ d, env.readExpression filename source = .error (.reported d) →
      d.Found source filename (env.expressionTokens filename source) :=
  readTokens_yields expressionTokens_faithful fun s => Grammar.wholeExpression_yields (hb.places s)

end Environment

end Stencil
