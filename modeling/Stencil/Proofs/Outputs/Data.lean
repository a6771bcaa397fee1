/-
The data of a template survives. In the outputs of a template that is read stand the data tokens of its source, as
texts that span them, each of them once and in their order; and two pieces stand in one output if and only if no
tag begins between them.
-/
import Stencil.Proofs.Outputs.Place

namespace Stencil

/-- The text that a data token becomes. -/
def Token.dataText (t : Token) : Expr := .const (.text t.value) t.span

/-- The expression is a constant that spans a data token. -/
def Expr.spansData (ts : List Token) : Expr → Bool
  | .const _ span => ts.any fun t => t.kind == .data && t.span == span
  | _ => false

namespace Stream

/-- The piece of a position stands in the output with a number. -/
def StandsIn (s : Stream) (outs : List (List Expr)) (i m : Nat) : Prop :=
  ∃ es, outs[m]? = some es ∧ ∃ e ∈ es, s.Piece i e

variable {s : Stream} {a b i j k m n : Nat} {e : Expr} {es : List Expr} {g : List Nat} {groups : List (List Nat)}
  {outs : List (List Expr)}

/-! ## Data -/

theorem dataText_spansData (hi : (s.get i).kind = .data) : (s.get i).dataText.spansData s.tokens.toList = true :=
  List.any_eq_true.2 ⟨s.get i, s.get_mem i, Bool.and_eq_true_iff.2 ⟨beq_iff_eq.2 hi, beq_self_eq_true _⟩⟩

/-- What spans a data token begins with data. -/
theorem Begins.kind_of_spansData (h : s.Begins i k e) (hs : s.Scanned)
    (hspans : e.spansData s.tokens.toList = true) : (s.get k).kind = .data := by
  cases e with
  | const c span =>
    obtain ⟨t, ht, hdata⟩ := List.any_eq_true.1 hspans
    rw [s.toList_eq_map_get] at ht
    obtain ⟨l, -, rfl⟩ := List.mem_map.1 ht
    obtain ⟨hkind, hsame⟩ := Bool.and_eq_true_iff.1 hdata
    rw [beq_iff_eq] at hkind hsame
    have hstart : (s.get l).span.start = (s.get k).span.start := by
      rw [hsame]
      exact h.start
    rwa [← hs.start_injective (by rw [hkind]; decide) h.kind hstart]
  | _ => cases hspans

theorem Piece.eq_dataText (h : s.Piece i e) (hi : (s.get i).kind = .data) : e = (s.get i).dataText := by
  cases h with
  | data => rfl
  | interpolation hk => rw [hi] at hk; cases hk

/-- A piece spans a data token if and only if it is data. -/
theorem Piece.spansData (h : s.Piece i e) (hs : s.Scanned) :
    e.spansData s.tokens.toList = decide ((s.get i).kind = .data) := by
  obtain ⟨k, hbegins, hdata⟩ := h.begins hs
  rw [Bool.eq_iff_iff, decide_eq_true_eq]
  constructor
  · exact fun hspans => hdata.1 (hbegins.kind_of_spansData hs hspans)
  · intro hi
    rw [h.eq_dataText hi]
    exact dataText_spansData hi

/-- The texts of an output that span data tokens are those of its data tokens. -/
theorem Fills.filter (h : s.Fills g es) (hs : s.Scanned) : es.filter (Expr.spansData s.tokens.toList) =
    (g.filter fun i => decide ((s.get i).kind = .data)).map fun i => (s.get i).dataText := by
  cases h with
  | pieces hne h =>
    clear hne
    induction h with
    | nil => rfl
    | @cons i e g es hpiece _ ih =>
      rw [List.filter_cons, List.filter_cons, hpiece.spansData hs, ih]
      by_cases hk : (s.get i).kind = .data
      · rw [if_pos (decide_eq_true hk), if_pos (decide_eq_true hk), List.map_cons, hpiece.eq_dataText hk]
      · simp only [hk, decide_false, Bool.false_eq_true, if_false]
  | print h =>
    refine List.filter_eq_nil_iff.2 fun e he hspans => ?_
    obtain ⟨i, k, hbegins, -, hkind⟩ := h.begins he hs
    exact hkind (hbegins.kind_of_spansData hs hspans)

theorem Grouped.filter (h : s.Grouped a b groups outs) (hs : s.Scanned) :
    outs.flatten.filter (Expr.spansData s.tokens.toList) =
      ((s.places TokenKind.isPiece a b).filter fun i => decide ((s.get i).kind = .data)).map
        fun i => (s.get i).dataText := by
  rw [← h.places]
  have hfills := h.fills
  clear h
  induction hfills with
  | nil => rfl
  | cons hg _ ih =>
    rw [List.flatten_cons, List.flatten_cons, List.filter_append, List.filter_append, List.map_append,
      hg.filter hs, ih]

/-- The data tokens of a stream are those among its pieces. -/
theorem data_tokens (s : Stream) :
    (s.tokens.toList.filter fun t => decide (t.kind = .data)).map Token.dataText =
      ((s.places TokenKind.isPiece 0 s.tokens.size).filter fun i => decide ((s.get i).kind = .data)).map
        fun i => (s.get i).dataText := by
  have hpiece (i : Nat) : (decide ((s.get i).kind = .data) && (s.get i).kind.isPiece) =
      decide ((s.get i).kind = .data) := by
    generalize (s.get i).kind = k
    cases k <;> rfl
  rw [s.toList_eq_map_get, List.filter_map, List.map_map, places, List.filter_filter]
  simp only [hpiece]
  rfl

/-! ## Outputs of pieces -/

theorem Fills.mem_of_piece (h : s.Fills g es) (he : e ∈ es) (hpiece : s.Piece i e) (hs : s.Scanned) : i ∈ g := by
  cases h with
  | pieces hne h =>
    clear hne
    induction h with
    | nil => cases he
    | @cons j e' g es hj _ ih =>
      rcases List.mem_cons.1 he with rfl | he
      · rw [hpiece.unique hj hs]
        exact List.mem_cons_self
      · exact List.mem_cons_of_mem j (ih he)
  | print h => exact absurd hpiece (h.not_piece he hs)

theorem Fills.exists_piece (h : s.Fills g es) (hi : i ∈ g) : ∃ e ∈ es, s.Piece i e := by
  cases h with
  | pieces hne h =>
    clear hne
    induction h with
    | nil => cases hi
    | @cons j e g es hj _ ih =>
      rcases List.mem_cons.1 hi with rfl | hi
      · exact ⟨e, List.mem_cons_self, hj⟩
      · obtain ⟨e', he', hpiece⟩ := ih hi
        exact ⟨e', List.mem_cons_of_mem e he', hpiece⟩
  | print => cases hi

/-- A piece stands in an output if and only if its position is in the group of the output. -/
theorem Grouped.standsIn_iff (h : s.Grouped a b groups outs) (hs : s.Scanned) :
    s.StandsIn outs i m ↔ ∃ g, groups[m]? = some g ∧ i ∈ g := by
  -- outputs and groups are numbered alike
  obtain ⟨hlength, hfills⟩ := List.forall₂_iff_get.1 h.fills
  constructor
  · rintro ⟨es, hm, e, he, hpiece⟩
    obtain ⟨hlt, rfl⟩ := List.getElem?_eq_some_iff.1 hm
    have hlt' : m < groups.length := by omega
    exact ⟨_, List.getElem?_eq_getElem hlt', (hfills m hlt' hlt).mem_of_piece he hpiece hs⟩
  · rintro ⟨g, hm, hi⟩
    obtain ⟨hlt, rfl⟩ := List.getElem?_eq_some_iff.1 hm
    have hlt' : m < outs.length := by omega
    exact ⟨_, List.getElem?_eq_getElem hlt', (hfills m hlt hlt').exists_piece hi⟩

theorem Grouped.exists_standsIn (h : s.Grouped a b groups outs) (hs : s.Scanned)
    (hi : i ∈ s.places TokenKind.isPiece a b) : ∃ m, s.StandsIn outs i m := by
  rw [← h.places] at hi
  obtain ⟨g, hg, hi⟩ := List.mem_flatten.1 hi
  obtain ⟨m, hm⟩ := List.getElem?_of_mem hg
  exact ⟨m, (h.standsIn_iff hs).2 ⟨g, hm, hi⟩⟩

theorem Grouped.same_output_iff (h : s.Grouped a b groups outs) (hs : s.Scanned) (hi : s.StandsIn outs i m)
    (hj : s.StandsIn outs j n) (hij : i ≤ j) : m = n ↔ s.Together i j := by
  obtain ⟨g, hm, hi⟩ := (h.standsIn_iff hs).1 hi
  obtain ⟨g', hn, hj⟩ := (h.standsIn_iff hs).1 hj
  exact h.same_iff hm hn hi hj hij

end Stream

/-! ## Templates -/

namespace Environment

/-- The template that is read from a source gathers all its pieces. -/
theorem readTemplate_gathers {env : Environment} (hb : env.IsBuiltin) {filename : Option Text} {source : Text}
    {doc : Document} (h : env.readTemplate filename source = .ok doc) :
    ∃ s : Stream, env.tokens filename source = .ok s.tokens.toList ∧ s.Scanned ∧
      s.Gathers 0 s.tokens.size (Node.template doc.template).outputs := by
  obtain ⟨s, d, z, hts, hlayout, q, hdoc⟩ := readTemplate_composes hb h
  have hscanned := hlayout.scanned
  refine ⟨s, hts, hscanned, ?_⟩
  obtain ⟨⟨groups, hgrouped⟩, hend⟩ := hdoc.gathers hscanned.data
  obtain ⟨-, hclose⟩ := hlayout.closes
  -- the end token is no piece, so that it does not matter how far behind it the template ends
  have hall (m : Nat) (hm : s.tokens.size - 1 ≤ m) :
      s.places TokenKind.isPiece 0 m = s.places TokenKind.isPiece 0 (s.tokens.size - 1) := by
    have hnone : s.places TokenKind.isPiece (s.tokens.size - 1) m = [] :=
      Stream.places_eq_nil fun i hi _ => by rw [(hclose i).2 hi]; rfl
    rw [← Stream.places_append (Nat.zero_le _) hm, hnone, List.append_nil]
  have hplaces := (hall q ((hclose q).1 hend)).trans (hall s.tokens.size (Nat.sub_le _ 1)).symm
  rw [Node.template_outputs]
  exact ⟨groups, Nat.zero_le _, hgrouped.fills, hgrouped.places.trans hplaces, hgrouped.together, hgrouped.apart⟩

/-- The data of a template survives: the constants in its outputs that span data tokens are the texts of the data
tokens of the source, each of them once and in their order. The piece of every data token and interpolation stands
in an output, and two of them stand in the same one if and only if no statement tag begins between them. -/
theorem data_survives (env : Environment) (hb : env.IsBuiltin) (filename : Option Text) (source : Text)
    (doc : Document) (h : env.readTemplate filename source = .ok doc) :
    ∃ s : Stream, env.tokens filename source = .ok s.tokens.toList ∧
      (Node.template doc.template).outputs.flatten.filter (Expr.spansData s.tokens.toList) =
        (s.tokens.toList.filter fun t => decide (t.kind = .data)).map Token.dataText ∧
      (∀ i ∈ s.places TokenKind.isPiece 0 s.tokens.size, ∃ m, s.StandsIn (Node.template doc.template).outputs i m) ∧
      ∀ i j m n, i ≤ j → s.StandsIn (Node.template doc.template).outputs i m →
        s.StandsIn (Node.template doc.template).outputs j n →
          (m = n ↔ ∀ k, i < k → k < j → (s.get k).kind ≠ .blockBegin) := by
  obtain ⟨s, hts, hs, groups, hgrouped⟩ := readTemplate_gathers hb h
  refine ⟨s, hts, ?_, fun i hi => hgrouped.exists_standsIn hs hi, fun i j m n hij hi hj => ?_⟩
  · rw [hgrouped.filter hs, s.data_tokens]
  · exact hgrouped.same_output_iff hs hi hj hij

/-- Data and an interpolation before a conditional, data in it, and an interpolation behind it. -/
theorem data_survives_conditional :
    let source : Text := "a\x7b\x7b b \x7d\x7d\x7b% if c %\x7dd\x7b% endif %\x7d\x7b\x7b e \x7d\x7d"
    withLoopControls.IsBuiltin ∧ ∃ doc, withLoopControls.readTemplate none source = .ok doc ∧
      doc.template.body.map (fun st => (Node.stmt st).typeName) = ["Output", "If", "Output"].map Text.ofString ∧
      ∃ s : Stream, withLoopControls.tokens none source = .ok s.tokens.toList ∧
        (Node.template doc.template).outputs.flatten.filter (Expr.spansData s.tokens.toList) =
          (s.tokens.toList.filter fun t => decide (t.kind = .data)).map Token.dataText ∧
        (∀ i ∈ s.places TokenKind.isPiece 0 s.tokens.size,
          ∃ m, s.StandsIn (Node.template doc.template).outputs i m) ∧
        ∀ i j m n, i ≤ j → s.StandsIn (Node.template doc.template).outputs i m →
          s.StandsIn (Node.template doc.template).outputs j n →
            (m = n ↔ ∀ k, i < k → k < j → (s.get k).kind ≠ .blockBegin) := by
  intro source
  have hread := withLoopControls.readTemplate_of_counted none source (fun
    | .ok t => decide
      (t.body.map (fun st => (Node.stmt st).typeName) = ["Output", "If", "Output"].map Text.ofString)
    | .error _ => false) (by decide +kernel)
  clear_value source
  cases hdoc : withLoopControls.readTemplate none source with
  | error e => rw [hdoc] at hread; cases hread
  | ok doc =>
    rw [hdoc] at hread
    exact ⟨withLoopControls_isBuiltin, doc, rfl, of_decide_eq_true hread,
      withLoopControls.data_survives withLoopControls_isBuiltin none source doc hdoc⟩

end Environment
end Stencil
