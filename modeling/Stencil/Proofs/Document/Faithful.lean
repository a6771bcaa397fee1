/-
The JSON text of a template is faithful. It reads as the record of the template's tree, and the record is the tree: the
same nodes, fields, spans and lists, with its constants kept (`json_tree_faithful`). Only a number too great for the
finite ones is lost, because JSON has no numeral for it (`infinite_reads_as_null`).
-/
import Stencil.Proofs.Document.Literal
import Stencil.Proofs.Order.Statement
import Stencil.Proofs.Span.Location
import Stencil.Tool.Tree

namespace Stencil

/-! ## Places -/

/-- The natural numbers that are numbers of their own are read back. -/
theorem Json.counts_of_le {n : Nat} (hn : n ≤ 2 ^ 53) : Counts n := by
  obtain ⟨m, e, hcanonical, hvalue, -, hinteger⟩ := Double.ofNat_canonical hn
  refine ⟨?_, hinteger⟩
  rw [ofNat, hvalue]
  exact .number hcanonical

/-- The coordinates of a place in a source do not exceed its length, or by one. -/
theorem Location.TrueIn.legible {source : Text} {l : Location} (h : l.TrueIn source)
    (hlength : source.length < 2 ^ 53) : l.Legible := by
  obtain ⟨hoffset, hline, hcolumn⟩ := h
  have htake : (source.take l.offset).length ≤ source.length := List.length_take_le' ..
  have hcount : (source.take l.offset).count (Text.unit '\n') ≤ (source.take l.offset).length := List.count_le_length
  have hrun : ((source.take l.offset).reverse.takeWhile (· ≠ Text.unit '\n')).length ≤
      (source.take l.offset).reverse.length := (List.takeWhile_prefix _).length_le
  rw [List.length_reverse] at hrun
  exact ⟨Json.counts_of_le (by omega), Json.counts_of_le (by omega), Json.counts_of_le (by omega)⟩

/-! ## Templates -/

theorem Node.constant?_eq_some {n : Node} {c : Constant} : n.constant? = some c ↔ ∃ s, n = .expr (.const c s) := by
  constructor
  · intro h
    unfold constant? at h
    split at h
    · cases h
      exact ⟨_, rfl⟩
    · cases h
  · rintro ⟨s, rfl⟩
    rfl

/-- The text records the template: it reads as the record of the template with its constants kept, this record is that
template, and nothing is kept but of constants that are nothing, and of the infinite number. -/
structure Template.RecordedBy (t : Template) (text : Text) : Prop where
  value : Json.read text = some (t.mapConstants Constant.kept).json
  tree : (Json.read text).bind Template.ofJson? = some (t.mapConstants Constant.kept)
  nothing : ∀ c ∈ (Node.template t).constants, c.kept = .none → c = .none ∨ c = .number (.infinite false)

namespace Environment

variable {env : Environment} {filename : Option Text} {source : Text} {doc : Document}

/-- Every constant of a template is written in its source, and no number has a sign. -/
theorem constants_unsigned (hb : env.IsBuiltin) (hdoc : env.readTemplate filename source = .ok doc) :
    ∀ c ∈ (Node.template doc.template).constants, c.IsUnsigned := by
  obtain ⟨s, d, z, hts, hlayout, q, h⟩ := readTemplate_composes hb hdoc
  have hbody := (h.arranges fun _ _ _ _ _ h => h.1.arranges).row .origin rfl
  intro c hc
  obtain ⟨n, hn, hconstant⟩ := List.mem_filterMap.1 hc
  obtain ⟨span, rfl⟩ := Node.constant?_eq_some.1 hconstant
  rcases Node.mem_descendants.1 hn with hroot | ⟨n, hchild, hn⟩
  · cases hroot
  · obtain ⟨x, y, hordered⟩ := hbody.of_mem_descendants (List.mem_flatMap.2 ⟨n, hchild, hn⟩)
    obtain ⟨v, rfl⟩ | ⟨i, hdenotes⟩ := hordered.written
    · exact fun _ h => nomatch h
    · exact hdenotes.isUnsigned (Scan.tokensFrom_isNumeric env.isSound hts _ (s.get_mem i))

theorem template_legible (hb : env.IsBuiltin) (hdoc : env.readTemplate filename source = .ok doc)
    (hlength : source.length < 2 ^ 53) : ∀ n ∈ (Node.template doc.template).descendants, n.Legible := by
  obtain ⟨s, hts, q, hresult⟩ := (readTemplate_yields hb filename source).1 doc hdoc
  obtain ⟨d, z, hlayout⟩ := tokens_faithful.layout _ hts
  have htrue := Node.template_trueIn hlayout.origin_true hresult
  intro n hn
  refine ⟨(htrue n hn).1.legible hlength, (htrue n hn).2.legible hlength, fun c hc => ?_⟩
  exact (constants_unsigned hb hdoc c (List.mem_filterMap.2 ⟨n, hn, hc⟩)).decodes

/-- The JSON text of the tree of a template records the template, on every platform. No text has `2 ^ 53` units or more,
since its length is a safe integer. -/
theorem json_tree_faithful (host : Tool.Host) (env : Environment) (hb : env.IsBuiltin) (filename : Option Text)
    (source : Text) (hlength : source.length < 2 ^ 53) :
    ∀ doc, env.readTemplate filename source = .ok doc →
      doc.template.RecordedBy (Tool.Tree.write host doc.template .json) := by
  intro doc hdoc
  obtain ⟨hreads, hcomponent⟩ := Node.Legible.decodes (template_legible hb hdoc hlength)
  have hread : Json.read (Tool.Tree.write host doc.template .json) =
      some (doc.template.mapConstants Constant.kept).json := hreads.read_pretty
  refine ⟨hread, ?_, fun c hc hnone => (constants_unsigned hb hdoc c hc).kept_eq_none hnone⟩
  have hrecord : (doc.template.mapConstants Constant.kept).json.component? =
      some (.node (.template (doc.template.mapConstants Constant.kept))) := hcomponent
  rw [hread, Option.bind_some, Template.ofJson?, hrecord]

/-- A fraction, an integer beyond the safe range, a text with a quote and nothing. -/
theorem json_tree_faithful_list :
    let source : Text := "\x7b\x7b [0.1, 12345678901234567890, '\"', none] \x7d\x7d"
    withLoopControls.IsBuiltin ∧ source.length < 2 ^ 53 ∧ ∃ doc, withLoopControls.readTemplate none source = .ok doc ∧
      (Node.template doc.template).constants.map Constant.kept = [.number (.finite false 7205759403792794 (-56)),
        .text "12345678901234567890", .text "\"", .none] ∧
      ∀ host : Tool.Host, doc.template.RecordedBy (Tool.Tree.write host doc.template .json) := by
  intro source
  have hread := withLoopControls.readTemplate_of_counted none source (fun
    | .ok t => decide ((Node.template t).constants.map Constant.kept =
        [.number (.finite false 7205759403792794 (-56)), .text "12345678901234567890", .text "\"", .none])
    | .error _ => false) (by decide +kernel)
  have hlength : source.length < 2 ^ 53 := by decide +kernel
  clear_value source
  cases hdoc : withLoopControls.readTemplate none source with
  | error e => rw [hdoc] at hread; cases hread
  | ok doc =>
    rw [hdoc] at hread
    refine ⟨withLoopControls_isBuiltin, hlength, doc, rfl, of_decide_eq_true hread, fun host => ?_⟩
    exact json_tree_faithful host withLoopControls withLoopControls_isBuiltin none source hlength doc hdoc

/-- A number of more than three hundred digits is infinite, and its text is that of nothing. -/
theorem infinite_reads_as_null : ∃ doc t,
    standard.readTemplate none ("\x7b\x7b 1" ++ List.replicate 309 (Text.unit '0') ++ ".0 \x7d\x7d") = .ok doc ∧
      (Node.template doc.template).constants = [.number (.infinite false)] ∧
      (∀ host : Tool.Host, (Json.read (Tool.Tree.write host doc.template .json)).bind Template.ofJson? = some t) ∧
      (Node.template t).constants = [.none] := by
  generalize hsource : Text.ofString "\x7b\x7b 1" ++ List.replicate 309 (Text.unit '0') ++
    Text.ofString ".0 \x7d\x7d" = source
  have hread := standard.readTemplate_of_counted none source (fun
    | .ok t => decide ((Node.template t).constants = [.number (.infinite false)]) &&
        ((Json.read t.json.pretty).bind Template.ofJson?).any fun t' =>
          decide ((Node.template t').constants = [.none])
    | .error _ => false) (by subst hsource; decide +kernel)
  cases hdoc : standard.readTemplate none source with
  | error e => rw [hdoc] at hread; cases hread
  | ok doc =>
    rw [hdoc] at hread
    obtain ⟨hconstants, hdecoded⟩ := Bool.and_eq_true_iff.1 hread
    obtain ⟨t, ht, hnone⟩ := (Option.any_eq_true _ _).1 hdecoded
    exact ⟨doc, t, rfl, of_decide_eq_true hconstants, fun _ => ht, of_decide_eq_true hnone⟩

end Environment
end Stencil
