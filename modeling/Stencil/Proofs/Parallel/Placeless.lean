/-
Layout does not matter. A stream is read as its tokens are read without their places, so that two streams whose
tokens have the same kinds and values are read as one tree up to spans, or fail alike (`template_alike`). Sources
whose tokens differ in their places only, by white space in tags or by comments, are thus one template.
-/
import Stencil.Proofs.Parallel.Run
import Stencil.Proofs.Span.Reading
import Stencil.Proofs.Words.Spelling

namespace Stencil

/-! ## A moved tree is the same up to spans -/

section

variable (f : Location → Location)

mutual

theorem Expr.bare_mapPlaces : ∀ e : Expr, (e.mapPlaces f).bare = e.bare
  | .const _ _ | .name _ _ _ => by rw [Expr.mapPlaces, Expr.bare, Expr.bare]
  | .tuple items _ _ | .list items _ => by
    rw [Expr.mapPlaces, Expr.bare, Expr.bare, Expr.bares_mapPlaces items]
  | .dict items _ => by rw [Expr.mapPlaces, Expr.bare, Expr.bare, Pair.bares_mapPlaces items]
  | .binary _ left right _ => by
    rw [Expr.mapPlaces, Expr.bare, Expr.bare, Expr.bare_mapPlaces left, Expr.bare_mapPlaces right]
  | .unary _ operand _ => by rw [Expr.mapPlaces, Expr.bare, Expr.bare, Expr.bare_mapPlaces operand]
  | .compare first operands _ => by
    rw [Expr.mapPlaces, Expr.bare, Expr.bare, Expr.bare_mapPlaces first, Operand.bares_mapPlaces operands]
  | .cond test whenTrue whenFalse _ => by
    rw [Expr.mapPlaces, Expr.bare, Expr.bare, Expr.bare_mapPlaces test, Expr.bare_mapPlaces whenTrue,
      Expr.bare_mapPlaces whenFalse]
  | .subscript object index _ _ => by
    rw [Expr.mapPlaces, Expr.bare, Expr.bare, Expr.bare_mapPlaces object, Expr.bare_mapPlaces index]
  | .slice start stop step _ => by
    rw [Expr.mapPlaces, Expr.bare, Expr.bare, Expr.bareOption_mapPlaces start, Expr.bareOption_mapPlaces stop,
      Expr.bareOption_mapPlaces step]
  | .call callee args _ => by
    rw [Expr.mapPlaces, Expr.bare, Expr.bare, Expr.bare_mapPlaces callee, Arguments.bare_mapPlaces args]
  | .filter input _ args _ => by
    rw [Expr.mapPlaces, Expr.bare, Expr.bare, Expr.bareOption_mapPlaces input, Arguments.bare_mapPlaces args]
  | .test subject _ args _ => by
    rw [Expr.mapPlaces, Expr.bare, Expr.bare, Expr.bare_mapPlaces subject, Arguments.bare_mapPlaces args]

theorem Expr.bares_mapPlaces : ∀ es : List Expr, Expr.bares (Expr.mapPlacesAll f es) = Expr.bares es
  | [] => by rw [Expr.mapPlacesAll]
  | e :: es => by
    rw [Expr.mapPlacesAll, Expr.bares, Expr.bares, Expr.bare_mapPlaces e, Expr.bares_mapPlaces es]

theorem Expr.bareOption_mapPlaces : ∀ o : Option Expr, Expr.bareOption (Expr.mapPlacesOption f o) = Expr.bareOption o
  | none => by rw [Expr.mapPlacesOption]
  | some e => by rw [Expr.mapPlacesOption, Expr.bareOption, Expr.bareOption, Expr.bare_mapPlaces e]

theorem Pair.bare_mapPlaces : ∀ p : Pair, (p.mapPlaces f).bare = p.bare
  | .mk key value _ => by
    rw [Pair.mapPlaces, Pair.bare, Pair.bare, Expr.bare_mapPlaces key, Expr.bare_mapPlaces value]

theorem Pair.bares_mapPlaces : ∀ ps : List Pair, Pair.bares (Pair.mapPlacesAll f ps) = Pair.bares ps
  | [] => by rw [Pair.mapPlacesAll]
  | p :: ps => by rw [Pair.mapPlacesAll, Pair.bares, Pair.bares, Pair.bare_mapPlaces p, Pair.bares_mapPlaces ps]

theorem Operand.bare_mapPlaces : ∀ o : Operand, (o.mapPlaces f).bare = o.bare
  | .mk _ e _ => by rw [Operand.mapPlaces, Operand.bare, Operand.bare, Expr.bare_mapPlaces e]

theorem Operand.bares_mapPlaces : ∀ os : List Operand, Operand.bares (Operand.mapPlacesAll f os) = Operand.bares os
  | [] => by rw [Operand.mapPlacesAll]
  | o :: os => by
    rw [Operand.mapPlacesAll, Operand.bares, Operand.bares, Operand.bare_mapPlaces o, Operand.bares_mapPlaces os]

theorem KeywordArg.bare_mapPlaces : ∀ k : KeywordArg, (k.mapPlaces f).bare = k.bare
  | .mk _ value _ => by rw [KeywordArg.mapPlaces, KeywordArg.bare, KeywordArg.bare, Expr.bare_mapPlaces value]

theorem KeywordArg.bares_mapPlaces : ∀ ks : List KeywordArg,
    KeywordArg.bares (KeywordArg.mapPlacesAll f ks) = KeywordArg.bares ks
  | [] => by rw [KeywordArg.mapPlacesAll]
  | k :: ks => by
    rw [KeywordArg.mapPlacesAll, KeywordArg.bares, KeywordArg.bares, KeywordArg.bare_mapPlaces k,
      KeywordArg.bares_mapPlaces ks]

theorem Arguments.bare_mapPlaces : ∀ a : Arguments, (a.mapPlaces f).bare = a.bare
  | .mk positional keywords spread keywordSpread => by
    rw [Arguments.mapPlaces, Arguments.bare, Arguments.bare, Expr.bares_mapPlaces positional,
      KeywordArg.bares_mapPlaces keywords, Expr.bareOption_mapPlaces spread, Expr.bareOption_mapPlaces keywordSpread]

end

theorem Signature.bare_mapPlaces (g : Signature) : (g.mapPlaces f).bare = g.bare := by
  unfold Signature.mapPlaces Signature.bare
  simp only [List.map_map]
  refine congr (congrArg Signature.mk (List.map_congr_left fun _ _ => rfl)) (List.map_congr_left fun e _ => ?_)
  exact Expr.bare_mapPlaces f e

theorem Expr.map_bare_mapPlaces (es : List Expr) : (es.map (Expr.mapPlaces f)).map Expr.bare = es.map Expr.bare := by
  rw [List.map_map]
  exact List.map_congr_left fun e _ => Expr.bare_mapPlaces f e

mutual

theorem Stmt.bare_mapPlaces : ∀ s : Stmt, (s.mapPlaces f).bare = s.bare
  | .output nodes _ => by rw [Stmt.mapPlaces, Stmt.bare, Stmt.bare, Expr.map_bare_mapPlaces]
  | .assign target value _ => by
    rw [Stmt.mapPlaces, Stmt.bare, Stmt.bare, Expr.bare_mapPlaces, Expr.bare_mapPlaces]
  | .loop target iter body elseBody test _ => by
    rw [Stmt.mapPlaces, Stmt.bare, Stmt.bare, Expr.bare_mapPlaces, Expr.bare_mapPlaces, Stmt.bares_mapPlaces body,
      Stmt.bares_mapPlaces elseBody]
    cases test with
    | none => rfl
    | some e => simp only [Option.map_some, Expr.bare_mapPlaces]
  | .branch test body elseBody _ => by
    rw [Stmt.mapPlaces, Stmt.bare, Stmt.bare, Expr.bare_mapPlaces, Stmt.bares_mapPlaces body,
      Stmt.bares_mapPlaces elseBody]
  | .block _ body _ => by rw [Stmt.mapPlaces, Stmt.bare, Stmt.bare, Stmt.bares_mapPlaces body]
  | .extend template _ | .embed template _ | .importAs template _ _ | .importNames template _ _ => by
    rw [Stmt.mapPlaces, Stmt.bare, Stmt.bare, Expr.bare_mapPlaces]
  | .define _ signature body _ => by
    rw [Stmt.mapPlaces, Stmt.bare, Stmt.bare, Signature.bare_mapPlaces, Stmt.bares_mapPlaces body]
  | .callBlock signature call body _ => by
    rw [Stmt.mapPlaces, Stmt.bare, Stmt.bare, Signature.bare_mapPlaces, Expr.bare_mapPlaces,
      Stmt.bares_mapPlaces body]
  | .filterBlock filter body _ => by
    rw [Stmt.mapPlaces, Stmt.bare, Stmt.bare, Expr.bare_mapPlaces, Stmt.bares_mapPlaces body]
  | .expr node _ => by rw [Stmt.mapPlaces, Stmt.bare, Stmt.bare, Expr.bare_mapPlaces]
  | .breakLoop _ | .continueLoop _ => by rw [Stmt.mapPlaces, Stmt.bare, Stmt.bare]

theorem Stmt.bares_mapPlaces : ∀ ss : List Stmt, Stmt.bares (Stmt.mapPlacesAll f ss) = Stmt.bares ss
  | [] => by rw [Stmt.mapPlacesAll]
  | s :: ss => by rw [Stmt.mapPlacesAll, Stmt.bares, Stmt.bares, Stmt.bare_mapPlaces s, Stmt.bares_mapPlaces ss]

end

theorem Template.bare_mapPlaces (t : Template) : (t.mapPlaces f).bare = t.bare := by
  unfold Template.mapPlaces Template.bare
  simp only [← Stmt.mapPlacesAll_eq_map, Stmt.bares_mapPlaces]

end

/-! ## Outcomes that are alike -/

/-- The token at the origin with a content. -/
def Token.ofContent (x : TokenKind × Text) : Token := ⟨x.1, x.2, ⟨.origin, .origin⟩⟩

/-- Failures that say the same, but for the place and the text that tells of it. -/
def Failure.Alike : Failure → Failure → Prop
  | .reported d, .reported d' => d'.kind = d.kind ∧ d'.id = d.id ∧ d'.context = d.context
  | .fault f, .fault f' => f' = f
  | .reported _, .fault _ | .fault _, .reported _ => False

/-- Templates that are the same up to spans, or failures that are alike, at one position. -/
def Reply.Alike : Reply Template → Reply Template → Prop
  | .ok t q, .ok t' q' => t'.bare = t.bare ∧ q' = q
  | .fail e q, .fail e' q' => e.Alike e' ∧ q' = q
  | .ok _ _, .fail _ _ | .fail _ _, .ok _ _ => False

theorem Failure.Alike.of_moves {f : Location → Location} {filename filename' filename'' : Option Text}
    {e e' e'' : Failure} (h : e.Moves f filename filename'' e'') (h' : e'.Moves f filename' filename'' e'') :
    e.Alike e' := by
  cases e <;> cases e' <;> cases e'' <;> simp only [Failure.Moves] at h h'
  case reported.reported.reported d d' d'' =>
    obtain ⟨hkind, hid, hcontext, -⟩ := h.fields
    obtain ⟨hkind', hid', hcontext', -⟩ := h'.fields
    exact ⟨hkind'.symm.trans hkind, hid'.symm.trans hid, hcontext'.symm.trans hcontext⟩
  case fault.fault.fault x x' x'' => exact h'.symm.trans h

/-! ## Streams without places -/

namespace Stream

/-- The stream with all of its tokens at the origin, of no file. -/
def placeless (s : Stream) : Stream where
  tokens := s.tokens.map (Token.mapPlaces fun _ => .origin)
  ne_empty := by rw [Array.size_map]; exact s.ne_empty
  filename := none
  delimiters := .standard

theorem get_placeless (s : Stream) (i : Nat) : s.placeless.get i = (s.get i).mapPlaces fun _ => .origin := by
  have hlast : s.placeless.last = s.last.mapPlaces fun _ => .origin := by
    unfold last placeless
    simp only [Array.back_eq_getElem, Array.size_map, Array.getElem_map]
  unfold get
  rw [hlast]
  unfold placeless
  rw [Array.getElem?_map]
  cases s.tokens[i]? <;> rfl

theorem placeless_eq {s s' : Stream} (h : s'.tokens.toList.map Token.content = s.tokens.toList.map Token.content) :
    s'.placeless = s.placeless := by
  have hplaced (ts : List Token) :
      ts.map (Token.mapPlaces fun _ => .origin) = (ts.map Token.content).map Token.ofContent := by
    rw [List.map_map]
    rfl
  unfold placeless
  congr 1
  rw [← Array.toList_inj, Array.toList_map, Array.toList_map, hplaced, hplaced, h]

/-- A stream beside itself without places. -/
def besidePlaceless (s : Stream) (horizon : Nat) : Parallel where
  left := s
  right := s.placeless
  move := fun _ => .origin
  offset := 0
  horizon := horizon
  move_origin := rfl
  start := by
    show (s.placeless.get 0).span.finish = _
    rw [get_placeless]
    rfl
  same i _ := s.get_placeless i
  next i _ k k' _ _ := by rw [Nat.add_zero, get_placeless, Token.kind_mapPlaces]

end Stream

/-! ## Reading -/

namespace Grammar

variable {find : Text → Option Extension}

/-- A template is read as it is read without places. -/
theorem template_placeless (hx : FindsBuiltin find) (s : Stream) :
    (s.besidePlaceless (ofExtensions find .template s 0).pos).Carried (Template.mapPlaces fun _ => .origin)
      (ofExtensions find .template s 0) (ofExtensions find .template s.placeless 0) := by
  have hdepth : depth s.placeless = depth s := by
    unfold depth Stream.placeless
    rw [Array.size_map]
  rw [ofExtensions_apply (s := s.placeless), hdepth]
  exact (run_carries_all (m := s.besidePlaceless _) hx (depth s) .template).2 (Nat.le_refl _)

theorem template_alike (hx : FindsBuiltin find) {s s' : Stream}
    (h : s'.tokens.toList.map Token.content = s.tokens.toList.map Token.content) :
    (ofExtensions find .template s 0).Alike (ofExtensions find .template s' 0) := by
  -- without places the two streams are one, and its outcome is that of either at the origin
  have hs := template_placeless hx s
  have hs' := template_placeless hx s'
  rw [Stream.placeless_eq h] at hs'
  generalize ofExtensions find .template s 0 = r at hs
  generalize ofExtensions find .template s' 0 = r' at hs'
  cases r with
  | ok t q =>
    rw [Parallel.Carried] at hs
    rw [hs] at hs'
    cases r' with
    | ok t' q' =>
      obtain ⟨ht, hq⟩ := Reply.ok.inj hs'
      refine ⟨?_, hq.symm⟩
      rw [← t.bare_mapPlaces fun _ => .origin, ← t'.bare_mapPlaces fun _ => .origin, ht]
    | fail e' q' =>
      obtain ⟨_, hfail, -⟩ := hs'
      cases hfail
  | fail e q =>
    obtain ⟨placeless, hfail, hmoves⟩ := hs
    rw [hfail] at hs'
    cases r' with
    | ok t' q' => cases hs'
    | fail e' q' =>
      obtain ⟨_, hfail', hmoves'⟩ := hs'
      cases hfail'
      exact ⟨.of_moves hmoves hmoves', rfl⟩

end Grammar

/-- Layout is immaterial. Under built-in extensions two streams whose tokens agree in kind and value, whatever their
places, are read as templates that are the same up to spans, or fail alike at the same position; and so it is with
two sources whose tokens agree in kind and value. -/
theorem Environment.layout_immaterial (env : Environment) (hb : env.IsBuiltin) :
    (∀ s s' : Stream, s'.tokens.toList.map Token.content = s.tokens.toList.map Token.content →
      (env.grammar .template s 0).Alike (env.grammar .template s' 0)) ∧
    ∀ filename filename' source source' ts ts', env.tokens filename source = .ok ts →
      env.tokens filename' source' = .ok ts' → ts'.map Token.content = ts.map Token.content →
        match env.readTemplate filename source, env.readTemplate filename' source' with
        | .ok d, .ok d' => d'.template.bare = d.template.bare
        | .error e, .error e' => e.Alike e'
        | .ok _, .error _ | .error _, .ok _ => False := by
  have hstreams (s s' : Stream) (h : s'.tokens.toList.map Token.content = s.tokens.toList.map Token.content) :
      (env.grammar .template s 0).Alike (env.grammar .template s' 0) := Grammar.template_alike hb.findsBuiltin h
  refine ⟨hstreams, ?_⟩
  intro filename filename' source source' ts ts' hts hts' hcontent
  have hlength : ts'.length = ts.length := by simpa using congrArg List.length hcontent
  unfold readTemplate readTokens Stream.ofTokens
  rw [hts, hts']
  simp only [List.size_toArray, hlength]
  by_cases hsize : 0 < ts.length
  · have hsize' : 0 < ts'.length := by rw [hlength]; exact hsize
    have halike := hstreams ⟨ts.toArray, hsize, filename, env.delimiters⟩
      ⟨ts'.toArray, hsize', filename', env.delimiters⟩ hcontent
    simp only [dif_pos hsize]
    revert halike
    cases env.grammar .template ⟨ts.toArray, hsize, filename, env.delimiters⟩ 0 <;>
      cases env.grammar .template ⟨ts'.toArray, hsize', filename', env.delimiters⟩ 0
    · exact And.left
    · exact id
    · exact id
    · exact And.left
  · -- neither scan has left a token
    simp only [dif_neg hsize]
    exact rfl

/-- White space in a tag and a comment beside it change places only. -/
theorem Environment.layout_immaterial_comment :
    let source : Text := "\x7b\x7ba\x7d\x7d"
    let source' : Text := "\x7b# c #\x7d\x7b\x7b\n a \x7d\x7d"
    withLoopControls.IsBuiltin ∧ ∃ ts ts', withLoopControls.tokens none source = .ok ts ∧
      withLoopControls.tokens none source' = .ok ts' ∧ ts'.map Token.content = ts.map Token.content ∧
        ts'.map (·.span.start.line) ≠ ts.map (·.span.start.line) ∧
        match withLoopControls.readTemplate none source, withLoopControls.readTemplate none source' with
        | .ok d, .ok d' => d'.template.bare = d.template.bare
        | .error e, .error e' => e.Alike e'
        | .ok _, .error _ | .error _, .ok _ => False := by
  intro source source'
  let contents : List (TokenKind × Text) :=
    [(.variableBegin, "\x7b\x7b"), (.name, "a"), (.variableEnd, "\x7d\x7d"), (.eof, "")]
  have hread := withLoopControls.tokens_of_counted none source (fun result =>
    result.toOption.any fun ts =>
      decide (ts.map Token.content = contents ∧ ts.map (·.span.start.line) = [1, 1, 1, 1])) (by decide +kernel)
  have hread' := withLoopControls.tokens_of_counted none source' (fun result =>
    result.toOption.any fun ts =>
      decide (ts.map Token.content = contents ∧ ts.map (·.span.start.line) = [1, 2, 2, 2])) (by decide +kernel)
  clear_value source source'
  cases hts : withLoopControls.tokens none source with
  | error d => rw [hts] at hread; cases hread
  | ok ts =>
    cases hts' : withLoopControls.tokens none source' with
    | error d => rw [hts'] at hread'; cases hread'
    | ok ts' =>
      rw [hts] at hread
      rw [hts'] at hread'
      obtain ⟨hcontent, hlines⟩ := of_decide_eq_true hread
      obtain ⟨hcontent', hlines'⟩ := of_decide_eq_true hread'
      have hb := withLoopControls_isBuiltin
      have hsame : ts'.map Token.content = ts.map Token.content := hcontent'.trans hcontent.symm
      refine ⟨hb, ts, ts', rfl, rfl, hsame, by rw [hlines, hlines']; decide, ?_⟩
      exact (withLoopControls.layout_immaterial hb).2 none none source source' ts ts' hts hts' hsame

end Stencil
