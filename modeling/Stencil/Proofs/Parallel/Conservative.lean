/-
Extensions are conservative: one more extension, whatever it does, changes nothing about the templates in which none
of its tags begins a block tag. Its tags may stand anywhere else, as names of variables, attributes or blocks.
-/
import Mathlib.Data.List.Chain
import Stencil.Proofs.Parallel.Lookahead
import Stencil.Proofs.Span.Reading

namespace Stencil

/-! ## Tags -/

namespace Extension

/-- An extension that is added takes no tag but its own, and of these only those that are free. -/
theorem find?_append {xs : List Extension} {x : Extension} {tag : Text} (h : tag ∉ x.tags) :
    find? (xs ++ [x]) tag = find? xs tag := by
  -- the table is filled in order, and the claims of the extension are added behind all others
  have hfold (claims : List Text) (hclaims : tag ∉ claims) (acc : List (Text × Extension)) :
      ((claims.map fun t => (t, x)).foldl (fun acc y => if acc.any (·.1 == y.1) then acc else acc ++ [y]) acc).find?
        (·.1 == tag) = acc.find? (·.1 == tag) := by
    induction claims generalizing acc with
    | nil => rfl
    | cons t claims ih =>
      rw [List.mem_cons, not_or] at hclaims
      rw [List.map_cons, List.foldl_cons, ih hclaims.2]
      split
      · rfl
      · rw [List.find?_append, List.find?_singleton, if_neg (by simpa using Ne.symm hclaims.1), Option.or_none]
  unfold find? table
  rw [List.flatMap_append, List.flatMap_singleton, List.foldl_append]
  exact congrArg (Option.map _) (hfold x.tags h _)

end Extension

/-! ## Reading -/

/-- A template is read as before if the tags in it lead to the same extensions. -/
theorem Grammar.template_eq_of_tags {find find' : Text → Option Extension} (hx : FindsBuiltin find) {s : Stream}
    (h : ∀ i, (s.get i).kind = .blockBegin → (s.get (i + 1)).kind = .name →
      find' (s.get (i + 1)).value = find (s.get (i + 1)).value) :
    ofExtensions find' .template s 0 = ofExtensions find .template s 0 := by
  -- the stream beside itself: only what the tags lead to is not the same on both sides
  let m : Parallel := (Stream.Agrees.refl s (ofExtensions find .template s 0).pos).beside
  have hcarried : m.Carried (Template.mapPlaces id) (ofExtensions find .template s 0)
      (ofExtensions find' .template s 0) := (run_carries (m := m) hx h (depth s) .template trivial).2 (Nat.le_refl _)
  exact hcarried.eq_of_fixed (p := .template) rfl rfl rfl

/-- No tag of the extension is a name behind the begin of a block tag. -/
def Extension.Untouched (x : Extension) (ts : List Token) : Prop :=
  ts.IsChain fun t u => t.kind = .blockBegin → u.kind = .name → u.value ∉ x.tags

instance (x : Extension) (ts : List Token) : Decidable (x.Untouched ts) :=
  inferInstanceAs (Decidable (List.IsChain _ ts))

theorem Extension.Untouched.get {x : Extension} {s : Stream} (h : x.Untouched s.tokens.toList) {i : Nat}
    (hbegin : (s.get i).kind = .blockBegin) (hname : (s.get (i + 1)).kind = .name) :
    (s.get (i + 1)).value ∉ x.tags := by
  have hsize : i + 1 < s.tokens.size := by
    refine Nat.lt_of_not_le fun hle => ?_
    rw [s.get_of_size_le hle] at hname
    rcases Nat.lt_or_ge i s.tokens.size with hlt | hge
    · have hend : i = s.tokens.size - 1 := by omega
      rw [hend, s.get_last, hname] at hbegin
      cases hbegin
    · rw [s.get_of_size_le hge, hname] at hbegin
      cases hbegin
  have hget {j : Nat} (hj : j < s.tokens.size) : s.tokens.toList[j] = s.get j := by
    unfold Stream.get
    rw [Array.getElem?_eq_getElem hj, Array.getElem_toList]
    rfl
  have hpair := List.isChain_iff_getElem.1 h i hsize
  rw [hget (by omega), hget hsize] at hpair
  exact hpair hbegin hname

theorem Environment.tokens_eq_of_delimiters {env env' : Environment} (h : env'.delimiters = env.delimiters) :
    env'.tokens = env.tokens := by
  obtain ⟨d, xs, hd, hxs⟩ := env
  obtain ⟨d', xs', hd', hxs'⟩ := env'
  obtain rfl : d' = d := h
  rfl

/-- Extensions are conservative. Let one more extension be added to an environment whose extensions are built-in ones.
Where none of its tags follows the begin of a block tag, a source is read as before: as the same template, or with the
same mistake. -/
theorem Environment.extensions_conservative (env env' : Environment) (hb : env.IsBuiltin) (x : Extension)
    (hdelimiters : env'.delimiters = env.delimiters) (hextensions : env'.extensions = env.extensions ++ [x])
    (filename : Option Text) (source : Text) (h : ∀ ts, env.tokens filename source = .ok ts → x.Untouched ts) :
    (env'.readTemplate filename source).map Document.template =
      (env.readTemplate filename source).map Document.template := by
  have hread : env'.readTokens filename (env'.grammar .template) (env'.tokens filename source) =
      env.readTokens filename (env.grammar .template) (env.tokens filename source) := by
    unfold readTokens Stream.ofTokens
    rw [tokens_eq_of_delimiters hdelimiters, hdelimiters]
    cases hts : env.tokens filename source with
    | error d => rfl
    | ok ts =>
      by_cases hsize : 0 < ts.toArray.size
      · have hsame : env'.grammar .template ⟨ts.toArray, hsize, filename, env.delimiters⟩ 0 =
            env.grammar .template ⟨ts.toArray, hsize, filename, env.delimiters⟩ 0 := by
          have huntouched : x.Untouched ts.toArray.toList := h ts hts
          unfold grammar
          rw [hextensions]
          exact Grammar.template_eq_of_tags hb.findsBuiltin fun i hbegin hname =>
            Extension.find?_append (Extension.Untouched.get huntouched hbegin hname)
        simp only [dif_pos hsize, hsame]
      · simp only [dif_neg hsize]
  unfold readTemplate
  rw [hread]
  generalize env.readTokens filename (env.grammar .template) (env.tokens filename source) = result
  cases result <;> rfl

/-- An extension that claims a tag and reads nothing. -/
def Extension.marker : Extension := ⟨"marker", ["mark"], fun _ => Parser.faultWith .depth⟩

def Environment.withMarker : Environment :=
  ⟨.standard, [Extension.loopControls, Extension.marker], Delimiters.standard_fault, by decide⟩

/-- The tag of the extension names a block, a variable and a filter. -/
theorem Environment.extensions_conservative_name :
    let source : Text := "\x7b% block mark %\x7d\x7b\x7b mark | mark \x7d\x7d\x7b% endblock %\x7d"
    withLoopControls.IsBuiltin ∧ withMarker.extensions = withLoopControls.extensions ++ [Extension.marker] ∧
      (∃ ts, withLoopControls.tokens none source = .ok ts ∧ Extension.marker.Untouched ts) ∧
        ∃ t, (withLoopControls.readTemplate none source).map Document.template = .ok t ∧
          (withMarker.readTemplate none source).map Document.template = .ok t := by
  intro source
  have htokens := withLoopControls.tokens_of_counted none source (fun result =>
    result.toOption.any fun ts => decide (Extension.marker.Untouched ts)) (by decide +kernel)
  have hread := withLoopControls.readTemplate_of_counted none source (·.toOption.isSome) (by decide +kernel)
  clear_value source
  have hb := withLoopControls_isBuiltin
  cases hts : withLoopControls.tokens none source with
  | error d => rw [hts] at htokens; cases htokens
  | ok ts =>
    rw [hts] at htokens
    have huntouched : Extension.marker.Untouched ts := of_decide_eq_true htokens
    have hsame := withLoopControls.extensions_conservative withMarker hb .marker rfl rfl none source (by
      intro us hus
      obtain rfl := Except.ok.inj (hts.symm.trans hus)
      exact huntouched)
    cases ht : (withLoopControls.readTemplate none source).map Document.template with
    | error e => rw [ht] at hread; cases hread
    | ok t => exact ⟨hb, rfl, ⟨ts, rfl, huntouched⟩, t, rfl, hsame.trans ht⟩

end Stencil
