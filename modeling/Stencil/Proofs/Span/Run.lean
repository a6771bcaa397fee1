/-
The grammar of a language places the trees that it reads, if its extensions do: one step of it does so
over any grammar that does, and a depth that is too low reads no tree.
-/
import Stencil.Proofs.Progress.Termination
import Stencil.Proofs.Span.Statement
import Stencil.Proofs.Span.Suffix

namespace Stencil.Grammar

variable {s : Stream} {g : Grammar} {find : Text → Option Extension}

/-- Every extension that is found by a tag places its statements. -/
def PlacesTags (s : Stream) (find : Text → Option Extension) : Prop :=
  ∀ ⦃name : Text⦄ ⦃x : Extension⦄, find name = some x → x.Places s

theorem step_places (h : g.Places s) (hx : PlacesTags s find) : (step find g).Places s := by
  intro p r a pos ha hr
  cases r with
  | expression conditional => exact expression_yields h ha conditional
  | cond => exact cond_yields h ha
  | condRest value => exact condRest_yields h ha hr
  | binary op => exact binary_yields h op ha
  | binaryRest op left => exact binaryRest_yields h ha op hr
  | compare => exact compare_yields h ha
  | compareRest => exact compareRest_yields h ha
  | unary => exact unary_yields h ha
  | primary withSuffixes => exact primary_yields h ha withSuffixes
  | tuple item => exact tuple_yields h ha item
  | tupleRest item => exact tupleRest_yields h ha item
  | list => exact list_yields h ha
  | listItems first => exact listItems_yields h ha first
  | dict => exact dict_yields h ha
  | dictItems first => exact dictItems_yields h ha first
  | suffixes e => exact suffixes_yields h ha hr
  | subscript object => exact subscript_yields h hr
  | subscriptItems first => exact subscriptItems_yields h ha first
  | subscriptItem => exact subscriptItem_yields h ha
  | call callee => exact call_yields h hr
  | «arguments» => exact arguments_yields h ha
  | argumentsRest opened args => exact argumentsRest_yields h ha hr
  | filter input => exact filter_yields h ha hr
  | filterChain input => exact filterChain_yields h ha hr
  | filterRest e => exact filterRest_yields h ha hr
  | singleFilter input => exact singleFilter_yields h ha hr
  | test subject => exact test_yields h hr
  | statement => exact statement_yields h hx ha
  | statements ends dropEnd => exact statements_yields h ha ends dropEnd
  | content ends pending => exact content_yields h ha ends hr
  | assign target => exact assign_yields h hr
  | loop => exact loop_yields h ha
  | conditional => exact conditional_yields h ha
  | branches => exact branches_yields h ha
  | block => exact block_yields h ha
  | extend => exact extend_yields h ha
  | embed => exact embed_yields h ha
  | importAs => exact importAs_yields h ha
  | importNames => exact importNames_yields h ha
  | nameItems first => exact nameItems_yields h ha first
  | print => exact print_yields h ha
  | printItems first => exact printItems_yields h ha first
  | signature => exact signature_yields h ha
  | signatureRest sofar => exact signatureRest_yields h ha hr
  | define => exact define_yields h ha
  | callBlock => exact callBlock_yields h ha
  | filterBlock => exact filterBlock_yields h ha
  | template => exact template_yields h ha

theorem run_places (hx : PlacesTags s find) (n : Nat) : (run find n).Places s := by
  induction n with
  | zero => exact fun _ _ _ _ _ _ => .fault
  | succ n ih => exact step_places ih hx

theorem ofExtensions_places (hx : PlacesTags s find) : (ofExtensions find).Places s := by
  intro p r a pos ha hr
  have hrun := run_places hx (depth s) r ha hr
  unfold Parser.Yields at hrun ⊢
  rwa [ofExtensions_apply]

/-- An expression that stands alone, behind which nothing is left to read. -/
theorem wholeExpression_yields (h : g.Places s) : g.wholeExpression.Yields s 0 fun e q =>
    e.Placed s 0 (2 * q + 1) := by
  unfold wholeExpression
  refine (h (.tuple (.expression true)) (Nat.le_refl _) trivial).bind ?_
  rintro e p ⟨-, (he : e.Placed s 0 (2 * p + 1))⟩
  have hend : (Parser.expect .eof).Yields s p fun _ q => p ≤ q := by
    by_cases hk : (s.get p).kind = .eof
    · have hx : Parser.expect .eof s p = Parser.advance s p := if_pos hk
      unfold Parser.Yields
      rw [hx]
      exact Parser.Yields.move.mono fun _ _ hq => hq.2.1
    · have hx : Parser.expect .eof s p = Parser.unexpected [.eof] none s p := if_neg hk
      unfold Parser.Yields
      rw [hx]
      exact ⟨⟨_, rfl, p, rfl⟩, rfl⟩
  refine hend.bind fun _ q hq => ?_
  exact .pure (he.mono (Nat.le_refl _) (by omega))

end Stencil.Grammar

/-! ## Environments -/

namespace Stencil.Environment

theorem IsBuiltin.placesTags {env : Environment} (h : env.IsBuiltin) (s : Stream) :
    Grammar.PlacesTags s (Extension.find? env.extensions) := by
  intro name x hx
  rcases List.mem_cons.1 (h x (Extension.mem_of_find? hx)) with rfl | hmem
  · exact Extension.doStatement_places
  · rw [List.mem_singleton.1 hmem]
    exact Extension.loopControls_places

theorem IsBuiltin.places {env : Environment} (h : env.IsBuiltin) (s : Stream) : env.grammar.Places s :=
  Grammar.ofExtensions_places (h.placesTags s)

end Stencil.Environment
