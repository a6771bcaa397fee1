/-
The grammar as a whole is carried on, at every depth (`run_carries`). The two sides may have different extensions, as
long as these agree on the names that begin a block tag on the left.
-/
import Stencil.Proofs.Parallel.Statement

namespace Stencil

/-- Two ways to find extensions agree on the names behind the begins of block tags. -/
def Parallel.TagsAgree (m : Parallel) (find find' : Text → Option Extension) : Prop :=
  ∀ i, (m.left.get i).kind = .blockBegin → (m.left.get (i + 1)).kind = .name →
    find' (m.left.get (i + 1)).value = find (m.left.get (i + 1)).value

namespace Grammar

variable {m : Parallel} {g g' : Grammar} {find find' : Text → Option Extension} {p : Phrase} {pos : Nat}

/-- Only the rule for a statement asks for an extension. -/
theorem step_carries (h : m.CarriesRules g g') (hx : FindsBuiltin find) (r : Rule p)
    (hsame : p = .splice → (m.left.get pos).kind = .name →
      find' (m.left.get pos).value = find (m.left.get pos).value) :
    m.Carries (p.mapPlaces m.move) (step find g r) (step find' g' (r.mapPlaces m.move)) pos := by
  cases r with
  | expression conditional => exact expression_carries h conditional
  | cond => exact cond_carries h
  | condRest value => exact condRest_carries h value
  | binary op => exact binary_carries h op
  | binaryRest op left => exact binaryRest_carries h op left
  | compare => exact compare_carries h
  | compareRest => exact compareRest_carries h
  | unary => exact unary_carries h
  | primary withSuffixes => exact primary_carries h withSuffixes
  | tuple item => exact tuple_carries h item
  | tupleRest item => exact tupleRest_carries h item
  | list => exact list_carries h
  | listItems first => exact listItems_carries h first
  | dict => exact dict_carries h
  | dictItems first => exact dictItems_carries h first
  | suffixes e => exact suffixes_carries h e
  | subscript object => exact subscript_carries h object
  | subscriptItems first => exact subscriptItems_carries h first
  | subscriptItem => exact subscriptItem_carries h
  | call callee => exact call_carries h callee
  | «arguments» => exact arguments_carries h
  | argumentsRest opened args => exact argumentsRest_carries h opened args
  | filter input => exact filter_carries h input
  | filterChain input => exact filterChain_carries h input
  | filterRest e => exact filterRest_carries h e
  | singleFilter input => exact singleFilter_carries h input
  | test subject => exact test_carries h subject
  | statement => exact statement_carries h hx (hsame rfl)
  | statements ends dropEnd => exact statements_carries h ends dropEnd
  | content ends pending => exact content_carries h ends pending
  | assign target => exact assign_carries h target
  | loop => exact loop_carries h
  | conditional => exact conditional_carries h
  | branches => exact branches_carries h
  | block => exact block_carries h
  | extend => exact extend_carries h
  | embed => exact embed_carries h
  | importAs => exact importAs_carries h
  | importNames => exact importNames_carries h
  | nameItems first => exact nameItems_carries h first
  | print => exact print_carries h
  | printItems first => exact printItems_carries h first
  | signature => exact signature_carries h
  | signatureRest sofar => exact signatureRest_carries h sofar
  | define => exact define_carries h
  | callBlock => exact callBlock_carries h
  | filterBlock => exact filterBlock_carries h
  | template => exact template_carries h

theorem run_carries (hx : FindsBuiltin find) (ht : m.TagsAgree find find') (n : Nat) :
    m.CarriesRules (run find n) (run find' n) := by
  induction n with
  | zero => exact fun _ _ _ _ => .fault
  | succ n ih =>
    intro p r pos hp
    refine step_carries ih hx r ?_
    -- a statement is only ever entered behind the begin of its tag
    rintro rfl hname
    obtain ⟨i, rfl, hbegin⟩ := hp
    exact ht i hbegin hname

/-- With the same extensions on both sides a rule is carried on wherever it begins. -/
theorem run_carries_all (hx : FindsBuiltin find) (n : Nat) (r : Rule p) :
    m.Carries (p.mapPlaces m.move) (run find n r) (run find n (r.mapPlaces m.move)) pos := by
  cases n with
  | zero => exact .fault
  | succ n => exact step_carries (run_carries hx (fun _ _ _ => rfl) n) hx r fun _ _ => rfl

end Grammar
end Stencil
