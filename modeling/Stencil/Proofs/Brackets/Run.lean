/-
The grammar as a whole keeps to the levels of brackets: wherever a rule is called, what it reads ends at the
level where it began, and no closer that is awaited there is given up on the way (`run_levels`).
-/
import Stencil.Proofs.Brackets.Statement
import Stencil.Proofs.Brackets.Suffix
import Stencil.Proofs.Progress.Termination

namespace Stencil

open Enclosure

theorem Environment.IsBuiltin.levelTags {env : Environment} (h : env.IsBuiltin) :
    Grammar.LevelTags (Extension.find? env.extensions) := by
  intro name x hx
  have hmem := h x (Extension.mem_of_find? hx)
  rcases List.mem_cons.1 hmem with rfl | hmem
  · exact Extension.doStatement_levels
  · rw [List.mem_singleton.1 hmem]
    exact Extension.loopControls_levels

/-- A rule that leaves nothing behind but its level. -/
theorem Enclosure.Levels.leaving {c : Enclosure} {p : Phrase} {r : Rule p} {x y : Parser p.Tree} {pos : Nat}
    (h : c.Levels x y pos) (hr : ∀ q, r.Leaves c.stream q) :
    c.Agrees x y pos fun _ q => c.At [] q ∧ r.Leaves c.stream q :=
  h.mono fun _ q hq => ⟨hq, hr q⟩

namespace Grammar

variable {c : Enclosure} {g g' : Grammar} {find : Text → Option Extension} {p : Phrase}

/-- One step of the grammar. -/
theorem step_levels (r : Rule p) (h : c.Below g g') (hx : LevelTags find)
    (hf : r.Fits c.stream c.entry) :
    c.Agrees (step find g r) (step find g' r) c.entry fun _ q => c.At [] q ∧ r.Leaves c.stream q := by
  cases r with
  | expression conditional => exact (expression_levels h conditional).leaving fun _ => trivial
  | cond => exact (cond_levels h).leaving fun _ => trivial
  | condRest value => exact (condRest_levels h value).leaving fun _ => trivial
  | binary op => exact (binary_levels op h).leaving fun _ => trivial
  | binaryRest op left => exact (binaryRest_levels h op left).leaving fun _ => trivial
  | compare => exact (compare_levels h).leaving fun _ => trivial
  | compareRest => exact (compareRest_levels h).leaving fun _ => trivial
  | unary => exact (unary_levels h).leaving fun _ => trivial
  | primary withSuffixes => exact (primary_levels h withSuffixes).leaving fun _ => trivial
  | tuple item => exact (tuple_levels h item).leaving fun _ => trivial
  | tupleRest item => exact (tupleRest_levels h item).leaving fun _ => trivial
  | list => exact (list_levels h).leaving fun _ => trivial
  | listItems first => exact (listItems_levels h first).leaving fun _ => trivial
  | dict => exact (dict_levels h).leaving fun _ => trivial
  | dictItems first => exact (dictItems_levels h first).leaving fun _ => trivial
  | suffixes e => exact (suffixes_levels h e).leaving fun _ => trivial
  | subscript object => exact (subscript_levels h object hf).leaving fun _ => trivial
  | subscriptItems first => exact (subscriptItems_levels h first).leaving fun _ => trivial
  | subscriptItem => exact (subscriptItem_levels h).leaving fun _ => trivial
  | call callee => exact (call_levels h callee).leaving fun _ => trivial
  | «arguments» => exact (arguments_levels h).leaving fun _ => trivial
  | argumentsRest opened args => exact (argumentsRest_levels h opened args).leaving fun _ => trivial
  | filter input => exact (filter_levels h input).leaving fun _ => trivial
  | filterChain input => exact (filterChain_levels h input).leaving fun _ => trivial
  | filterRest e => exact (filterRest_levels h e).leaving fun _ => trivial
  | singleFilter input => exact (singleFilter_levels h input).leaving fun _ => trivial
  | test subject => exact (test_levels h subject).leaving fun _ => trivial
  | statement => exact (statement_levels h hx).leaving fun _ => trivial
  | statements ends dropEnd => exact statements_levels h ends dropEnd hf
  | content ends pending => exact (content_levels h ends pending).leaving fun _ => trivial
  | assign target => exact (assign_levels h target).leaving fun _ => trivial
  | loop => exact (loop_levels h).leaving fun _ => trivial
  | conditional => exact (conditional_levels h).leaving fun _ => trivial
  | branches => exact (branches_levels h hf).leaving fun _ => trivial
  | block => exact (block_levels h).leaving fun _ => trivial
  | extend => exact (extend_levels h).leaving fun _ => trivial
  | embed => exact (embed_levels h).leaving fun _ => trivial
  | importAs => exact (importAs_levels h).leaving fun _ => trivial
  | importNames => exact (importNames_levels h).leaving fun _ => trivial
  | nameItems first => exact (nameItems_levels h first).leaving fun _ => trivial
  | print => exact (print_levels h).leaving fun _ => trivial
  | printItems first => exact (printItems_levels h first).leaving fun _ => trivial
  | signature => exact (signature_levels h).leaving fun _ => trivial
  | signatureRest sofar => exact (signatureRest_levels h sofar).leaving fun _ => trivial
  | define => exact (define_levels h).leaving fun _ => trivial
  | callBlock => exact (callBlock_levels h).leaving fun _ => trivial
  | filterBlock => exact (filterBlock_levels h).leaving fun _ => trivial
  | template => exact (template_levels h).leaving fun _ => trivial

/-- Every rule ends at the level of its entry, at any depth. -/
theorem run_levels (hx : LevelTags find) (n : Nat) (r : Rule p) {pos : Nat}
    (hf : r.Fits c.stream pos) : c.Reads (run find n) (run find n) r pos := by
  induction n generalizing p pos with
  | zero => exact .fault
  | succ n ih =>
    have below : (c.enter pos).Below (run find n) (run find n) := fun _ r' _ _ hf' => ih r' hf'
    exact step_levels r below hx hf

theorem ofExtensions_levels (hx : LevelTags find) (r : Rule p) {pos : Nat}
    (hf : r.Fits c.stream pos) : c.Reads (ofExtensions find) (ofExtensions find) r pos :=
  (run_levels hx (depth c.stream) r hf).congr rfl rfl

end Grammar
end Stencil
