/-
The rules for statements are carried on, if the rules inside them are and the tag at hand belongs to the same built-in
extension on both sides. The rule for a statement is turned to behind the begin of a block tag only
(`content_carries`), so that it is only there that the extensions have to agree.
-/
import Stencil.Proofs.Parallel.Suffix

namespace Stencil.Grammar

open Parallel

variable {m : Parallel} {g g' : Grammar} {pos : Nat}

/-! ## One statement -/

theorem simpleStatement_carries (h : m.CarriesRules g g') :
    m.Carries (Splice.mapPlaces m.move) (simpleStatement g) (simpleStatement g') pos := by
  unfold simpleStatement
  refine (h (.tuple (.expression true)) trivial).bind fun e _ => .check ?_ (.pure (by simp))
  exact (h (.assign e) trivial).bind fun s _ => .pure rfl

theorem builtin_carries (h : m.CarriesRules g g') {x : Extension} (hx : x ∈ Extension.builtin) :
    m.Carries (Splice.mapPlaces m.move) (x.parse g) (x.parse g') pos := by
  rcases List.mem_cons.1 hx with rfl | hx
  · unfold Extension.doStatement
    refine Carries.advance.bind fun token _ => (h (.tuple (.expression true)) trivial).bind fun e _ => .pure ?_
    simp
  · rw [List.mem_singleton.1 hx]
    unfold Extension.loopControls
    refine Carries.advance.bind fun token _ => .ite Iff.rfl (fun _ => .pure ?_) fun _ => .pure ?_ <;> simp

/-- The rules that keywords lead to hold nothing that has been read. -/
theorem mapPlaces_of_statementRule (f : Location → Location) {word : Keyword} {r : Rule .stmt}
    (h : statementRule? word = some r) : r.mapPlaces f = r := by
  cases word <;> cases h <;> rfl

/-- The extensions of the two sides have to agree on the name at hand only. -/
theorem statement_carries (h : m.CarriesRules g g') {find find' : Text → Option Extension} (hx : FindsBuiltin find)
    (hsame : (m.left.get pos).kind = .name → find' (m.left.get pos).value = find (m.left.get pos).value) :
    m.Carries (Splice.mapPlaces m.move) (statement g find) (statement g' find') pos := by
  unfold statement
  refine .current ?_
  simp only [Token.kind_mapPlaces, Token.value_mapPlaces]
  generalize hk : (m.left.get pos).kind = k
  split
  case h_1 word =>
    cases hr : statementRule? word with
    | some r => exact (h.rule .stmt trivial (mapPlaces_of_statementRule m.move hr).symm).bind fun s _ => .pure rfl
    | none => exact simpleStatement_carries h
  case h_2 =>
    rw [hsame hk]
    cases hfound : find (m.left.get pos).value with
    | some x => exact builtin_carries h (hx hfound)
    | none => exact simpleStatement_carries h
  case h_3 => exact simpleStatement_carries h

/-! ## Bodies -/

theorem statements_carries (h : m.CarriesRules g g') (ends : List TokenKind) (dropEnd : Bool) :
    m.Carries (List.map (Stmt.mapPlaces m.move)) (statements g ends dropEnd) (statements g' ends dropEnd) pos := by
  unfold statements
  refine Carries.checked.bind fun colon q => ?_
  extract_lets rest rest'
  have hrest (q : Nat) : m.Carries (List.map (Stmt.mapPlaces m.move)) (rest ()) (rest' ()) q := by
    refine Carries.expect.bind fun _ _ => (h (.content (some ends) []) trivial).bind fun body _ => ?_
    refine .check (.ite Iff.rfl (fun _ => ?_) fun _ => .pure rfl) .unexpected
    exact Carries.advance.bind fun _ _ => .pure rfl
  exact .ite Iff.rfl (fun _ => Carries.advance.bind fun _ => hrest) fun _ => hrest q

theorem output_mapPlaces (f : Location → Location) (es : List Expr) :
    output (es.map (Expr.mapPlaces f)) = (output es).map (Stmt.mapPlaces f) := by
  cases es with
  | nil => rfl
  | cons e es =>
    simp only [List.map_cons, output, List.map_nil, Stmt.mapPlaces, Span.map_mk, Expr.span_mapPlaces, Span.start_map]
    simp only [← List.map_cons, List.getLast_map, Expr.span_mapPlaces, Span.finish_map]

theorem toList_mapPlaces (f : Location → Location) (sp : Splice) :
    (sp.mapPlaces f).toList = sp.toList.map (Stmt.mapPlaces f) := by
  cases sp <;> rfl

theorem content_carries (h : m.CarriesRules g g') (ends : Option (List TokenKind)) (pending : List Expr) :
    m.Carries (List.map (Stmt.mapPlaces m.move)) (content g ends pending)
      (content g' ends (pending.map (Expr.mapPlaces m.move))) pos := by
  unfold content
  refine .current ?_
  simp only [Token.kind_mapPlaces, Token.value_mapPlaces, Token.span_mapPlaces]
  generalize hk : (m.left.get pos).kind = k
  split
  case h_1 =>
    refine Carries.advance.bind fun _ _ => h.rule .body trivial ?_
    split <;> rename_i hv <;> simp [hv]
  case h_2 =>
    refine Carries.advance.bind fun _ _ => (h (.tuple (.expression true)) trivial).bind fun e _ => ?_
    refine Carries.expect.bind fun _ _ => h.rule .body trivial ?_
    simp
  case h_3 =>
    -- the begin of a block tag has been passed, and so the statement is entered
    refine .past hk nofun (.check (.pure (output_mapPlaces ..)) ?_)
    refine (h .statement ⟨pos, rfl, hk⟩).bind fun splice _ => Carries.expect.bind fun _ _ => ?_
    refine (h (.content ends []) trivial).bind fun rest _ => .pure ?_
    simp only [List.map_append, ← output_mapPlaces, ← toList_mapPlaces]
    rfl
  case h_4 => exact .pure (output_mapPlaces ..)
  case h_5 => exact .fault

theorem template_carries (h : m.CarriesRules g g') :
    m.Carries (Template.mapPlaces m.move) (template g) (template g') pos := by
  unfold template
  refine (h (.content none []) trivial).bind fun body _ => .current (.pure ?_)
  simp [m.move_origin]

/-! ## Assignment -/

theorem storeTarget_carries (e : Expr) :
    m.Carries (Expr.mapPlaces m.move) (storeTarget e) (storeTarget (e.mapPlaces m.move)) pos := by
  unfold storeTarget
  rw [Expr.toTarget_mapPlaces, Expr.targetKind_mapPlaces, Expr.span_mapPlaces]
  cases e.toTarget .store with
  | none => exact .report
  | some t => exact .pure rfl

theorem assign_carries (h : m.CarriesRules g g') (target : Expr) :
    m.Carries (Stmt.mapPlaces m.move) (assign g target) (assign g' (target.mapPlaces m.move)) pos := by
  unfold assign
  refine Carries.expect.bind fun _ _ => (storeTarget_carries target).bind fun stored _ => ?_
  refine (h (.tuple (.expression true)) trivial).bind fun value _ => .pure ?_
  simp

/-! ## Loops and conditionals -/

theorem loopTest_carries (h : m.CarriesRules g g') :
    m.Carries (Option.map (Expr.mapPlaces m.move)) (loopTest g) (loopTest g') pos := by
  unfold loopTest
  refine .check (Carries.advance.bind fun _ _ => ?_) (.pure rfl)
  exact (h (.expression true) trivial).bind fun e _ => .pure rfl

theorem loop_carries (h : m.CarriesRules g g') : m.Carries (Stmt.mapPlaces m.move) (loop g) (loop g') pos := by
  unfold loop
  refine Carries.expect.bind fun opened _ => (h (.tuple .primary) trivial).bind fun target _ => ?_
  refine (storeTarget_carries target).bind fun stored _ => Carries.expect.bind fun _ _ => ?_
  refine (h (.tuple (.expression false)) trivial).bind fun iter _ => (loopTest_carries h).bind fun test _ => ?_
  refine (h (.statements [.keyword .endFor, .keyword .elseTag] false) trivial).bind fun body _ => ?_
  refine Carries.advance.bind fun word q => ?_
  extract_lets rest rest'
  have hrest (elseBody : List Stmt) (q : Nat) :
      m.Carries (Stmt.mapPlaces m.move) (rest elseBody) (rest' (elseBody.map (Stmt.mapPlaces m.move))) q :=
    Carries.previousEnd.bind fun stop _ => .pure (by simp)
  refine .ite Iff.rfl (fun _ => hrest [] q) fun _ => ?_
  exact (h (.statements [.keyword .endFor] true) trivial).bind hrest

theorem branch_carries (h : m.CarriesRules g g') (start : Location) :
    m.Carries (Branch.mapPlaces m.move) (branch g start) (branch g' (m.move start)) pos := by
  unfold branch
  refine (h (.tuple (.expression true)) trivial).bind fun test _ => ?_
  exact (h (.statements branchEnds false) trivial).bind fun body _ => .pure rfl

theorem branches_carries (h : m.CarriesRules g g') :
    m.Carries (Branches.mapPlaces m.move) (branches g) (branches g') pos := by
  unfold branches
  refine Carries.advance.bind fun word _ => .ite Iff.rfl (fun _ => ?_) fun _ => .ite Iff.rfl (fun _ => ?_) fun _ => ?_
  · refine (branch_carries h word.span.start).bind fun b _ => (h .branches trivial).bind fun rest _ => .pure ?_
    simp
  · exact (h (.statements [.keyword .endIf] true) trivial).bind fun body _ => .pure rfl
  · exact .pure rfl

theorem branchStmt_mapPlaces (f : Location → Location) (stop : Location) (b : Branch) (elseBody : List Stmt) :
    branchStmt (f stop) (b.mapPlaces f) (elseBody.map (Stmt.mapPlaces f)) =
      (branchStmt stop b elseBody).mapPlaces f := by
  simp [branchStmt]

theorem nestBranches_mapPlaces (f : Location → Location) (stop : Location) (bs : Branches) :
    nestBranches (f stop) (bs.mapPlaces f) = (nestBranches stop bs).map (Stmt.mapPlaces f) := by
  obtain ⟨elifs, elseBody⟩ := bs
  unfold nestBranches
  simp only [Branches.mapPlaces]
  induction elifs with
  | nil => rfl
  | cons b elifs ih =>
    rw [List.map_cons, List.foldr_cons, List.foldr_cons, ih, branchStmt_mapPlaces]
    rfl

theorem conditional_carries (h : m.CarriesRules g g') :
    m.Carries (Stmt.mapPlaces m.move) (conditional g) (conditional g') pos := by
  unfold conditional
  refine Carries.expect.bind fun opened _ => (branch_carries h opened.span.start).bind fun first _ => ?_
  refine (h .branches trivial).bind fun rest _ => Carries.previousEnd.bind fun stop _ => .pure ?_
  rw [← branchStmt_mapPlaces, ← nestBranches_mapPlaces]
  rfl

/-! ## Parts of templates -/

theorem block_carries (h : m.CarriesRules g g') : m.Carries (Stmt.mapPlaces m.move) (block g) (block g') pos := by
  unfold block
  refine Carries.expect.bind fun opened _ => Carries.expect.bind fun name _ => ?_
  refine (h (.statements [.keyword .endBlock] true) trivial).bind fun body _ => ?_
  exact Carries.previousEnd.bind fun stop _ => .pure (by simp)

theorem extend_carries (h : m.CarriesRules g g') : m.Carries (Stmt.mapPlaces m.move) (extend g) (extend g') pos := by
  unfold extend
  refine Carries.expect.bind fun opened _ => (h (.expression true) trivial).bind fun source _ => .pure ?_
  simp

theorem embed_carries (h : m.CarriesRules g g') : m.Carries (Stmt.mapPlaces m.move) (embed g) (embed g') pos := by
  unfold embed
  refine Carries.expect.bind fun opened _ => (h (.expression true) trivial).bind fun source _ => .pure ?_
  simp

/-! ## Imports -/

theorem bindable_carries : m.Carries (Token.mapPlaces m.move) bindable bindable pos := by
  unfold bindable
  exact Carries.expect.bind fun token _ => .ite Iff.rfl (fun _ => .pure rfl) fun _ => .report

theorem importAs_carries (h : m.CarriesRules g g') :
    m.Carries (Stmt.mapPlaces m.move) (importAs g) (importAs g') pos := by
  unfold importAs
  refine Carries.expect.bind fun opened _ => (h (.expression true) trivial).bind fun source _ => ?_
  refine Carries.expectName.bind fun _ _ => bindable_carries.bind fun target _ => ?_
  exact Carries.previousEnd.bind fun stop _ => .pure (by simp)

theorem localName_carries : m.Carries id localName? localName? pos := by
  unfold localName?
  refine Carries.checkName.bind fun named _ => .ite Iff.rfl (fun _ => ?_) fun _ => .pure rfl
  exact Carries.advance.bind fun _ _ => bindable_carries.bind fun token _ => .pure rfl

theorem ensurePublic_carries (token : Token) :
    m.Carries id (ensurePublic token) (ensurePublic (token.mapPlaces m.move)) pos :=
  .ite Iff.rfl (fun _ => .report) fun _ => .pure rfl

theorem nameItems_carries (h : m.CarriesRules g g') (first : Bool) :
    m.Carries id (nameItems g first) (nameItems g' first) pos := by
  unfold nameItems
  extract_lets rest rest'
  refine comma_carries Iff.rfl fun q => .check (.current ?_) (.pure rfl)
  refine (ensurePublic_carries _).bind fun _ _ => bindable_carries.bind fun name _ => ?_
  refine localName_carries.bind fun localName _ => .check ?_ (.pure rfl)
  exact (h (.nameItems false) trivial).bind fun rest _ => .pure rfl

theorem importNames_carries (h : m.CarriesRules g g') :
    m.Carries (Stmt.mapPlaces m.move) (importNames g) (importNames g') pos := by
  unfold importNames
  refine Carries.expect.bind fun opened _ => (h (.expression true) trivial).bind fun source _ => ?_
  refine Carries.expect.bind fun _ _ => (h (.nameItems true) trivial).bind fun names _ => ?_
  refine Carries.checked.bind fun comma q => ?_
  extract_lets rest rest'
  have hrest (q : Nat) : m.Carries (Stmt.mapPlaces m.move) (rest ()) (rest' ()) q :=
    Carries.previousEnd.bind fun stop _ => .pure (by simp)
  exact .ite Iff.rfl (fun _ => Carries.advance.bind fun _ => hrest) fun _ => hrest q

/-! ## Print -/

theorem print_carries (h : m.CarriesRules g g') : m.Carries (Stmt.mapPlaces m.move) (print g) (print g') pos := by
  unfold print
  refine Carries.expect.bind fun opened _ => (h (.printItems true) trivial).bind fun nodes _ => ?_
  exact Carries.previousEnd.bind fun stop _ => .pure (by simp)

theorem printItems_carries (h : m.CarriesRules g g') (first : Bool) :
    m.Carries (List.map (Expr.mapPlaces m.move)) (printItems g first) (printItems g' first) pos := by
  unfold printItems
  refine .check (.pure rfl) ?_
  extract_lets rest rest'
  refine comma_carries Iff.rfl fun q => (h (.expression true) trivial).bind fun e _ => ?_
  exact (h (.printItems false) trivial).bind fun es _ => .pure rfl

/-! ## Macros and the blocks that call -/

theorem signature_carries (h : m.CarriesRules g g') :
    m.Carries (Signature.mapPlaces m.move) (signature g) (signature g') pos := by
  unfold signature
  refine Carries.expect.bind fun _ _ => (h (.signatureRest ⟨[], []⟩) trivial).bind fun s _ => ?_
  exact Carries.expect.bind fun _ _ => .pure rfl

theorem default_carries (h : m.CarriesRules g g') (token : Token) (before : List Expr) :
    m.Carries (List.map (Expr.mapPlaces m.move)) (default? g token before)
      (default? g' (token.mapPlaces m.move) (before.map (Expr.mapPlaces m.move))) pos := by
  unfold default?
  refine .check (Carries.advance.bind fun _ _ => ?_) (.ite (by simp) (fun _ => .pure rfl) fun _ => .report)
  exact (h (.expression true) trivial).bind fun e _ => .pure (by simp)

theorem signatureRest_carries (h : m.CarriesRules g g') (sofar : Signature) :
    m.Carries (Signature.mapPlaces m.move) (signatureRest g sofar)
      (signatureRest g' (sofar.mapPlaces m.move)) pos := by
  unfold signatureRest
  refine .check (.pure rfl) ?_
  extract_lets rest rest'
  refine comma_carries (by simp) fun q => bindable_carries.bind fun token _ => ?_
  refine (default_carries h token sofar.defaults).bind fun defaults _ => h.rule .signature trivial ?_
  simp

theorem define_carries (h : m.CarriesRules g g') : m.Carries (Stmt.mapPlaces m.move) (define g) (define g') pos := by
  unfold define
  refine Carries.expect.bind fun opened _ => bindable_carries.bind fun name _ => ?_
  refine (h .signature trivial).bind fun s _ => ?_
  refine (h (.statements [.keyword .endMacro] true) trivial).bind fun body _ => ?_
  exact Carries.previousEnd.bind fun stop _ => .pure (by simp)

theorem optionalSignature_carries (h : m.CarriesRules g g') :
    m.Carries (Signature.mapPlaces m.move) (optionalSignature g) (optionalSignature g') pos :=
  .check (h .signature trivial) (.pure rfl)

theorem ensureCall_carries (start : Location) (e : Expr) :
    m.Carries id (ensureCall start e) (ensureCall (m.move start) (e.mapPlaces m.move)) pos := by
  cases e <;> simp only [Expr.mapPlaces, ensureCall]
  case call => exact .pure rfl
  all_goals exact .report

theorem callBlock_carries (h : m.CarriesRules g g') :
    m.Carries (Stmt.mapPlaces m.move) (callBlock g) (callBlock g') pos := by
  unfold callBlock
  refine Carries.expect.bind fun opened _ => (optionalSignature_carries h).bind fun s _ => ?_
  refine (h (.expression true) trivial).bind fun e _ => (ensureCall_carries _ e).bind fun _ _ => ?_
  refine (h (.statements [.keyword .endCall] true) trivial).bind fun body _ => ?_
  exact Carries.previousEnd.bind fun stop _ => .pure (by simp)

theorem filterBlock_carries (h : m.CarriesRules g g') :
    m.Carries (Stmt.mapPlaces m.move) (filterBlock g) (filterBlock g') pos := by
  unfold filterBlock
  refine Carries.expect.bind fun opened _ => (h (.filterChain none) trivial).bind fun filter _ => ?_
  refine (h (.statements [.keyword .endFilter] true) trivial).bind fun body _ => ?_
  exact Carries.previousEnd.bind fun stop _ => .pure (by simp)

end Stencil.Grammar
