/-
The rules for statements agree in every enclosure below which their parts agree, provided that extensions do
so too (`Extension.Levels`). The only bracket that a statement opens itself is the one around the parameters of
a macro or of a block that calls.
-/
import Stencil.Grammar.Statement
import Stencil.Proofs.Brackets.Expression

namespace Stencil

/-- Begun at its name, the extension ends at the level of its entry if the rules do that it calls. -/
def Extension.Levels (x : Extension) : Prop :=
  ∀ ⦃c : Enclosure⦄ ⦃g g' : Grammar⦄, c.Below g g' → (c.stream.get c.entry).kind = .name →
    c.Levels (x.parse g) (x.parse g') c.entry

/-- Every extension that is found by a tag keeps to its level. -/
def Grammar.LevelTags (find : Text → Option Extension) : Prop :=
  ∀ ⦃name : Text⦄ ⦃x : Extension⦄, find name = some x → x.Levels

namespace Grammar

open Enclosure Enclosure.Agrees

variable {c : Enclosure} {g g' : Grammar} {pos : Nat}

/-! ## One statement -/

theorem simpleStatement_levels (h : c.Below g g') :
    c.Levels (simpleStatement g) (simpleStatement g') c.entry := by
  unfold simpleStatement
  refine (h.plain (.tuple (.expression true)) at_entry trivial).bind fun e p hp => ?_
  refine .check (fun _ => ?_) fun _ => .pure hp
  exact (h.plain (.assign e) hp trivial).bind fun s p hp => .pure hp

theorem statementRule?_fits {k : Keyword} {r : Rule .stmt} (h : statementRule? k = some r) (s : Stream) (pos : Nat) :
    r.Fits s pos := by
  cases k <;> cases h <;> trivial

theorem statement_levels (h : c.Below g g') {find : Text → Option Extension} (hx : LevelTags find) :
    c.Levels (statement g find) (statement g' find) c.entry := by
  unfold statement
  refine .current ?_
  split
  · split
    · rename_i r hr
      exact (h.plain r at_entry (statementRule?_fits hr ..)).bind fun s p hp => .pure hp
    · exact simpleStatement_levels h
  · rename_i hk
    split
    · rename_i x hf
      exact hx hf h hk
    · exact simpleStatement_levels h
  · exact simpleStatement_levels h

/-! ## Bodies -/

theorem statements_fits {s : Stream} {ends : List TokenKind} {dropEnd : Bool} (h : ∀ k ∈ ends, k.isKeyword = true) :
    (Rule.statements ends dropEnd).Fits s pos := h

/-- A body ends behind a word that ends it, or before it. -/
theorem statements_levels (h : c.Below g g') (ends : List TokenKind) (dropEnd : Bool)
    (hends : ∀ k ∈ ends, k.isKeyword = true) :
    c.Agrees (statements g ends dropEnd) (statements g' ends dropEnd) c.entry fun _ q =>
      c.At [] q ∧ (Rule.statements ends dropEnd).Leaves c.stream q := by
  have hplain (k : TokenKind) (hk : k ∈ ends) : k.isBracket = false :=
    TokenKind.not_isBracket_of_isKeyword (hends k hk)
  unfold statements
  refine .checked fun b hb => ?_
  extract_lets rest rest'
  have hrest {p : Nat} (hp : c.At [] p) : c.Agrees (rest ()) (rest' ()) p fun _ q =>
      c.At [] q ∧ (Rule.statements ends dropEnd).Leaves c.stream q := by
    refine .expect hp rfl fun p hp _ => ?_
    refine (h.plain (.content (some ends) []) hp trivial).bind fun body p hp => ?_
    refine .check (fun hk => ?_) fun _ => .unexpected fun _ k hk => TokenKind.unclosedHint?_eq_none (hplain k hk)
    extract_lets done
    refine .ite (fun hdrop => .advance_of_mem hp hk hplain fun p hp => .pure ⟨hp, fun hkeep => ?_⟩) fun _ => ?_
    · rw [hdrop] at hkeep
      cases hkeep
    · exact .pure ⟨hp, fun _ => hk⟩
  refine .ite (fun hk => ?_) fun _ => hrest at_entry
  exact .advance_of_mem at_entry (hb.1 hk) (by decide) fun p hp => hrest hp

theorem content_levels (h : c.Below g g') (ends : Option (List TokenKind)) (pending : List Expr) :
    c.Levels (content g ends pending) (content g' ends pending) c.entry := by
  unfold content
  refine .current ?_
  split <;> rename_i hk
  · exact .advance at_entry (by rw [hk]; rfl) fun p hp => h.plain (.content ends _) hp (by trivial)
  · refine .advance at_entry (by rw [hk]; rfl) fun p hp => ?_
    refine (h.plain (.tuple (.expression true)) hp trivial).bind fun e p hp => .expect hp rfl fun p hp _ => ?_
    exact h.plain (.content ends _) hp (by trivial)
  · refine .advance at_entry (by rw [hk]; rfl) fun p hp => .check (fun _ => .pure hp) fun _ => ?_
    refine (h.plain .statement hp trivial).bind fun splice p hp => .expect hp rfl fun p hp _ => ?_
    exact (h.plain (.content ends []) hp trivial).bind fun rest p hp => .pure hp
  · exact .pure at_entry
  · exact .fault

theorem template_levels (h : c.Below g g') : c.Levels (template g) (template g') c.entry := by
  unfold template
  exact (h.plain (.content none []) at_entry trivial).bind fun body p hp => .current (.pure hp)

/-! ## Assignment -/

theorem storeTarget_stays (e : Expr) : c.Agrees (storeTarget e) (storeTarget e) pos fun _ q => q = pos := by
  unfold storeTarget
  split
  · exact .pure rfl
  · exact .report nofun

theorem assign_levels (h : c.Below g g') (target : Expr) :
    c.Levels (assign g target) (assign g' target) c.entry := by
  unfold assign
  refine .expect at_entry rfl fun p hp _ => (storeTarget_stays target).bind ?_
  rintro stored _ rfl
  exact (h.plain (.tuple (.expression true)) hp trivial).bind fun value p hp => .pure hp

/-! ## Loops and conditionals -/

theorem loopTest_levels (h : c.Below g g') (hpos : c.At [] pos) : c.Levels (loopTest g) (loopTest g') pos := by
  unfold loopTest
  refine .check (fun hk => .advance_of_mem hpos hk (by decide) fun p hp => ?_) fun _ => .pure hpos
  exact (h.plain (.expression true) hp trivial).bind fun e p hp => .pure hp

theorem loop_levels (h : c.Below g g') : c.Levels (loop g) (loop g') c.entry := by
  unfold loop
  refine .expect at_entry rfl fun p hp _ => ?_
  refine (h.plain (.tuple .primary) hp trivial).bind fun target p hp => (storeTarget_stays target).bind ?_
  rintro stored _ rfl
  refine .expect hp rfl fun p hp _ => ?_
  refine (h.plain (.tuple (.expression false)) hp trivial).bind fun iter p hp => ?_
  refine (loopTest_levels h hp).bind fun test p hp => ?_
  refine (h.rule (.statements [.keyword .endFor, .keyword .elseTag] false) hp (statements_fits (by decide))).bind ?_
  rintro body p ⟨hp, hends⟩
  refine .advance_of_mem hp (hends rfl) (by decide) fun p hp => ?_
  extract_lets rest
  have hrest (elseBody : List Stmt) {q : Nat} (hq : c.At [] q) : c.Levels (rest elseBody) (rest elseBody) q :=
    .previousEnd fun _ => .pure hq
  refine .ite (fun _ => hrest [] hp) fun _ => ?_
  exact (h.plain (.statements [.keyword .endFor] true) hp (statements_fits (by decide))).bind fun elseBody p hp =>
    hrest elseBody hp

/-- A branch ends before a word that ends branches. -/
theorem branch_levels (h : c.Below g g') (start : Location) (hpos : c.At [] pos) :
    c.Agrees (branch g start) (branch g' start) pos fun _ q => c.At [] q ∧ (c.stream.get q).kind ∈ branchEnds := by
  unfold branch
  refine (h.plain (.tuple (.expression true)) hpos trivial).bind fun test p hp => ?_
  refine (h.rule (.statements branchEnds false) hp (statements_fits (by decide))).bind ?_
  rintro body p ⟨hp, hends⟩
  exact .pure ⟨hp, hends rfl⟩

theorem branches_levels (h : c.Below g g') (hf : Rule.branches.Fits c.stream c.entry) :
    c.Levels (branches g) (branches g') c.entry := by
  unfold branches
  refine .advance_of_mem at_entry hf (by decide) fun p hp => ?_
  refine .ite (fun _ => ?_) fun _ => .ite (fun _ => ?_) fun _ => .pure hp
  · refine (branch_levels h _ hp).bind ?_
    rintro b p ⟨hp, hends⟩
    exact (h.plain .branches hp hends).bind fun rest p hp => .pure hp
  · refine (h.plain (.statements [.keyword .endIf] true) hp (statements_fits (by decide))).bind fun body p hp => ?_
    exact .pure hp

theorem conditional_levels (h : c.Below g g') : c.Levels (conditional g) (conditional g') c.entry := by
  unfold conditional
  refine .expect at_entry rfl fun p hp _ => (branch_levels h _ hp).bind ?_
  rintro first p ⟨hp, hends⟩
  exact (h.plain .branches hp hends).bind fun rest p hp => .previousEnd fun _ => .pure hp

/-! ## Parts of templates -/

/-- The body at the end of a statement, and the place where the statement stops. -/
theorem closing_levels {α : Type} (h : c.Below g g') {k : Keyword} (f : List Stmt → Location → α)
    (hpos : c.At [] pos) :
    c.Levels
      (g (.statements [.keyword k] true) >>= fun body => Parser.previousEnd >>= fun stop => pure (f body stop))
      (g' (.statements [.keyword k] true) >>= fun body => Parser.previousEnd >>= fun stop => pure (f body stop))
      pos := by
  refine (h.plain (.statements [.keyword k] true) hpos (statements_fits (List.forall_mem_singleton.2 rfl))).bind ?_
  exact fun body p hp => .previousEnd fun _ => .pure hp

theorem block_levels (h : c.Below g g') : c.Levels (block g) (block g') c.entry := by
  unfold block
  exact .expect at_entry rfl fun p hp _ => .expect hp rfl fun p hp _ => closing_levels h _ hp

theorem extend_levels (h : c.Below g g') : c.Levels (extend g) (extend g') c.entry := by
  unfold extend
  refine .expect at_entry rfl fun p hp _ => ?_
  exact (h.plain (.expression true) hp trivial).bind fun source p hp => .pure hp

theorem embed_levels (h : c.Below g g') : c.Levels (embed g) (embed g') c.entry := by
  unfold embed
  refine .expect at_entry rfl fun p hp _ => ?_
  exact (h.plain (.expression true) hp trivial).bind fun source p hp => .pure hp

/-! ## Imports -/

theorem bindable_levels (hpos : c.At [] pos) : c.Levels bindable bindable pos := by
  unfold bindable
  exact .expect hpos rfl fun p hp _ => .ite (fun _ => .pure hp) fun _ => .report nofun

theorem expectName_levels (name : Text) (hpos : c.At [] pos) :
    c.Levels (Parser.expectName name) (Parser.expectName name) pos := by
  by_cases hk : (c.stream.get pos).kind = .name ∧ (c.stream.get pos).value = name
  · have hx : Parser.expectName name c.stream pos = Parser.advance c.stream pos := if_pos hk
    exact ((move hpos (by rw [hk.1]; rfl)).mono fun _ _ ht => ht.2.1).congr hx hx
  · have hx : Parser.expectName name c.stream pos =
        Parser.unexpected [] (some (TokenKind.quoted name)) c.stream pos := if_neg hk
    exact (Agrees.unexpected fun _ _ h => absurd h List.not_mem_nil).congr hx hx

theorem importAs_levels (h : c.Below g g') : c.Levels (importAs g) (importAs g') c.entry := by
  unfold importAs
  refine .expect at_entry rfl fun p hp _ => (h.plain (.expression true) hp trivial).bind fun source p hp => ?_
  refine (expectName_levels "as" hp).bind fun _ p hp => (bindable_levels hp).bind fun t p hp => ?_
  exact .previousEnd fun _ => .pure hp

theorem localName?_levels (hpos : c.At [] pos) : c.Levels localName? localName? pos := by
  unfold localName?
  have hcheck {f f' : Bool → Parser (Option Text)}
      (k : ∀ b, (b = true → (c.stream.get pos).kind = .name) → c.Levels (f b) (f' b) pos) :
      c.Levels (Parser.checkName "as" >>= f) (Parser.checkName "as" >>= f') pos :=
    k _ fun hb => eq_of_beq (Bool.and_eq_true_iff.1 hb).1
  refine hcheck fun b hb => .ite (fun h => ?_) fun _ => .pure hpos
  refine .advance hpos (by rw [hb h]; rfl) fun p hp => ?_
  exact (bindable_levels hp).bind fun t p hp => .pure hp

theorem ensurePublic_stays (t : Token) :
    c.Agrees (ensurePublic t) (ensurePublic t) pos fun _ q => q = pos := by
  unfold ensurePublic
  exact .ite (fun _ => .report nofun) fun _ => .pure rfl

theorem nameItems_levels (h : c.Below g g') (first : Bool) :
    c.Levels (nameItems g first) (nameItems g' first) c.entry := by
  unfold nameItems
  extract_lets rest rest'
  refine comma_levels at_entry fun p hp => .check (fun _ => .current ?_) fun _ => .pure hp
  refine (ensurePublic_stays _).bind ?_
  rintro _ _ rfl
  refine (bindable_levels hp).bind fun t p hp => (localName?_levels hp).bind fun localName p hp => ?_
  refine .check (fun _ => ?_) fun _ => .pure hp
  exact (h.plain (.nameItems false) hp trivial).bind fun names p hp => .pure hp

theorem importNames_levels (h : c.Below g g') : c.Levels (importNames g) (importNames g') c.entry := by
  unfold importNames
  refine .expect at_entry rfl fun p hp _ => (h.plain (.expression true) hp trivial).bind fun source p hp => ?_
  refine .expect hp rfl fun p hp _ => ?_
  refine (h.plain (.nameItems true) hp trivial).bind fun names p hp => .checked fun b hb => ?_
  extract_lets rest
  have hrest {q : Nat} (hq : c.At [] q) : c.Levels (rest ()) (rest ()) q := .previousEnd fun _ => .pure hq
  refine .ite (fun hk => ?_) fun _ => hrest hp
  exact .advance_of_mem hp (hb.1 hk) (by decide) fun p hp => hrest hp

/-! ## Print -/

theorem print_levels (h : c.Below g g') : c.Levels (print g) (print g') c.entry := by
  unfold print
  refine .expect at_entry rfl fun p hp _ => ?_
  exact (h.plain (.printItems true) hp trivial).bind fun nodes p hp => .previousEnd fun _ => .pure hp

theorem printItems_levels (h : c.Below g g') (first : Bool) :
    c.Levels (printItems g first) (printItems g' first) c.entry := by
  unfold printItems
  refine .check (fun _ => .pure at_entry) fun _ => ?_
  extract_lets rest rest'
  refine comma_levels at_entry fun p hp => (h.plain (.expression true) hp trivial).bind fun e p hp => ?_
  exact (h.plain (.printItems false) hp trivial).bind fun es p hp => .pure hp

/-! ## Macros and the blocks that call -/

theorem signature_levels (h : c.Below g g') : c.Levels (signature g) (signature g') c.entry := by
  unfold signature
  refine .expect_opening .parens fun hk => ?_
  refine (h.inside (.signatureRest ⟨[], []⟩) .parens hk trivial).bind fun sig p hp => ?_
  exact .expect_closing hp .parens fun _ p hp => .pure hp

theorem default?_levels (h : c.Below g g') (token : Token) (before : List Expr) (hpos : c.At [] pos) :
    c.Levels (default? g token before) (default? g' token before) pos := by
  unfold default?
  refine .check (fun hk => .advance_of_mem hpos hk (by decide) fun p hp => ?_) fun _ => ?_
  · exact (h.plain (.expression true) hp trivial).bind fun e p hp => .pure hp
  · exact .ite (fun _ => .pure hpos) fun _ => .report nofun

theorem signatureRest_levels (h : c.Below g g') (sofar : Signature) :
    c.Levels (signatureRest g sofar) (signatureRest g' sofar) c.entry := by
  unfold signatureRest
  refine .check (fun _ => .pure at_entry) fun _ => ?_
  extract_lets rest rest'
  refine comma_levels at_entry fun p hp => (bindable_levels hp).bind fun token p hp => ?_
  refine (default?_levels h token _ hp).bind fun defaults p hp => ?_
  exact h.plain (.signatureRest _) hp (by trivial)

theorem define_levels (h : c.Below g g') : c.Levels (define g) (define g') c.entry := by
  unfold define
  refine .expect at_entry rfl fun p hp _ => (bindable_levels hp).bind fun name p hp => ?_
  exact (h.plain .signature hp trivial).bind fun sig p hp => closing_levels h _ hp

theorem callBlock_levels (h : c.Below g g') : c.Levels (callBlock g) (callBlock g') c.entry := by
  unfold callBlock
  refine .expect at_entry rfl fun p hp _ => ?_
  have hsig : c.Levels (optionalSignature g) (optionalSignature g') p :=
    .check (fun _ => h.plain .signature hp trivial) fun _ => .pure hp
  refine hsig.bind fun sig p hp => (h.plain (.expression true) hp trivial).bind fun e p hp => ?_
  have hcall (start : Location) : c.Agrees (ensureCall start e) (ensureCall start e) p fun _ q => q = p := by
    unfold ensureCall
    split
    · exact .pure rfl
    · exact .report nofun
  refine (hcall _).bind ?_
  rintro _ _ rfl
  exact closing_levels h _ hp

theorem filterBlock_levels (h : c.Below g g') : c.Levels (filterBlock g) (filterBlock g') c.entry := by
  unfold filterBlock
  refine .expect at_entry rfl fun p hp _ => ?_
  exact (h.plain (.filterChain none) hp trivial).bind fun filter p hp => closing_levels h _ hp

end Grammar

/-! ## The extensions of the library -/

namespace Extension

open Enclosure

theorem doStatement_levels : doStatement.Levels := by
  intro c g g' h hk
  refine .advance at_entry (by rw [hk]; rfl) fun p hp => ?_
  exact (h.plain (.tuple (.expression true)) hp trivial).bind fun e p hp => .pure hp

theorem loopControls_levels : loopControls.Levels := by
  intro c g g' h hk
  refine .advance at_entry (by rw [hk]; rfl) fun p hp => ?_
  exact .ite (fun _ => .pure hp) fun _ => .pure hp

end Extension
end Stencil
