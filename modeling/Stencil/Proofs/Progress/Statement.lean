/-
The rules for statements agree in every frame below which their parts agree, provided that extensions
do so too (`Extension.Orderly`).
-/
import Stencil.Grammar.Statement
import Stencil.Proofs.Progress.Expression

namespace Stencil

/-- An extension keeps to what is asked of rules: begun at its name, it agrees in every frame below which
the rules agree that it turns to. -/
def Extension.Orderly (x : Extension) : Prop :=
  ∀ ⦃c : Frame⦄ ⦃g g' : Grammar⦄, c.Below g g' 17 → c.orderly →
    (c.stream.get c.entry).kind = .name → c.Gains (x.parse g) (x.parse g') c.entry 0

namespace Grammar

open Stencil.Frame

variable {c : Frame} {g g' : Grammar}

/-! ## One statement -/

theorem simpleStatement_gains (h : c.Below g g' 17) :
    c.Gains (simpleStatement g) (simpleStatement g') c.entry 0 := by
  unfold simpleStatement
  refine (h.plain (.tuple (.expression true)) h.within (.inr (by decide)) rfl trivial).bind
    fun e p hp hw => ?_
  simp only [Rule.least] at hp
  refine .check (fun _ => ?_) fun _ => .pure ⟨hp, hw⟩
  have hr : c.entry < p ∨ 0 < 17 := .inr (by decide)
  refine (h.plain (.assign e) hw hr rfl trivial).bind fun s q hq hw => ?_
  exact .pure ⟨by omega, hw⟩

theorem statementRule?_eq_some {k : Keyword} {r : Rule .stmt} (h : statementRule? k = some r) :
    r.rank = 0 ∧ ∀ s pos, r.Admits s pos := by
  cases k <;> simp only [statementRule?, Option.some.injEq, reduceCtorEq] at h <;> subst h <;>
    exact ⟨rfl, fun _ _ => trivial⟩

theorem statement_gains (h : c.Below g g' 17) (ho : c.orderly) {find : Text → Option Extension}
    (hx : ∀ ⦃name x⦄, find name = some x → x.Orderly) :
    c.Gains (statement g find) (statement g' find) c.entry 0 := by
  unfold statement
  refine .current ?_
  split
  · split
    · rename_i r hr
      obtain ⟨hlow, hadm⟩ := statementRule?_eq_some hr
      refine (h.rule r h.within (.inr (by omega)) (fun _ => ho) fun _ => hadm _ _).bind fun s p hp hw => ?_
      exact .pure ⟨by omega, hw⟩
    · exact simpleStatement_gains h
  · rename_i hk
    split
    · rename_i x hf
      exact hx hf h ho hk
    · exact simpleStatement_gains h
  · exact simpleStatement_gains h

/-! ## Bodies -/

theorem statements_gains (h : c.Below g g' 0) (ho : c.orderly) (ends : List TokenKind) (dropEnd : Bool) :
    c.Gains (statements g ends dropEnd) (statements g' ends dropEnd) c.entry 1 := by
  unfold statements
  refine .checked fun b hb => ?_
  extract_lets rest rest'
  have hrest (p : Nat) (hp : c.entry ≤ p) (hw : c.Within p) :
      c.Agrees (rest ()) (rest' ()) p fun _ q => c.entry + 1 ≤ q ∧ c.Within q := by
    refine .expect hw nofun fun hk hw => ?_
    have ha : (Rule.content (some ends) []).Admits c.stream (p + 1) :=
      .inr ⟨p, rfl, by rw [hk]; rfl⟩
    refine (h.rule (.content (some ends) []) hw (.inl (by omega)) (fun _ => ho) fun _ => ha).bind
      fun body q hq hw => ?_
    refine .check (fun _ => ?_) fun _ => .unexpected hw
    extract_lets done
    refine .ite (fun _ => ?_) fun _ => .pure ⟨by omega, hw⟩
    refine (Agrees.move hw).bind ?_
    rintro _ r ⟨-, hr, hw, -⟩
    exact .pure ⟨by omega, hw⟩
  refine .ite (fun hk => ?_) fun _ => hrest _ (Nat.le_refl _) h.within
  exact .advance_of_mem h.within (hb.1 hk) rfl fun hw => hrest _ (Nat.le_succ _) hw

theorem content_gains (h : c.Below g g' 0) (ho : c.orderly) (ends : Option (List TokenKind))
    (pending : List Expr) (ha : c.admitted → (Rule.content ends pending).Admits c.stream c.entry) :
    c.Gains (content g ends pending) (content g' ends pending) c.entry 0 := by
  unfold content
  -- the next piece stands outside of tags, because what ends a piece is read before it
  have again {q : Nat} {es : List Expr} (hw : c.Within (q + 1)) (hq : c.entry ≤ q)
      (hk : (c.stream.get q).kind.endsPiece = true) :
      c.Agrees (g (.content ends es)) (g' (.content ends es)) (q + 1)
        fun _ p => c.entry + 0 ≤ p ∧ c.Within p :=
    (h.rule (.content ends es) hw (.inl (by omega)) (fun _ => ho) fun _ => .inr ⟨q, rfl, hk⟩).since
      (by omega)
  refine .current ?_
  split <;> rename_i hk
  · exact .advance h.within (by rw [hk]; nofun) fun hw => again hw (Nat.le_refl _) (by rw [hk]; rfl)
  · refine .advance h.within (by rw [hk]; nofun) fun hw => ?_
    refine (h.plain (.tuple (.expression true)) hw (.inl (by omega)) rfl trivial).bind fun e p hp hw => ?_
    exact .expect hw nofun fun hk hw => again hw (by omega) (by rw [hk]; rfl)
  · refine .advance h.within (by rw [hk]; nofun) fun hw => ?_
    refine .check (fun _ => .pure ⟨by omega, hw⟩) fun _ => ?_
    refine (h.rule .statement hw (.inl (by omega)) (fun _ => ho) fun _ => trivial).bind
      fun splice p hp hw => ?_
    refine .expect hw nofun fun hk hw => (again hw (by omega) (by rw [hk]; rfl)).bind ?_
    exact fun rest q hq => .pure hq
  · exact .pure ⟨Nat.le_refl _, h.within⟩
  · rename_i hd hv hb he
    refine .fault h.within nofun fun had => ?_
    have hopen : (c.stream.get c.entry).kind.opensPiece = false := by
      cases ht : (c.stream.get c.entry).kind <;> first | rfl | contradiction
    rcases ha had with ho | ⟨i, hi, hend⟩
    · rw [hopen] at ho; cases ho
    · exact ⟨hopen, i, hend, by rw [← hi]⟩

theorem template_gains (h : c.Below g g' 1) (ho : c.orderly)
    (ha : c.admitted → Rule.template.Admits c.stream c.entry) :
    c.Gains (template g) (template g') c.entry 0 := by
  unfold template
  refine (h.rule (.content none []) h.within (.inr Nat.one_pos) (fun _ => ho) ha).bind fun body p hp hw => ?_
  exact .current (.pure ⟨hp, hw⟩)

/-! ## Assignment -/

theorem storeTarget_agrees {pos : Nat} (hw : c.Within pos) (e : Expr) :
    c.Agrees (storeTarget e) (storeTarget e) pos fun _ p => p = pos := by
  unfold storeTarget
  split
  · exact .pure rfl
  · exact .report hw rfl

theorem assign_gains (h : c.Below g g' 0) (target : Expr) :
    c.Gains (assign g target) (assign g' target) c.entry 1 := by
  unfold assign
  refine .expect h.within nofun fun _ hw => (storeTarget_agrees hw target).bind ?_
  rintro stored _ rfl
  refine (h.plain (.tuple (.expression true)) hw (.inl (by omega)) rfl trivial).bind fun value p hp hw => ?_
  exact .pure ⟨by omega, hw⟩

/-! ## Loops and conditionals -/

theorem loopTest_gains {n pos : Nat} (h : c.Below g g' n) (hw : c.Within pos) (hp : c.entry ≤ pos) :
    c.Gains (loopTest g) (loopTest g') pos 0 := by
  unfold loopTest
  refine .check (fun hk => .advance_of_mem hw hk rfl fun hw => ?_) fun _ => .pure ⟨Nat.le_refl _, hw⟩
  refine (h.plain (.expression true) hw (.inl (by omega)) rfl trivial).bind fun e q hq hw => ?_
  exact .pure ⟨by omega, hw⟩

theorem loop_gains (h : c.Below g g' 0) (ho : c.orderly) : c.Gains (loop g) (loop g') c.entry 1 := by
  unfold loop
  refine .expect h.within nofun fun _ hw => ?_
  refine (h.plain (.tuple .primary) hw (.inl (by omega)) rfl trivial).bind fun target p hp hw => ?_
  simp only [Rule.least] at hp
  refine (storeTarget_agrees hw target).bind ?_
  rintro stored _ rfl
  refine .expect hw nofun fun _ hw => ?_
  refine (h.plain (.tuple (.expression false)) hw (.inl (by omega)) rfl trivial).bind fun iter q hq hw => ?_
  refine (loopTest_gains h hw hw.1).bind fun test r hr hw => ?_
  refine (h.rule (.statements _ false) hw (.inl (by omega)) (fun _ => ho) fun _ => by trivial).bind
    fun body t ht hw => ?_
  simp only [Rule.least] at ht
  refine (Agrees.move hw).bind ?_
  rintro _ u ⟨rfl, hu, hw, -⟩
  extract_lets rest
  have hrest (elseBody : List Stmt) (v : Nat) (hv : u ≤ v) (hw : c.Within v) :
      c.Agrees (rest elseBody) (rest elseBody) v fun _ p => c.entry + 1 ≤ p ∧ c.Within p :=
    .previousEnd fun _ => .pure ⟨by omega, hw⟩
  refine .ite (fun _ => hrest [] u (Nat.le_refl _) hw) fun _ => ?_
  refine (h.rule (.statements _ true) hw (.inl (by omega)) (fun _ => ho) fun _ => by trivial).bind
    fun elseBody v hv hw => ?_
  exact hrest elseBody v (by omega) hw

theorem branch_gains {n pos : Nat} (h : c.Below g g' n) (ho : c.orderly) (start : Location)
    (hw : c.Within pos) (hp : c.entry < pos) :
    c.Gains (branch g start) (branch g' start) pos 1 := by
  unfold branch
  refine (h.plain (.tuple (.expression true)) hw (.inl hp) rfl trivial).bind fun test q hq hw => ?_
  simp only [Rule.least] at hq
  refine (h.rule (.statements branchEnds false) hw (.inl (by omega)) (fun _ => ho) fun _ => trivial).bind
    fun body r hr hw => ?_
  simp only [Rule.least] at hr
  exact .pure ⟨by omega, hw⟩

theorem branches_gains (h : c.Below g g' 0) (ho : c.orderly) :
    c.Gains (branches g) (branches g') c.entry 0 := by
  unfold branches
  refine (Agrees.move h.within).bind ?_
  rintro _ p ⟨rfl, hp, hw, hmove⟩
  refine .ite (fun hk => ?_) fun _ => .ite (fun hk => ?_) fun _ => .pure ⟨hp, hw⟩
  · have hp := hmove (by rw [hk]; nofun)
    refine (branch_gains h ho _ hw (by omega)).bind fun b q hq hw => ?_
    refine (h.rule .branches hw (.inl (by omega)) (fun _ => ho) fun _ => trivial).bind fun rest r hr hw => ?_
    exact .pure ⟨by omega, hw⟩
  · have hp := hmove (by rw [hk]; nofun)
    refine (h.rule (.statements _ true) hw (.inl (by omega)) (fun _ => ho) fun _ => by trivial).bind
      fun body q hq hw => ?_
    exact .pure ⟨by omega, hw⟩

theorem conditional_gains (h : c.Below g g' 0) (ho : c.orderly) :
    c.Gains (conditional g) (conditional g') c.entry 1 := by
  unfold conditional
  refine .expect h.within nofun fun _ hw => ?_
  refine (branch_gains h ho _ hw (by omega)).bind fun first p hp hw => ?_
  refine (h.rule .branches hw (.inl (by omega)) (fun _ => ho) fun _ => trivial).bind fun rest q hq hw => ?_
  exact .previousEnd fun _ => .pure ⟨by omega, hw⟩

/-! ## Parts of templates -/

/-- The body at the end of a statement, and the place where the statement stops. -/
theorem closing_gains {α : Type} {n pos : Nat} (h : c.Below g g' n) (ho : c.orderly)
    (ends : List TokenKind) (f : List Stmt → Location → α) (hw : c.Within pos) (hp : c.entry < pos) :
    c.Agrees (g (.statements ends true) >>= fun body => Parser.previousEnd >>= fun stop => pure (f body stop))
      (g' (.statements ends true) >>= fun body => Parser.previousEnd >>= fun stop => pure (f body stop))
      pos fun _ p => c.entry + 1 ≤ p ∧ c.Within p := by
  refine (h.rule (.statements ends true) hw (.inl hp) (fun _ => ho) fun _ => trivial).bind
    fun body q hq hw => ?_
  exact .previousEnd fun _ => .pure ⟨by omega, hw⟩

theorem block_gains (h : c.Below g g' 0) (ho : c.orderly) : c.Gains (block g) (block g') c.entry 1 := by
  unfold block
  refine .expect h.within nofun fun _ hw => .expect hw nofun fun _ hw => ?_
  exact closing_gains h ho _ _ hw (by omega)

theorem extend_gains (h : c.Below g g' 0) : c.Gains (extend g) (extend g') c.entry 1 := by
  unfold extend
  refine .expect h.within nofun fun _ hw => ?_
  refine (h.plain (.expression true) hw (.inl (by omega)) rfl trivial).bind fun source p hp hw => ?_
  exact .pure ⟨by omega, hw⟩

theorem embed_gains (h : c.Below g g' 0) : c.Gains (embed g) (embed g') c.entry 1 := by
  unfold embed
  refine .expect h.within nofun fun _ hw => ?_
  refine (h.plain (.expression true) hw (.inl (by omega)) rfl trivial).bind fun source p hp hw => ?_
  exact .pure ⟨by omega, hw⟩

/-! ## Imports -/

theorem bindable_gains {pos : Nat} (hw : c.Within pos) : c.Gains bindable bindable pos 1 := by
  unfold bindable
  exact .expect hw nofun fun _ hw => .ite (fun _ => .pure ⟨Nat.le_refl _, hw⟩) fun _ => .report hw rfl

theorem expectName_agrees {α : Type} {name : Text} {pos : Nat} {f f' : Token → Parser α}
    {good : α → Nat → Prop} (hw : c.Within pos)
    (k : ∀ t, c.Within (pos + 1) → c.Agrees (f t) (f' t) (pos + 1) good) :
    c.Agrees (Parser.expectName name >>= f) (Parser.expectName name >>= f') pos good := by
  have hx : c.Agrees (Parser.expectName name) (Parser.expectName name) pos fun _ p =>
      p = pos + 1 ∧ c.Within p := by
    unfold Agrees
    by_cases hk : (c.stream.get pos).kind = .name ∧ (c.stream.get pos).value = name
    · have hx : Parser.expectName name c.stream pos = Parser.advance c.stream pos := if_pos hk
      have hne : (c.stream.get pos).kind ≠ .eof := by rw [hk.1]; nofun
      rw [hx]
      refine ⟨rfl, if_neg hne, ?_⟩
      rw [if_neg hne]
      exact within_succ hw hne
    · have hx : Parser.expectName name c.stream pos =
          Parser.unexpected [] (some (TokenKind.quoted name)) c.stream pos := if_neg hk
      rw [hx]
      exact ⟨rfl, hw, rfl, rfl⟩
  refine hx.bind ?_
  rintro t _ ⟨rfl, hw⟩
  exact k t hw

theorem importAs_gains (h : c.Below g g' 0) : c.Gains (importAs g) (importAs g') c.entry 1 := by
  unfold importAs
  refine .expect h.within nofun fun _ hw => ?_
  refine (h.plain (.expression true) hw (.inl (by omega)) rfl trivial).bind fun source p hp hw => ?_
  refine expectName_agrees hw fun _ hw => ?_
  refine (bindable_gains hw).bind fun t q hq hw => ?_
  exact .previousEnd fun _ => .pure ⟨by omega, hw⟩

theorem localName?_gains {pos : Nat} (hw : c.Within pos) : c.Gains localName? localName? pos 0 := by
  unfold localName?
  have hcheck {f f' : Bool → Parser (Option Text)} {good : Option Text → Nat → Prop}
      (k : ∀ b, (b = true → (c.stream.get pos).kind = .name) → c.Agrees (f b) (f' b) pos good) :
      c.Agrees (Parser.checkName "as" >>= f) (Parser.checkName "as" >>= f') pos good :=
    k _ fun hb => eq_of_beq (Bool.and_eq_true_iff.1 hb).1
  refine hcheck fun b hb => .ite (fun h => ?_) fun _ => .pure ⟨Nat.le_refl _, hw⟩
  refine .advance hw (by rw [hb h]; nofun) fun hw => (bindable_gains hw).bind fun t q hq hw => ?_
  exact .pure ⟨by omega, hw⟩

theorem ensurePublic_agrees {pos : Nat} (hw : c.Within pos) (t : Token) :
    c.Agrees (ensurePublic t) (ensurePublic t) pos fun _ p => p = pos := by
  unfold ensurePublic
  exact .ite (fun _ => .report hw rfl) fun _ => .pure rfl

theorem nameItems_gains (h : c.Below g g' 0) (first : Bool) :
    c.Gains (nameItems g first) (nameItems g' first) c.entry 0 := by
  unfold nameItems
  extract_lets rest rest'
  refine comma_gains h.within fun p hp hw => ?_
  refine .check (fun _ => .current ?_) fun _ => .pure ⟨hp, hw⟩
  refine (ensurePublic_agrees hw _).bind ?_
  rintro _ _ rfl
  refine (bindable_gains hw).bind fun t q hq hw => ?_
  refine (localName?_gains hw).bind fun localName r hr hw => ?_
  refine .check (fun _ => ?_) fun _ => .pure ⟨by omega, hw⟩
  refine (h.plain (.nameItems false) hw (.inl (by omega)) rfl trivial).bind fun names u hu hw => ?_
  exact .pure ⟨by omega, hw⟩

theorem importNames_gains (h : c.Below g g' 0) :
    c.Gains (importNames g) (importNames g') c.entry 1 := by
  unfold importNames
  refine .expect h.within nofun fun _ hw => ?_
  refine (h.plain (.expression true) hw (.inl (by omega)) rfl trivial).bind fun source p hp hw => ?_
  refine .expect hw nofun fun _ hw => ?_
  refine (h.plain (.nameItems true) hw (.inl (by omega)) rfl trivial).bind
    fun names q hq hw => .checked fun b hb => ?_
  extract_lets rest
  have hrest (r : Nat) (hr : q ≤ r) (hw : c.Within r) :
      c.Agrees (rest ()) (rest ()) r fun _ p => c.entry + 1 ≤ p ∧ c.Within p :=
    .previousEnd fun _ => .pure ⟨by omega, hw⟩
  refine .ite (fun hk => ?_) fun _ => hrest q (Nat.le_refl _) hw
  exact .advance_of_mem hw (hb.1 hk) rfl fun hw => hrest _ (Nat.le_succ _) hw

/-! ## Print -/

theorem print_gains (h : c.Below g g' 0) : c.Gains (print g) (print g') c.entry 1 := by
  unfold print
  refine .expect h.within nofun fun _ hw => ?_
  refine (h.plain (.printItems true) hw (.inl (by omega)) rfl trivial).bind fun nodes p hp hw => ?_
  exact .previousEnd fun _ => .pure ⟨by omega, hw⟩

theorem printItems_gains (h : c.Below g g' 16) (first : Bool) :
    c.Gains (printItems g first) (printItems g' first) c.entry 0 := by
  unfold printItems
  refine .check (fun _ => .pure ⟨Nat.le_refl _, h.within⟩) fun _ => ?_
  extract_lets rest rest'
  refine comma_gains h.within fun p hp hw => ?_
  have hr : c.entry < p ∨ 15 < 16 := .inr (by decide)
  refine (h.plain (.expression true) hw hr rfl trivial).bind fun e q hq hw => ?_
  simp only [Rule.least] at hq
  refine (h.plain (.printItems false) hw (.inl (by omega)) rfl trivial).bind fun es r hr hw => ?_
  exact .pure ⟨by omega, hw⟩

/-! ## Macros and the blocks that call -/

theorem signature_gains (h : c.Below g g' 0) : c.Gains (signature g) (signature g') c.entry 1 := by
  unfold signature
  refine .expect h.within nofun fun _ hw => ?_
  refine (h.plain (.signatureRest ⟨[], []⟩) hw (.inl (by omega)) rfl trivial).bind fun s p hp hw => ?_
  exact .expect hw nofun fun _ hw => .pure ⟨by omega, hw⟩

theorem default?_gains {n pos : Nat} (h : c.Below g g' n) (token : Token) (before : List Expr)
    (hw : c.Within pos) (hp : c.entry ≤ pos) :
    c.Gains (default? g token before) (default? g' token before) pos 0 := by
  unfold default?
  refine .check (fun hk => .advance_of_mem hw hk rfl fun hw => ?_) fun _ => ?_
  · refine (h.plain (.expression true) hw (.inl (by omega)) rfl trivial).bind fun e q hq hw => ?_
    exact .pure ⟨by omega, hw⟩
  · exact .ite (fun _ => .pure ⟨Nat.le_refl _, hw⟩) fun _ => .report hw rfl

theorem signatureRest_gains (h : c.Below g g' 0) (sofar : Signature) :
    c.Gains (signatureRest g sofar) (signatureRest g' sofar) c.entry 0 := by
  unfold signatureRest
  refine .check (fun _ => .pure ⟨Nat.le_refl _, h.within⟩) fun _ => ?_
  extract_lets rest rest'
  refine comma_gains h.within fun p hp hw => ?_
  refine (bindable_gains hw).bind fun token q hq hw => ?_
  refine (default?_gains h token _ hw hw.1).bind fun defaults r hr hw => ?_
  exact (h.plain (.signatureRest _) hw (.inl (by omega)) rfl (by trivial)).since (by omega)

theorem define_gains (h : c.Below g g' 0) (ho : c.orderly) : c.Gains (define g) (define g') c.entry 1 := by
  unfold define
  refine .expect h.within nofun fun _ hw => (bindable_gains hw).bind fun name p hp hw => ?_
  refine (h.plain .signature hw (.inl (by omega)) rfl trivial).bind fun s q hq hw => ?_
  exact closing_gains h ho _ _ hw (by omega)

theorem callBlock_gains (h : c.Below g g' 0) (ho : c.orderly) :
    c.Gains (callBlock g) (callBlock g') c.entry 1 := by
  unfold callBlock
  refine .expect h.within nofun fun _ hw => ?_
  have hs : c.Gains (optionalSignature g) (optionalSignature g') (c.entry + 1) 0 := by
    unfold optionalSignature
    refine .check (fun _ => ?_) fun _ => .pure ⟨Nat.le_refl _, hw⟩
    exact (h.plain .signature hw (.inl (by omega)) rfl trivial).since (by omega)
  refine hs.bind fun s p hp hw => ?_
  refine (h.plain (.expression true) hw (.inl (by omega)) rfl trivial).bind fun e q hq hw => ?_
  have hcall (start : Location) : c.Agrees (ensureCall start e) (ensureCall start e) q fun _ p => p = q := by
    unfold ensureCall
    split
    · exact .pure rfl
    · exact .report hw rfl
  refine (hcall _).bind ?_
  rintro _ _ rfl
  exact closing_gains h ho _ _ hw (by omega)

theorem filterBlock_gains (h : c.Below g g' 0) (ho : c.orderly) :
    c.Gains (filterBlock g) (filterBlock g') c.entry 1 := by
  unfold filterBlock
  refine .expect h.within nofun fun _ hw => ?_
  refine (h.plain (.filterChain none) hw (.inl (by omega)) rfl trivial).bind fun filter p hp hw => ?_
  exact closing_gains h ho _ _ hw (by omega)

end Grammar

/-! ## The extensions of the library -/

namespace Extension

theorem doStatement_orderly : doStatement.Orderly := by
  intro c g g' h _ hk
  refine .advance h.within (by rw [hk]; nofun) fun hw => ?_
  refine (h.plain (.tuple (.expression true)) hw (.inl (by omega)) rfl trivial).bind fun e p hp hw => ?_
  exact .pure ⟨by omega, hw⟩

theorem loopControls_orderly : loopControls.Orderly := by
  intro c g g' h _ hk
  refine .advance h.within (by rw [hk]; nofun) fun hw => ?_
  exact .ite (fun _ => .pure ⟨by omega, hw⟩) fun _ => .pure ⟨by omega, hw⟩

end Extension
end Stencil
