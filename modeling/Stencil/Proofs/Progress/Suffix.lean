/-
The rules for attributes and subscripts, calls, filters and tests agree in every frame below which
their parts agree.
-/
import Stencil.Grammar.Suffix
import Stencil.Proofs.Progress.Expression

namespace Stencil.Grammar

open Stencil.Frame

variable {c : Frame} {g g' : Grammar}

/-! ## Suffixes -/

theorem suffixes_gains (h : c.Below g g' 2) (e : Expr) :
    c.Gains (suffixes g e) (suffixes g' e) c.entry 0 := by
  unfold suffixes
  refine .current ?_
  have again {n : Nat} {r : Rule .expr} (hx : c.Gains (g r) (g' r) c.entry n) (hn : n = 1) :
      c.Agrees (g r >>= fun e => g (.suffixes e)) (g' r >>= fun e => g' (.suffixes e)) c.entry
        fun _ p => c.entry + 0 ≤ p ∧ c.Within p := by
    refine hx.bind fun e p hp hw => ?_
    exact (h.plain (.suffixes e) hw (.inl (by omega)) rfl trivial).since (by omega)
  split <;> rename_i hk
  · exact again (h.rule (.subscript e) h.within (.inr Nat.two_pos) nofun fun _ => .inl hk) rfl
  · exact again (h.rule (.subscript e) h.within (.inr Nat.two_pos) nofun fun _ => .inr hk) rfl
  · exact again (h.plain (.call e) h.within (.inr Nat.one_lt_two) rfl trivial) rfl
  · exact again (h.plain (.filter e) h.within (.inr Nat.two_pos) rfl trivial) (by rw [hk]; rfl)
  · exact again (h.plain (.test e) h.within (.inr Nat.two_pos) rfl trivial) rfl
  · exact .pure ⟨Nat.le_refl _, h.within⟩

/-! ## Subscripts -/

theorem dotIndex_gains {pos : Nat} (hw : c.Within pos) : c.Gains dotIndex dotIndex pos 1 := by
  unfold dotIndex
  refine .current ?_
  extract_lets after
  have hafter (hk : (c.stream.get pos).kind ≠ .eof) (index : Expr) :
      c.Agrees (after index) (after index) pos fun _ p => pos + 1 ≤ p ∧ c.Within p :=
    .advance hw hk fun hw => .pure ⟨Nat.le_refl _, hw⟩
  split <;> rename_i hk
  · exact hafter (by rw [hk]; nofun) _
  · refine (integer_agrees hw hk).bind ?_
    rintro index _ rfl
    exact hafter (by rw [hk]; nofun) index
  · exact (Agrees.report hw rfl).bind (P := fun _ _ => False) nofun

theorem bracketIndex_gains {n pos : Nat} (h : c.Below g g' n) (opened : Token) (hw : c.Within pos)
    (hp : c.entry < pos) : c.Gains (bracketIndex g opened) (bracketIndex g' opened) pos 1 := by
  unfold bracketIndex
  refine (h.plain (.subscriptItems true) hw (.inl hp) rfl trivial).bind fun items q hq hw => ?_
  simp only [Rule.least] at hq
  refine .previousEnd fun stop => .expect hw nofun fun _ hw => ?_
  split <;> exact .pure ⟨by omega, hw⟩

theorem subscript_gains (h : c.Below g g' 0) (object : Expr)
    (ha : c.admitted → (Rule.subscript object).Admits c.stream c.entry) :
    c.Gains (subscript g object) (subscript g' object) c.entry 1 := by
  unfold subscript
  refine (Agrees.move h.within).bind ?_
  rintro _ p ⟨rfl, hp, hw, hmove⟩
  extract_lets after
  have hafter (index : Expr) (q : Nat) (hq : p + 1 ≤ q) (hw : c.Within q) :
      c.Agrees (after index) (after index) q fun _ q => c.entry + 1 ≤ q ∧ c.Within q :=
    .previousEnd fun _ => .pure ⟨by omega, hw⟩
  split <;> rename_i hk
  · exact (dotIndex_gains hw).bind hafter
  · refine (bracketIndex_gains h _ hw ?_).bind hafter
    rw [hmove (by rw [hk]; nofun)]
    exact Nat.lt_succ_self _
  · rename_i hd
    have hf : c.Agrees (Parser.faultWith (.subscriptStart (c.stream.get c.entry).kind))
        (Parser.faultWith (.subscriptStart (c.stream.get c.entry).kind)) p fun (_ : Expr) _ => False :=
      .fault hw nofun fun had => (ha had).elim hd hk
    exact hf.bind nofun

theorem subscriptItems_gains (h : c.Below g g' 17) (first : Bool) :
    c.Gains (subscriptItems g first) (subscriptItems g' first) c.entry 0 := by
  unfold subscriptItems
  refine .check (fun _ => .pure ⟨Nat.le_refl _, h.within⟩) fun _ => ?_
  extract_lets rest rest'
  refine comma_gains h.within fun p hp hw => ?_
  have hr : c.entry < p ∨ 16 < 17 := .inr (by decide)
  refine (h.plain .subscriptItem hw hr rfl trivial).bind fun e q hq hw => ?_
  simp only [Rule.least] at hq
  refine (h.plain (.subscriptItems false) hw (.inl (by omega)) rfl trivial).bind fun es r hr hw => ?_
  exact .pure ⟨by omega, hw⟩

theorem sliceStep_gains {n pos : Nat} (h : c.Below g g' n) (hw : c.Within pos)
    (hp : c.entry ≤ pos) : c.Gains (sliceStep g) (sliceStep g') pos 0 := by
  unfold sliceStep
  refine .check (fun hk => .advance_of_mem hw hk rfl fun hw => ?_) fun _ => .pure ⟨Nat.le_refl _, hw⟩
  refine .check (fun _ => .pure ⟨by omega, hw⟩) fun _ => ?_
  refine (h.plain (.expression true) hw (.inl (by omega)) rfl trivial).bind fun e q hq hw => ?_
  exact .pure ⟨by omega, hw⟩

theorem sliceRest_gains {n pos : Nat} (h : c.Below g g' n) (begun : Location) (start : Option Expr)
    (hw : c.Within pos) (hp : c.entry < pos) :
    c.Gains (sliceRest g begun start) (sliceRest g' begun start) pos 0 := by
  unfold sliceRest
  refine .checked fun b _ => ?_
  extract_lets rest rest'
  have hrest (stop : Option Expr) (q : Nat) (hq : pos ≤ q) (hw : c.Within q) :
      c.Agrees (rest stop) (rest' stop) q fun _ p => pos + 0 ≤ p ∧ c.Within p := by
    refine (sliceStep_gains h hw hw.1).bind fun step r hr hw => ?_
    exact .previousEnd fun _ => .pure ⟨by omega, hw⟩
  refine .ite (fun _ => hrest _ _ (Nat.le_refl _) hw) fun _ => ?_
  refine (h.plain (.expression true) hw (.inl hp) rfl trivial).bind fun e q hq hw => ?_
  exact hrest _ _ (by omega) hw

theorem subscriptItem_gains (h : c.Below g g' 16) :
    c.Gains (subscriptItem g) (subscriptItem g') c.entry 1 := by
  unfold subscriptItem
  refine .current (.check (fun hk => .advance_of_mem h.within hk rfl fun hw => ?_) fun _ => ?_)
  · exact (sliceRest_gains h _ _ hw (by omega)).since (Nat.le_refl _)
  · refine (h.plain (.expression true) h.within (.inr (by decide)) rfl trivial).bind fun e p hp hw => ?_
    simp only [Rule.least] at hp
    refine .check (fun hk => .advance_of_mem hw hk rfl fun hw => ?_) fun _ => .pure ⟨hp, hw⟩
    exact (sliceRest_gains h _ _ hw (by omega)).since (by omega)

/-! ## Arguments -/

theorem call_gains (h : c.Below g g' 1) (callee : Expr) :
    c.Gains (call g callee) (call g' callee) c.entry 1 := by
  unfold call
  refine (h.plain .arguments h.within (.inr Nat.one_pos) rfl trivial).bind fun args p hp hw => ?_
  exact .previousEnd fun _ => .pure ⟨hp, hw⟩

theorem arguments_gains (h : c.Below g g' 0) : c.Gains (arguments g) (arguments g') c.entry 1 := by
  unfold arguments
  refine .expect h.within nofun fun _ hw => ?_
  refine (h.plain (.argumentsRest _ .empty) hw (.inl (by omega)) rfl (by trivial)).bind fun args p hp hw => ?_
  exact .expect hw nofun fun _ hw => .pure ⟨by omega, hw⟩

theorem ensureOrder_agrees {pos : Nat} (hw : c.Within pos) (opened : Location) (valid : Bool) :
    c.Agrees (ensureOrder opened valid) (ensureOrder opened valid) pos fun _ p => p = pos := by
  unfold ensureOrder
  exact .ite (fun _ => .pure rfl) fun _ => .report hw rfl

theorem argument_gains {pos : Nat} (h : c.Below g g' 16) (opened : Location) (args : Arguments)
    (hw : c.Within pos) : c.Gains (argument g opened args) (argument g' opened args) pos 1 := by
  obtain ⟨positional, keywords, spread, keywordSpread⟩ := args
  have ensured {valid : Bool} {x x' : Parser Arguments}
      (k : c.Agrees x x' pos fun _ p => pos + 1 ≤ p ∧ c.Within p) :
      c.Agrees (ensureOrder opened valid >>= fun _ => x) (ensureOrder opened valid >>= fun _ => x') pos
        fun _ p => pos + 1 ≤ p ∧ c.Within p := by
    refine (ensureOrder_agrees hw opened valid).bind ?_
    rintro _ _ rfl
    exact k
  -- a value behind what marks the argument, if anything does
  have value {q : Nat} {f f' : Expr → Parser Arguments} (hq : pos ≤ q) (hw : c.Within q)
      (k : ∀ e r, pos + 1 ≤ r → c.Within r →
        c.Agrees (f e) (f' e) r fun _ p => pos + 1 ≤ p ∧ c.Within p) :
      c.Agrees (g (.expression true) >>= f) (g' (.expression true) >>= f') q
        fun _ p => pos + 1 ≤ p ∧ c.Within p :=
    (h.plain (.expression true) hw (.inr (by decide)) rfl trivial).bind fun e r hr hw =>
      k e r (by simp only [Rule.least] at hr; omega) hw
  unfold argument
  refine .check (fun hk => ensured (.advance_of_mem hw hk rfl fun hw => ?_)) fun _ => ?_
  · exact value (Nat.le_succ _) hw fun e r hr hw => .pure ⟨hr, hw⟩
  refine .check (fun hk => ensured (.advance_of_mem hw hk rfl fun hw => ?_)) fun _ => ?_
  · exact value (Nat.le_succ _) hw fun e r hr hw => .pure ⟨hr, hw⟩
  refine ensured (.current (.peek fun next => .ite (fun hn => ?_) fun _ => ensured ?_))
  · refine (skip_two_gains hw (by rw [hn.1]; nofun)).bind fun _ q hq hw => ?_
    exact value (by omega) hw fun e r hr hw => .pure ⟨hr, hw⟩
  · exact value (Nat.le_refl _) hw fun e r hr hw => .pure ⟨hr, hw⟩

theorem argumentsRest_gains (h : c.Below g g' 16) (opened : Location) (args : Arguments) :
    c.Gains (argumentsRest g opened args) (argumentsRest g' opened args) c.entry 0 := by
  unfold argumentsRest
  refine .check (fun _ => .pure ⟨Nat.le_refl _, h.within⟩) fun _ => ?_
  extract_lets rest rest'
  refine comma_gains h.within fun p hp hw => .checked fun b _ => .ite (fun _ => .pure ⟨hp, hw⟩) fun _ => ?_
  refine (argument_gains h opened args hw).bind fun args q hq hw => ?_
  exact (h.plain (.argumentsRest opened args) hw (.inl (by omega)) rfl trivial).since (by omega)

/-! ## Filters and tests -/

theorem filter_gains (h : c.Below g g' 0) (input : Expr) :
    c.Gains (filter g input) (filter g' input) c.entry
      ((Rule.filter input).least (c.stream.get c.entry).kind) := by
  unfold filter
  refine .check (fun hk => .advance_of_mem h.within hk rfl fun hw => ?_) fun hk => .pure ⟨?_, h.within⟩
  · refine (h.plain (.filterChain (some input)) hw (.inl (by omega)) rfl trivial).since ?_
    simp only [Rule.least]
    split <;> omega
  · rw [List.mem_singleton] at hk
    simp only [Rule.least, if_neg hk]
    exact Nat.le_refl _

theorem optionalArguments_gains {n pos : Nat} (h : c.Below g g' n) (hw : c.Within pos)
    (hp : c.entry < pos) : c.Gains (optionalArguments g) (optionalArguments g') pos 0 := by
  unfold optionalArguments
  refine .check (fun _ => ?_) fun _ => .pure ⟨Nat.le_refl _, hw⟩
  exact (h.plain .arguments hw (.inl hp) rfl trivial).since (by omega)

theorem singleFilter_gains (h : c.Below g g' 0) (input : Option Expr) :
    c.Gains (singleFilter g input) (singleFilter g' input) c.entry 1 := by
  unfold singleFilter
  refine .expect h.within nofun fun _ hw => ?_
  refine (optionalArguments_gains h hw (by omega)).bind fun args p hp hw => ?_
  exact .previousEnd fun _ => .pure ⟨hp, hw⟩

theorem filterChain_gains (h : c.Below g g' 1) (input : Option Expr) :
    c.Gains (filterChain g input) (filterChain g' input) c.entry 1 := by
  unfold filterChain
  refine (h.plain (.singleFilter input) h.within (.inr Nat.one_pos) rfl trivial).bind fun e p hp hw => ?_
  exact (h.plain (.filterRest e) hw (.inl hp) rfl trivial).since hp

theorem filterRest_gains (h : c.Below g g' 0) (e : Expr) :
    c.Gains (filterRest g e) (filterRest g' e) c.entry 0 := by
  unfold filterRest
  refine .check (fun hk => .advance_of_mem h.within hk rfl fun hw => ?_) fun _ => .pure ⟨Nat.le_refl _, h.within⟩
  refine (h.plain (.singleFilter (some e)) hw (.inl (by omega)) rfl trivial).bind fun e p hp hw => ?_
  exact (h.plain (.filterRest e) hw (.inl (by omega)) rfl trivial).since (by omega)

theorem testArguments_gains {n pos : Nat} (h : c.Below g g' n) (hw : c.Within pos)
    (hp : c.entry < pos) : c.Gains (testArguments g) (testArguments g') pos 0 := by
  unfold testArguments
  refine .check (fun _ => (h.plain .arguments hw (.inl hp) rfl trivial).since (by omega)) fun _ => ?_
  refine .check (fun _ => ?_) fun _ => .pure ⟨Nat.le_refl _, hw⟩
  refine (h.plain (.expression true) hw (.inl hp) rfl trivial).bind fun e q hq hw => ?_
  exact .pure ⟨by omega, hw⟩

theorem test_gains (h : c.Below g g' 0) (subject : Expr) :
    c.Gains (test g subject) (test g' subject) c.entry 1 := by
  unfold test
  refine .expect h.within nofun fun _ hw => .checked fun negated hn => ?_
  extract_lets rest rest'
  have hrest (p : Nat) (hp : c.entry + 1 ≤ p) (hw : c.Within p) :
      c.Agrees (rest ()) (rest' ()) p fun _ p => c.entry + 1 ≤ p ∧ c.Within p := by
    refine .expect hw nofun fun _ hw => ?_
    refine (testArguments_gains h hw (by omega)).bind fun args q hq hw => .previousEnd fun stop => ?_
    exact .ite (fun _ => .pure ⟨by omega, hw⟩) fun _ => .pure ⟨by omega, hw⟩
  refine .ite (fun hb => ?_) fun _ => hrest _ (Nat.le_refl _) hw
  exact .advance_of_mem hw (hn.1 hb) rfl fun hw => hrest _ (by omega) hw

end Stencil.Grammar
