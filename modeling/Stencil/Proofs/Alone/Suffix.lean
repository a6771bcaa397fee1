/-
The rules for attributes and subscripts, calls, filters and tests agree on a twin of streams, if the rules
inside them do.
-/
import Stencil.Proofs.Alone.Expression

namespace Stencil.Grammar

open Twin

variable {m : Twin} {g : Grammar} {p : Nat}

/-! ## Suffixes -/

theorem suffixes_twin (h : m.Mirrors g) (hp : p ≤ m.count) (e : Expr) :
    m.Agrees False (suffixes g e) (suffixes g e) p fun _ q => p ≤ q := by
  unfold suffixes
  have again {r : Rule .expr} (hr : r.isExpression = true) (hmoves : ∀ q, r.Moves m p q → p ≤ q)
      (hnot : r.Late m p → False) :
      m.Agrees False (g r >>= fun e => g (.suffixes e)) (g r >>= fun e => g (.suffixes e)) p fun _ q => p ≤ q := by
    refine ((h r hp hr).mono hnot fun _ q _ hq => hq).bind fun e q hq hm => ?_
    exact (h (.suffixes e) hq rfl).mono id fun _ t _ ht => Nat.le_trans (hmoves q hm) ht
  refine .current hp (fun _ => ?_) fun _ t t' ht ht' => ?_
  · split
    · exact again rfl (fun _ => Nat.le_of_lt) id
    · exact again rfl (fun _ => Nat.le_of_lt) id
    · exact again rfl (fun _ => Nat.le_of_lt) id
    · exact again rfl (fun _ => id) id
    · exact again rfl (fun _ => Nat.le_of_lt) id
    · exact .pure hp (Nat.le_refl p)
  · rw [ht, ht']
    exact .pure hp (Nat.le_refl p)

/-! ## Subscripts -/

theorem dotIndex_twin (hp : p ≤ m.count) :
    m.Agrees False dotIndex dotIndex p fun _ q => p < q := by
  unfold dotIndex
  refine .current hp (fun hlt => ?_) fun _ t t' ht ht' => ?_
  · extract_lets after
    have hafter (hk : (m.alone.get p).kind ≠ .symbol .comma) (index : Expr) :
        m.Agrees False (after index) (after index) p fun _ q => p < q :=
      .advance hlt hk (.pure hlt (Nat.lt_succ_self p))
    split <;> rename_i hk
    · exact hafter (by rw [hk]; nofun) _
    · refine (integer_twin hp _).bind ?_
      rintro index _ - rfl
      exact hafter (by rw [hk]; nofun) index
    · exact .report
  · rw [ht, ht']
    exact .report

theorem bracketIndex_twin (h : m.Mirrors g) (hp : p ≤ m.count) (hpos : 0 < p) (opened : Token) :
    m.Agrees False (bracketIndex g opened) (bracketIndex g opened) p fun _ q => p < q := by
  unfold bracketIndex
  refine (h (.subscriptItems true) hp rfl).bind fun items q hq hm => ?_
  refine .previousEnd (by omega) hq fun stop => .expect hq rfl nofun fun hlt => ?_
  split <;> exact .pure hlt (by omega)

theorem subscript_twin (h : m.Mirrors g) (hp : p ≤ m.count) (object : Expr) :
    m.Agrees False (subscript g object) (subscript g object) p fun _ q => p < q := by
  have hfault (s : Stream) (i : Nat) (hdot : (s.get i).kind ≠ .symbol .dot)
      (hopen : (s.get i).kind ≠ .symbol .openBracket) : ∃ e q, subscript g object s i = .fail e q := by
    refine ⟨.fault (.subscriptStart (s.get i).kind), (if (s.get i).kind = .eof then i else i + 1), ?_⟩
    unfold subscript
    refine Parser.bind_eq_fail.2 (.inr ⟨s.get i, _, rfl, ?_⟩)
    generalize (if (s.get i).kind = .eof then i else i + 1) = j
    generalize (s.get i).kind = kind at hdot hopen ⊢
    split
    · exact absurd rfl hdot
    · exact absurd rfl hopen
    · rfl
  by_cases hstart : (m.alone.get p).kind = .symbol .dot ∨ (m.alone.get p).kind = .symbol .openBracket
  · have hlt : p < m.count := lt_of_kind (by rcases hstart with hk | hk <;> rw [hk] <;> nofun)
    unfold subscript
    refine .advance hlt (by rcases hstart with hk | hk <;> rw [hk] <;> nofun) ?_
    extract_lets after
    have hafter (index : Expr) (q : Nat) (hq : q ≤ m.count) (hm : p + 1 < q) :
        m.Agrees False (after index) (after index) q fun _ q => p < q :=
      .previousEnd (by omega) hq fun _ => .pure hq (by omega)
    split
    · exact (dotIndex_twin hlt).bind hafter
    · exact (bracketIndex_twin h hlt (Nat.succ_pos p) _).bind hafter
    · exact .fault
  · rw [not_or] at hstart
    refine .fails (hfault _ _ hstart.1 hstart.2) ?_
    rcases Nat.lt_or_eq_of_le hp with hlt | rfl
    · exact hfault _ _ (by rw [m.same p hlt]; exact hstart.1) (by rw [m.same p hlt]; exact hstart.2)
    · exact hfault _ _ (by rw [m.tagged_end]; nofun) (by rw [m.tagged_end]; nofun)

theorem subscriptItems_twin (h : m.Mirrors g) (hp : p ≤ m.count) (first : Bool) :
    m.Agrees False (subscriptItems g first) (subscriptItems g first) p fun _ q => p ≤ q := by
  unfold subscriptItems
  refine .check hp rfl (fun _ _ => .pure hp (Nat.le_refl p)) ?_
  extract_lets rest
  refine comma_twin hp fun q hq hm => (h .subscriptItem hq rfl).bind fun e r hr hmr => ?_
  refine (h (.subscriptItems false) hr rfl).bind fun es t ht hmt => ?_
  exact .pure ht (by omega)

theorem sliceStep_twin (h : m.Mirrors g) (hp : p ≤ m.count) :
    m.Agrees False (sliceStep g) (sliceStep g) p fun _ q => p ≤ q := by
  unfold sliceStep
  refine .check hp rfl (fun hk hlt => .advance_of_mem hk hlt rfl ?_) (.pure hp (Nat.le_refl p))
  refine .check hlt rfl (fun _ _ => .pure hlt (Nat.le_succ p)) ?_
  exact (h (.expression true) hlt rfl).bind fun e q hq hm => .pure hq (by omega)

theorem sliceRest_twin (h : m.Mirrors g) (hp : p ≤ m.count) (hpos : 0 < p) (begun : Location) (start : Option Expr) :
    m.Agrees False (sliceRest g begun start) (sliceRest g begun start) p fun _ q => p ≤ q := by
  unfold sliceRest
  refine .checked hp rfl fun b _ => ?_
  extract_lets rest
  have hrest (stop : Option Expr) (q : Nat) (hq : q ≤ m.count) (hm : p ≤ q) :
      m.Agrees False (rest stop) (rest stop) q fun _ q => p ≤ q := by
    refine (sliceStep_twin h hq).bind fun step r hr hmr => ?_
    exact .previousEnd (by omega) hr fun _ => .pure hr (by omega)
  refine .ite Iff.rfl (fun _ => hrest none p hp (Nat.le_refl p)) fun _ => ?_
  exact (h (.expression true) hp rfl).bind fun e q hq hm => hrest (some e) q hq (Nat.le_of_lt hm)

theorem subscriptItem_twin (h : m.Mirrors g) (hp : p ≤ m.count) :
    m.Agrees False (subscriptItem g) (subscriptItem g) p fun _ q => p < q := by
  unfold subscriptItem
  refine .current hp (fun hlt => .check hp rfl (fun hk hlt => .advance_of_mem hk hlt rfl ?_) ?_)
    fun heq t t' _ _ => .check hp rfl ?_ ?_
  · exact (sliceRest_twin h hlt (Nat.succ_pos p) _ _).mono id fun _ q _ hq => hq
  · refine (h (.expression true) hp rfl).bind fun e q hq hm => ?_
    refine .check hq rfl (fun hk hlt => .advance_of_mem hk hlt rfl ?_) (.pure hq hm)
    exact (sliceRest_twin h hlt (Nat.succ_pos q) _ _).mono id fun _ r _ hr => by omega
  · intro _ hlt
    omega
  · -- no expression begins at the end, so that where the item begins does not matter
    refine (h (.expression true) hp rfl).bind fun e q hq hm => ?_
    omega

/-! ## Arguments -/

theorem call_twin (h : m.Mirrors g) (hp : p ≤ m.count) (callee : Expr) :
    m.Agrees False (call g callee) (call g callee) p fun _ q => p < q := by
  unfold call
  refine (h .arguments hp rfl).bind fun args q hq hm => ?_
  exact .previousEnd (by omega) hq fun _ => .pure hq hm

theorem arguments_twin (h : m.Mirrors g) (hp : p ≤ m.count) :
    m.Agrees False (arguments g) (arguments g) p fun _ q => p < q := by
  unfold arguments
  refine .expect hp rfl nofun fun hlt => ?_
  refine (h (.argumentsRest _ .empty) hlt rfl).bind fun args q hq hm => ?_
  exact .expect hq rfl nofun fun hlt => .pure hlt (by omega)

theorem ensureOrder_twin (hp : p ≤ m.count) (opened : Location) (valid : Bool) :
    m.Agrees False (ensureOrder opened valid) (ensureOrder opened valid) p fun _ q => q = p := by
  unfold ensureOrder
  exact .ite Iff.rfl (fun _ => .pure hp rfl) fun _ => .report

theorem argument_twin (h : m.Mirrors g) (hp : p ≤ m.count) (opened : Location) (args : Arguments) :
    m.Agrees False (argument g opened args) (argument g opened args) p fun _ q => p < q := by
  obtain ⟨positional, keywords, spread, keywordSpread⟩ := args
  have ensured {valid : Bool} {x x' : Parser Arguments} (k : m.Agrees False x x' p fun _ q => p < q) :
      m.Agrees False (ensureOrder opened valid >>= fun _ => x) (ensureOrder opened valid >>= fun _ => x') p
        fun _ q => p < q := by
    refine (ensureOrder_twin hp opened valid).bind ?_
    rintro _ _ - rfl
    exact k
  -- a value behind what marks the argument, if anything does
  have value {q : Nat} {f : Expr → Parser Arguments} (hq : q ≤ m.count) (hm : p ≤ q)
      (k : ∀ e r, r ≤ m.count → p < r → m.Agrees False (f e) (f e) r fun _ q => p < q) :
      m.Agrees False (g (.expression true) >>= f) (g (.expression true) >>= f) q fun _ q => p < q :=
    (h (.expression true) hq rfl).bind fun e r hr hmr => k e r hr (Nat.lt_of_le_of_lt hm hmr)
  unfold argument
  refine .check hp rfl (fun hk hlt => ensured (.advance_of_mem hk hlt rfl ?_)) ?_
  · exact value hlt (Nat.le_succ p) fun e r hr hm => .pure hr hm
  refine .check hp rfl (fun hk hlt => ensured (.advance_of_mem hk hlt rfl ?_)) ?_
  · exact value hlt (Nat.le_succ p) fun e r hr hm => .pure hr hm
  refine ensured (.current hp (fun hlt => ?_) fun _ t t' ht ht' => ?_)
  · refine pair_twin rfl nofun nofun (fun _ q hq hm => ?_) ?_
    · exact value hq (Nat.le_of_lt hm) fun e r hr hm => .pure hr hm
    · exact ensured (value hp (Nat.le_refl p) fun e r hr hm => .pure hr hm)
  · rw [ht, ht']
    refine .peek fun next hnext => .ite (by simp) (fun hn => absurd hn.1 nofun) fun _ => ?_
    exact ensured (value hp (Nat.le_refl p) fun e r hr hm => .pure hr hm)

theorem argumentsRest_twin (h : m.Mirrors g) (hp : p ≤ m.count) (opened : Location) (args : Arguments) :
    m.Agrees False (argumentsRest g opened args) (argumentsRest g opened args) p fun _ q => p ≤ q := by
  unfold argumentsRest
  refine .check hp rfl (fun _ _ => .pure hp (Nat.le_refl p)) ?_
  extract_lets rest
  refine comma_twin hp fun q hq hm => .checked hq rfl fun b hb => .ite Iff.rfl (fun hclosed => ?_) fun _ => ?_
  · have hlt := (hb (Bool.and_eq_true_iff.1 hclosed).2).2
    exact .pure hq (by omega)
  · refine (argument_twin h hq opened args).bind fun args r hr hmr => ?_
    exact (h (.argumentsRest opened args) hr rfl).mono id fun _ t _ ht => by omega

/-! ## Filters and tests -/

theorem filter_twin (h : m.Mirrors g) (hp : p ≤ m.count) (input : Expr) :
    m.Agrees False (filter g input) (filter g input) p fun _ q => p ≤ q := by
  unfold filter
  refine .check hp rfl (fun hk hlt => .advance_of_mem hk hlt rfl ?_) (.pure hp (Nat.le_refl p))
  exact (h (.filterChain (some input)) hlt rfl).mono id fun _ q _ hq => by omega

theorem optionalArguments_twin (h : m.Mirrors g) (hp : p ≤ m.count) :
    m.Agrees False (optionalArguments g) (optionalArguments g) p fun _ q => p ≤ q := by
  unfold optionalArguments
  refine .check hp rfl (fun _ _ => ?_) (.pure hp (Nat.le_refl p))
  exact (h .arguments hp rfl).mono id fun _ q _ hq => Nat.le_of_lt hq

theorem singleFilter_twin (h : m.Mirrors g) (hp : p ≤ m.count) (input : Option Expr) :
    m.Agrees False (singleFilter g input) (singleFilter g input) p fun _ q => p < q := by
  unfold singleFilter
  refine .expect hp rfl nofun fun hlt => (optionalArguments_twin h hlt).bind fun args q hq hm => ?_
  exact .previousEnd (by omega) hq fun _ => .pure hq (by omega)

theorem filterChain_twin (h : m.Mirrors g) (hp : p ≤ m.count) (input : Option Expr) :
    m.Agrees False (filterChain g input) (filterChain g input) p fun _ q => p < q := by
  unfold filterChain
  refine (h (.singleFilter input) hp rfl).bind fun e q hq hm => ?_
  exact (h (.filterRest e) hq rfl).mono id fun _ r _ hr => Nat.lt_of_lt_of_le hm hr

theorem filterRest_twin (h : m.Mirrors g) (hp : p ≤ m.count) (e : Expr) :
    m.Agrees False (filterRest g e) (filterRest g e) p fun _ q => p ≤ q := by
  unfold filterRest
  refine .check hp rfl (fun hk hlt => .advance_of_mem hk hlt rfl ?_) (.pure hp (Nat.le_refl p))
  refine (h (.singleFilter (some e)) hlt rfl).bind fun e q hq hm => ?_
  exact (h (.filterRest e) hq rfl).mono id fun _ r _ hr => by omega

theorem testArguments_twin (h : m.Mirrors g) (hp : p ≤ m.count) :
    m.Agrees False (testArguments g) (testArguments g) p fun _ q => p ≤ q := by
  unfold testArguments
  refine .check hp rfl (fun _ _ => (h .arguments hp rfl).mono id fun _ q _ hq => Nat.le_of_lt hq) ?_
  refine .check hp rfl (fun _ _ => ?_) (.pure hp (Nat.le_refl p))
  exact (h (.expression true) hp rfl).bind fun e q hq hm => .pure hq (Nat.le_of_lt hm)

theorem test_twin (h : m.Mirrors g) (hp : p ≤ m.count) (subject : Expr) :
    m.Agrees False (test g subject) (test g subject) p fun _ q => p < q := by
  unfold test
  refine .expect hp rfl nofun fun hlt => .checked hlt rfl fun negated hn => ?_
  extract_lets rest
  have hrest (q : Nat) (hq : q ≤ m.count) (hm : p < q) :
      m.Agrees False (rest ()) (rest ()) q fun _ q => p < q := by
    refine .expect hq rfl nofun fun hlt => (testArguments_twin h hlt).bind fun args r hr hmr => ?_
    refine .previousEnd (by omega) hr fun stop => ?_
    exact .ite Iff.rfl (fun _ => .pure hr (by omega)) fun _ => .pure hr (by omega)
  refine .ite Iff.rfl (fun hb => .advance_of_mem (hn hb).1 (hn hb).2 rfl ?_) fun _ => hrest _ hlt (Nat.lt_succ_self p)
  exact hrest _ (hn hb).2 (by omega)

end Stencil.Grammar
