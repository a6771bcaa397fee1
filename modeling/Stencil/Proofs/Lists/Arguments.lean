/-
The arguments of a call. Whatever items stand between its parentheses, they are read if they are in the order in which
arguments are written, and each of them goes where its kind belongs; otherwise the opening parenthesis is reported
(`arguments_exact`).
-/
import Mathlib.Logic.Basic
import Stencil.Proofs.Context.Elsewhere
import Stencil.Proofs.Lists.Basic
import Stencil.Proofs.Writing.Recovery

namespace Stencil

open Stencil.Parser

/-! ## Arguments in their order -/

namespace Arguments

instance (acc : Arguments) (a : Argument) : Decidable (acc.Allows a) :=
  match acc, a with
  | .mk _ keywords spread keywordSpread, .positional _ =>
    inferInstanceAs (Decidable (keywords = [] ∧ spread = none ∧ keywordSpread = none))
  | .mk _ _ spread keywordSpread, .keyword _ | .mk _ _ spread keywordSpread, .spread _ =>
    inferInstanceAs (Decidable (spread = none ∧ keywordSpread = none))
  | .mk _ _ _ keywordSpread, .keywordSpread _ => inferInstanceAs (Decidable (keywordSpread = none))

/-- An argument that may follow others is written behind them. -/
theorem toList_add {acc : Arguments} {a : Argument} (h : acc.Allows a) : (acc.add a).toList = acc.toList ++ [a] := by
  obtain ⟨positional, keywords, spread, keywordSpread⟩ := acc
  cases a with
  | positional e =>
    obtain ⟨rfl, rfl, rfl⟩ := h
    simp [add, toList]
  | keyword k =>
    obtain ⟨rfl, rfl⟩ := h
    simp [add, toList]
  | spread e =>
    obtain ⟨rfl, rfl⟩ := h
    simp [add, toList]
  | keywordSpread e =>
    cases (show keywordSpread = none from h)
    simp [add, toList]

theorem toList_foldl_add {acc : Arguments} {items : List Argument} (h : acc.AllowsAll items) :
    (items.foldl add acc).toList = acc.toList ++ items := by
  induction items generalizing acc with
  | nil => exact (List.append_nil _).symm
  | cons a as ih => rw [List.foldl_cons, ih h.2, toList_add h.1, List.append_assoc, List.singleton_append]

/-- Items that may follow each other from the start are the arguments of a call in their order, and of no other one. -/
theorem toList_eq_iff {items : List Argument} {args : Arguments} :
    args.toList = items ↔ empty.AllowsAll items ∧ items.foldl add empty = args := by
  constructor
  · rintro rfl
    exact args.toList_in_order
  · rintro ⟨hall, rfl⟩
    exact toList_foldl_add hall

end Arguments

/-! ## Arguments in place -/

/-- The argument stands from one position up to another: the expression of which it consists is read there. -/
inductive Argument.Stands (g : Grammar) (s : Stream) (pos : Nat) : Argument → Nat → Prop
  | positional {e q} (h : g (.expression true) s pos = .ok e q) : Stands g s pos (.positional e) q
  | keyword {e q} (hk : (s.get pos).kind = .name) (ha : (s.get (pos + 1)).kind = .symbol .assign)
      (h : g (.expression true) s (pos + 2) = .ok e q) :
      Stands g s pos (.keyword (.mk (s.get pos).value e ⟨(s.get pos).span.start, e.span.finish⟩)) q
  | spread {e q} (hk : (s.get pos).kind = .symbol .star) (h : g (.expression true) s (pos + 1) = .ok e q) :
      Stands g s pos (.spread e) q
  | keywordSpread {e q} (hk : (s.get pos).kind = .symbol .doubleStar)
      (h : g (.expression true) s (pos + 1) = .ok e q) : Stands g s pos (.keywordSpread e) q

/-- Arguments in a wrong order are reported at the parenthesis that opened them. -/
def Stream.misordered (s : Stream) (opened : Location) : Failure :=
  .reported (.report .invalidArguments [] opened s.filename)

namespace Grammar

variable {find : Text → Option Extension} {s : Stream} {opened : Location} {acc : Arguments} {a : Argument}
variable {start pos q n : Nat}

theorem ensureOrder_eq {α : Type} {valid : Bool} (f : Unit → Parser α) :
    (ensureOrder opened valid >>= f) s pos =
      if valid = true then f () s pos else .fail (s.misordered opened) pos := by
  cases valid <;> rfl

theorem opensItem_of_stands (h : a.Stands (ofExtensions find) s pos q) : (s.get pos).kind.opensItem = true := by
  unfold TokenKind.opensItem
  cases h with
  | positional h => rw [ofExtensions_opens h]; rfl
  | keyword hk => rw [hk]; rfl
  | spread hk => rw [hk]; rfl
  | keywordSpread hk => rw [hk]; rfl

/-- An argument that may follow the others is added to them; any other one is refused before its expression is read. -/
theorem argument_eq (opened : Location) (acc : Arguments) (h : a.Stands (ofExtensions find) s pos q)
    (hq : (s.get q).kind ≠ .symbol .assign) :
    argument (ofExtensions find) opened acc s pos =
      if acc.Allows a then .ok (acc.add a) q else .fail (s.misordered opened) pos := by
  obtain ⟨positional, keywords, spread, keywordSpread⟩ := acc
  unfold argument
  cases h with
  | positional h =>
    have hopen {x : Symbol} (hx : (TokenKind.symbol x).opensExpr = false) : (s.get pos).kind ∉ [.symbol x] := by
      rw [List.mem_singleton]
      intro hk
      rw [← hk, ofExtensions_opens h] at hx
      cases hx
    refine (check_no (hopen rfl) _ _).trans ((check_no (hopen rfl) _ _).trans ?_)
    rw [ensureOrder_eq, current_bind, peek_bind, Stream.ahead_one, if_neg (ofExtensions_no_key h hq), ensureOrder_eq,
      bind_ok h, ← ite_and]
    exact if_congr (by simp [Arguments.Allows, and_comm]) rfl rfl
  | keyword hk ha h =>
    refine (check_no (by rw [hk]; decide) _ _).trans ((check_no (by rw [hk]; decide) _ _).trans ?_)
    rw [ensureOrder_eq, current_bind, peek_bind, Stream.ahead_one, if_pos (And.intro hk ha),
      skip_two_bind (by rw [hk]; decide) (by rw [ha]; decide), bind_ok h]
    exact if_congr (by simp [Arguments.Allows]) rfl rfl
  | spread hk h =>
    refine (check_yes (List.mem_singleton.2 hk) _ _).trans ?_
    rw [ensureOrder_eq, advance_bind (by rw [hk]; decide), bind_ok h]
    exact if_congr (by simp [Arguments.Allows]) rfl rfl
  | keywordSpread hk h =>
    refine (check_no (by rw [hk]; decide) _ _).trans ((check_yes (List.mem_singleton.2 hk) _ _).trans ?_)
    rw [ensureOrder_eq, advance_bind (by rw [hk]; decide), bind_ok h]
    exact if_congr (by simp [Arguments.Allows]) rfl rfl

theorem noneRead_add : noneRead (acc.add a) = false := @Arguments.noneRead_add acc (acc.add a) a rfl

theorem noneRead_foldl_add {items : List Argument} (h : noneRead acc = false) :
    noneRead (items.foldl Arguments.add acc) = false := by
  induction items generalizing acc with
  | nil => exact h
  | cons a as ih => exact ih noneRead_add

/-- At the closing parenthesis, before which one comma may stand behind an argument, the loop ends. -/
theorem argumentsRest_end {g : Grammar} {statements : Prop} (hg : g.Solves find s statements)
    (hcommas : s.Commas pos n) (hn : n ≤ if noneRead acc then 0 else 1)
    (hclose : (s.get (pos + n)).kind = .symbol .closeParen) :
    g (.argumentsRest opened acc) s pos = .ok acc (pos + n) := by
  rw [hg (.argumentsRest opened acc) pos nofun]
  cases n with
  | zero => exact check_yes (List.mem_singleton.2 hclose) _ _
  | succ n =>
    cases hnone : noneRead acc with
    | true =>
      rw [hnone] at hn
      exact absurd hn (Nat.not_succ_le_zero n)
    | false =>
      rw [hnone] at hn
      obtain rfl : n = 0 := Nat.le_zero.1 (Nat.le_of_succ_le_succ hn)
      have hcomma : (s.get pos).kind = .symbol .comma := hcommas 0 Nat.one_pos
      show argumentsRest g opened acc s pos = _
      unfold argumentsRest
      refine (check_no (by rw [hcomma]; decide) _ _).trans ?_
      simp only [hnone, Bool.not_false, if_true, Bool.true_and]
      refine (expect_bind hcomma nofun _).trans ?_
      exact check_yes (List.mem_singleton.2 hclose) _ _

/-- The arguments up to the closing parenthesis: all of them are added if each may follow those before it. -/
theorem argumentsRest_of_listed (opened : Location) (acc : Arguments) (hlast : s.last.kind = .eof)
    {items : List Argument}
    (h : s.Listed (Argument.Stands (ofExtensions find) s) (noneRead acc) items start q) (hcommas : s.Commas q n)
    (hn : n ≤ if noneRead (items.foldl Arguments.add acc) then 0 else 1)
    (hclose : (s.get (q + n)).kind = .symbol .closeParen) :
    (acc.AllowsAll items →
      ofExtensions find (.argumentsRest opened acc) s start = .ok (items.foldl Arguments.add acc) (q + n)) ∧
    (¬acc.AllowsAll items →
      ∃ p, ofExtensions find (.argumentsRest opened acc) s start = .fail (s.misordered opened) p) := by
  have hg := @ofExtensions_solves find s hlast
  generalize hfirst : noneRead acc = first at h
  induction h generalizing acc with
  | nil => exact ⟨fun _ => argumentsRest_end hg hcommas hn hclose, fun h => absurd trivial h⟩
  | @cons first start pos a m as stop hp ha has ih =>
    have hassign : (s.get m).kind ≠ .symbol .assign :=
      has.behind (P := (· ≠ .symbol .assign)) nofun
        (hcommas.behind (P := (· ≠ .symbol .assign)) nofun (by rw [hclose]; nofun))
    have hstep := hg.argumentsRest_eq opened (hfirst ▸ hp) (opensItem_of_stands ha)
    have hargument := argument_eq opened acc ha hassign
    by_cases hallows : acc.Allows a
    · rw [if_pos hallows] at hargument
      rw [hstep, bind_ok hargument]
      obtain ⟨hread, hrefused⟩ := ih (acc.add a) hcommas hn hclose noneRead_add
      exact ⟨fun hall => hread hall.2, fun hall => hrefused fun hrest => hall ⟨hallows, hrest⟩⟩
    · rw [if_neg hallows] at hargument
      refine ⟨fun hall => absurd hall.1 hallows, fun _ => ⟨pos, ?_⟩⟩
      rw [hstep]
      exact bind_eq_fail.2 (.inl hargument)

end Grammar

/-! ## The arguments of a call -/

/-- Items between parentheses, with commas between them and perhaps one behind the last of them, are read just if
they are the positional arguments, those by name, `*expr` and `**expr` of a call in this order; each item is then read
once and nothing else is. In any other order they are refused at the opening parenthesis. -/
theorem Environment.arguments_exact (env : Environment) {s : Stream} (hlast : s.last.kind = .eof) {pos q n : Nat}
    {items : List Argument} (hopen : (s.get pos).kind = .symbol .openParen)
    (hitems : s.Listed (Argument.Stands env.grammar s) true items (pos + 1) q) (hcommas : s.Commas q n)
    (hn : n ≤ if items = [] then 0 else 1) (hclose : (s.get (q + n)).kind = .symbol .closeParen) :
    (∀ args r, env.grammar .arguments s pos = .ok args r ↔ args.toList = items ∧ r = q + n + 1) ∧
      ((∀ args : Arguments, args.toList ≠ items) → ∃ p, env.grammar .arguments s pos =
        .fail (.reported (.report .invalidArguments [] (s.get pos).span.start s.filename)) p) := by
  have hstep : env.grammar .arguments s pos =
      (env.grammar (.argumentsRest (s.get pos).span.start .empty) >>= fun args => do
        let _ ← expectSymbol .closeParen
        return args) s (pos + 1) :=
    (Grammar.ofExtensions_solves hlast .arguments pos nofun).trans (expect_bind hopen nofun _)
  have hlen : n ≤ if Grammar.noneRead (items.foldl Arguments.add .empty) then 0 else 1 := by
    cases items with
    | nil => exact hn
    | cons a as =>
      refine Nat.le_trans hn ?_
      rw [if_neg (List.cons_ne_nil a as), List.foldl_cons, Grammar.noneRead_foldl_add Grammar.noneRead_add]
      exact Nat.le_refl 1
  obtain ⟨hread, hrefused⟩ := Grammar.argumentsRest_of_listed (s.get pos).span.start .empty hlast hitems
    hcommas hlen hclose
  by_cases hall : Arguments.empty.AllowsAll items
  · have hok : env.grammar .arguments s pos = .ok (items.foldl Arguments.add .empty) (q + n + 1) := by
      rw [hstep]
      refine (bind_ok (hread hall) _).trans ?_
      exact expect_bind hclose nofun _
    constructor
    · intro args r
      rw [hok, Reply.ok.injEq, Arguments.toList_eq_iff, and_iff_right hall, @eq_comm _ r]
    · exact fun hno => absurd (Arguments.toList_eq_iff.2 ⟨hall, rfl⟩) (hno _)
  · obtain ⟨p, hfail⟩ := hrefused hall
    have hfail : env.grammar .arguments s pos = .fail (s.misordered (s.get pos).span.start) p := by
      rw [hstep]
      exact bind_eq_fail.2 (.inl hfail)
    refine ⟨fun args r => iff_of_false ?_ ?_, fun _ => ⟨p, hfail⟩⟩
    · rw [hfail]
      nofun
    · exact fun h => hall (Arguments.toList_eq_iff.1 h.1).1

/-- A positional argument and one by name are read in this order, with a comma behind them, and are refused in the
other one. -/
theorem Environment.arguments_exact_mixed :
    let word (n : String) := Token.named (Text.ofString n)
    let sign (x : Symbol) := Token.of (.symbol x)
    let ordered := Stream.holding [sign .openParen, word "a", sign .comma, word "k", sign .assign, word "b",
      sign .comma, sign .closeParen]
    let disordered := Stream.holding [sign .openParen, word "k", sign .assign, word "b", sign .comma, word "a",
      sign .closeParen]
    (∃ a k, standard.grammar .arguments ordered 0 = .ok (.mk [a] [k] none none) 8) ∧
      ∃ p, standard.grammar .arguments disordered 0 =
        .fail (.reported (.report .invalidArguments [] (disordered.get 0).span.start disordered.filename)) p := by
  intro word sign ordered disordered
  constructor
  · obtain ⟨a, ha⟩ : ∃ e, standard.grammar (.expression true) ordered 1 = .ok e 2 :=
      Reply.exists_ok_of_meets (by decide +kernel)
    obtain ⟨b, hb⟩ : ∃ e, standard.grammar (.expression true) ordered 5 = .ok e 6 :=
      Reply.exists_ok_of_meets (by decide +kernel)
    have hexact := (@arguments_exact standard ordered (Stream.holding_holds _).last 0 6 1 _ rfl
      (.cons rfl (.positional ha) (.cons ⟨rfl, rfl⟩ (.keyword rfl rfl hb) .nil))
      (fun i hi => by rw [Nat.lt_one_iff.1 hi]; rfl) (Nat.le_refl 1) rfl).1
    exact ⟨a, _, (hexact _ _).2 ⟨rfl, rfl⟩⟩
  · obtain ⟨b, hb⟩ : ∃ e, standard.grammar (.expression true) disordered 3 = .ok e 4 :=
      Reply.exists_ok_of_meets (by decide +kernel)
    obtain ⟨a, ha⟩ : ∃ e, standard.grammar (.expression true) disordered 5 = .ok e 6 :=
      Reply.exists_ok_of_meets (by decide +kernel)
    refine (@arguments_exact standard disordered (Stream.holding_holds _).last 0 6 0 _ rfl
      (.cons rfl (.keyword rfl rfl hb) (.cons ⟨rfl, rfl⟩ (.positional ha) .nil)) Stream.commas_zero
      (Nat.zero_le _) rfl).2 fun args hargs => ?_
    have hall := (Arguments.toList_eq_iff.1 hargs).1
    exact absurd hall.2.1.1 nofun

end Stencil
