/-
The subscripts between brackets. They are read just if they are expressions and slices, whose parts may be absent, with
commas between them (`subscripts_exact`). There may be none at all: empty brackets are read too (`subscripts_absent`).
-/
import Stencil.Proofs.Context.Elsewhere
import Stencil.Proofs.Lists.Basic
import Stencil.Proofs.Writing.Parts

namespace Stencil

open Stencil.Parser

/-! ## Subscripts in place -/

/-- An expression stands from one position up to another, or none does. -/
inductive Expr.StandsIf (g : Grammar) (s : Stream) (pos : Nat) : Option Expr → Nat → Prop
  | absent : StandsIf g s pos none pos
  | present {e q} (h : g (.expression true) s pos = .ok e q) : StandsIf g s pos (some e) q

/-- The subscript stands from one position up to another: an expression, or a slice of one colon or two, around which
its parts may be absent. -/
inductive Expr.Subscribes (g : Grammar) (s : Stream) (pos : Nat) : Expr → Nat → Prop
  | expression {e q} (h : g (.expression true) s pos = .ok e q) : Subscribes g s pos e q
  | slice {start stop p q} (hs : StandsIf g s pos start p) (hc : (s.get p).kind = .symbol .colon)
      (ht : StandsIf g s (p + 1) stop q) :
      Subscribes g s pos (.slice start stop none ⟨(s.get pos).span.start, s.endBefore q⟩) q
  | stepped {start stop step p q r} (hs : StandsIf g s pos start p) (hc : (s.get p).kind = .symbol .colon)
      (ht : StandsIf g s (p + 1) stop q) (hc' : (s.get q).kind = .symbol .colon) (hp : StandsIf g s (q + 1) step r) :
      Subscribes g s pos (.slice start stop step ⟨(s.get pos).span.start, s.endBefore r⟩) r

namespace Grammar

variable {find : Text → Option Extension} {s : Stream} {e : Expr} {pos start q : Nat}

theorem not_mem_of_reads {p : Nat} (h : ofExtensions find (.expression true) s pos = .ok e p) {ks : List TokenKind}
    (hks : ks.all (fun k => !k.opensExpr) = true) : (s.get pos).kind ∉ ks := by
  intro hmem
  have hclosed := List.all_eq_true.1 hks _ hmem
  rw [ofExtensions_opens h] at hclosed
  cases hclosed

/-- Behind a subscript stands another one, or the bracket. -/
def subscriptEnds : List TokenKind := [.symbol .closeBracket, .symbol .comma]

theorem not_colon_of_mem {k : TokenKind} (h : k ∈ subscriptEnds) : k ≠ .symbol .colon := by
  rintro rfl
  exact absurd h (by decide)

/-- The step of a slice is read if it stands there, behind the colon that leads to it. -/
theorem sliceStep_eq_ok (hend : (s.get q).kind ∈ subscriptEnds) {step : Option Expr} :
    sliceStep (ofExtensions find) s pos = .ok step q ↔ step = none ∧ q = pos ∨
      (s.get pos).kind = .symbol .colon ∧ Expr.StandsIf (ofExtensions find) s (pos + 1) step q := by
  unfold sliceStep
  rw [checkSymbol_eq_ok]
  constructor
  · rintro (⟨hcolon, h⟩ | ⟨-, h⟩)
    · rw [advance_bind_of hcolon nofun] at h
      obtain ⟨-, h⟩ | ⟨-, h⟩ := check_eq_ok.1 h
      · obtain ⟨rfl, rfl⟩ := pure_eq_ok.1 h
        exact .inr ⟨hcolon, .absent⟩
      · obtain ⟨e, p, he, h⟩ := bind_eq_ok.1 h
        obtain ⟨rfl, rfl⟩ := pure_eq_ok.1 h
        exact .inr ⟨hcolon, .present he⟩
    · obtain ⟨rfl, rfl⟩ := pure_eq_ok.1 h
      exact .inl ⟨rfl, rfl⟩
  · rintro (⟨rfl, rfl⟩ | ⟨hcolon, h⟩)
    · exact .inr ⟨not_colon_of_mem hend, rfl⟩
    · refine .inl ⟨hcolon, ?_⟩
      rw [advance_bind_of hcolon nofun, check_eq_ok]
      cases h with
      | absent => exact .inl ⟨hend, rfl⟩
      | present he => exact .inr ⟨not_mem_of_reads he rfl, bind_ok he _⟩

/-- Behind the first colon of a slice its second part is read if it stands there, and then its step. -/
theorem sliceRest_eq_ok (hend : (s.get q).kind ∈ subscriptEnds) {begun : Location} {first : Option Expr} :
    sliceRest (ofExtensions find) begun first s pos = .ok e q ↔
      ∃ stop m step, Expr.StandsIf (ofExtensions find) s pos stop m ∧
        (step = none ∧ q = m ∨
          (s.get m).kind = .symbol .colon ∧ Expr.StandsIf (ofExtensions find) s (m + 1) step q) ∧
        e = .slice first stop step ⟨begun, s.endBefore q⟩ := by
  -- the step, and the slice that it completes
  have last (stop : Option Expr) (m : Nat) :
      (sliceStep (ofExtensions find) >>= fun step => previousEnd >>= fun finish =>
        (pure (.slice first stop step ⟨begun, finish⟩) : Parser Expr)) s m = .ok e q ↔
        ∃ step, (step = none ∧ q = m ∨
          (s.get m).kind = .symbol .colon ∧ Expr.StandsIf (ofExtensions find) s (m + 1) step q) ∧
            e = .slice first stop step ⟨begun, s.endBefore q⟩ := by
    rw [bind_eq_ok]
    constructor
    · rintro ⟨step, p, hstep, h⟩
      rw [previousEnd_bind] at h
      obtain ⟨rfl, rfl⟩ := pure_eq_ok.1 h
      exact ⟨step, (sliceStep_eq_ok hend).1 hstep, rfl⟩
    · rintro ⟨step, hstep, rfl⟩
      exact ⟨step, q, (sliceStep_eq_ok hend).2 hstep, rfl⟩
  unfold sliceRest
  constructor
  · intro h
    obtain ⟨-, h⟩ | ⟨-, h⟩ := check_eq_ok.1 h
    · obtain ⟨step, hstep, he⟩ := (last none pos).1 h
      exact ⟨none, pos, step, .absent, hstep, he⟩
    · obtain ⟨stop, m, hstop, h⟩ := bind_eq_ok.1 h
      obtain ⟨step, hstep, he⟩ := (last (some stop) m).1 h
      exact ⟨some stop, m, step, .present hstop, hstep, he⟩
  · rintro ⟨stop, m, step, hstop, hstep, he⟩
    have hread := (last stop m).2 ⟨step, hstep, he⟩
    cases hstop with
    | absent =>
      refine check_eq_ok.2 (.inl ⟨?_, hread⟩)
      obtain ⟨-, rfl⟩ | ⟨hcolon, -⟩ := hstep
      · exact .tail _ hend
      · rw [hcolon]
        exact .head _
    | present h => exact check_eq_ok.2 (.inr ⟨not_mem_of_reads h rfl, bind_eq_ok.2 ⟨_, _, h, hread⟩⟩)

/-- A slice begins with its first part if that stands there. -/
theorem subscriptItem_eq_ok_of_colon {first : Option Expr} {p : Nat}
    (h : Expr.StandsIf (ofExtensions find) s pos first p) (hc : (s.get p).kind = .symbol .colon) :
    subscriptItem (ofExtensions find) s pos =
      sliceRest (ofExtensions find) (s.get pos).span.start first s (p + 1) := by
  unfold subscriptItem
  rw [current_bind]
  cases h with
  | absent =>
    refine (check_yes (List.mem_singleton.2 hc) _ _).trans ?_
    exact advance_bind_of hc nofun
  | present h =>
    refine (check_no (not_mem_of_reads h rfl) _ _).trans ((bind_ok h _).trans ?_)
    refine (check_yes (List.mem_singleton.2 hc) _ _).trans ?_
    exact advance_bind_of hc nofun

/-- Before what may stand behind it, what is read as a subscript is just what stands there as one. -/
theorem subscriptItem_eq_ok (hend : (s.get q).kind ∈ subscriptEnds) :
    subscriptItem (ofExtensions find) s pos = .ok e q ↔ Expr.Subscribes (ofExtensions find) s pos e q := by
  -- a slice whose first part, if there is one, has been read
  have slice {first : Option Expr} {p : Nat} (h : Expr.StandsIf (ofExtensions find) s pos first p)
      (hc : (s.get p).kind = .symbol .colon)
      (hread : sliceRest (ofExtensions find) (s.get pos).span.start first s (p + 1) = .ok e q) :
      Expr.Subscribes (ofExtensions find) s pos e q := by
    obtain ⟨stop, m, step, hstop, ⟨rfl, rfl⟩ | ⟨hcolon, hstep⟩, rfl⟩ := (sliceRest_eq_ok hend).1 hread
    · exact .slice h hc hstop
    · exact .stepped h hc hstop hcolon hstep
  constructor
  · intro h
    unfold subscriptItem at h
    rw [current_bind] at h
    obtain ⟨hcolon, h⟩ | ⟨-, h⟩ := checkSymbol_eq_ok.1 h
    · rw [advance_bind_of hcolon nofun] at h
      exact slice .absent hcolon h
    · obtain ⟨e', p, he, h⟩ := bind_eq_ok.1 h
      obtain ⟨hcolon, h⟩ | ⟨-, h⟩ := checkSymbol_eq_ok.1 h
      · rw [advance_bind_of hcolon nofun] at h
        exact slice (.present he) hcolon h
      · obtain ⟨rfl, rfl⟩ := pure_eq_ok.1 h
        exact .expression he
  · intro h
    cases h with
    | expression h =>
      unfold subscriptItem
      rw [current_bind]
      refine (check_no (not_mem_of_reads h rfl) _ _).trans ((bind_ok h _).trans ?_)
      exact check_no (fun hk => not_colon_of_mem hend (List.mem_singleton.1 hk)) _ _
    | slice hs hc ht =>
      rw [subscriptItem_eq_ok_of_colon hs hc]
      exact (sliceRest_eq_ok hend).2 ⟨_, _, _, ht, .inl ⟨rfl, rfl⟩, rfl⟩
    | stepped hs hc ht hc' hp =>
      rw [subscriptItem_eq_ok_of_colon hs hc]
      exact (sliceRest_eq_ok hend).2 ⟨_, _, _, ht, .inr ⟨hc', hp⟩, rfl⟩

theorem opensItem_of_subscribes (h : Expr.Subscribes (ofExtensions find) s pos e q) :
    (s.get pos).kind.opensItem = true := by
  unfold TokenKind.opensItem
  cases h with
  | expression h => rw [ofExtensions_opens h]; rfl
  | slice hs hc | stepped hs hc =>
    cases hs with
    | absent => rw [hc]; rfl
    | present h => rw [ofExtensions_opens h]; rfl

/-- What the loop reads up to the closing bracket are just the lists of subscripts that stand there. -/
theorem subscriptItems_eq_ok (hlast : s.last.kind = .eof) {first : Bool} {es : List Expr} :
    ofExtensions find (.subscriptItems first) s start = .ok es q ↔
      s.Listed (Expr.Subscribes (ofExtensions find) s) first es start q ∧ (s.get q).kind = .symbol .closeBracket := by
  have hg := @ofExtensions_solves find s hlast
  constructor
  · intro h
    induction es generalizing first start with
    | nil =>
      rw [hg (.subscriptItems first) start nofun] at h
      obtain ⟨hclose, h⟩ | ⟨-, h⟩ := checkSymbol_eq_ok.1 h
      · obtain ⟨-, rfl⟩ := pure_eq_ok.1 h
        exact ⟨.nil, hclose⟩
      · obtain ⟨p, -, h⟩ := enters_of_ok h
        obtain ⟨e, m, -, h⟩ := bind_eq_ok.1 h
        obtain ⟨es, q', -, h⟩ := bind_eq_ok.1 h
        exact absurd (pure_eq_ok.1 h).1 nofun
    | cons e es ih =>
      rw [hg (.subscriptItems first) start nofun] at h
      obtain ⟨-, h⟩ | ⟨-, h⟩ := checkSymbol_eq_ok.1 h
      · exact absurd (pure_eq_ok.1 h).1 nofun
      · obtain ⟨p, hp, h⟩ := enters_of_ok h
        obtain ⟨e', m, hitem, h⟩ := bind_eq_ok.1 h
        obtain ⟨es', q', hrest, h⟩ := bind_eq_ok.1 h
        obtain ⟨heq, rfl⟩ := pure_eq_ok.1 h
        obtain ⟨rfl, rfl⟩ := List.cons.inj heq
        obtain ⟨hes, hclose⟩ := ih hrest
        have hend : (s.get m).kind ∈ subscriptEnds :=
          hes.behind (P := (· ∈ subscriptEnds)) (by decide) (by rw [hclose]; decide)
        rw [hg .subscriptItem p nofun] at hitem
        exact ⟨.cons hp ((subscriptItem_eq_ok hend).1 hitem) hes, hclose⟩
  · rintro ⟨h, hclose⟩
    induction h with
    | @nil first pos =>
      rw [hg (.subscriptItems first) pos nofun]
      exact check_yes (List.mem_singleton.2 hclose) _ _
    | @cons first start pos e m es stop hp he hes ih =>
      have hend : (s.get m).kind ∈ subscriptEnds :=
        hes.behind (P := (· ∈ subscriptEnds)) (by decide) (by rw [hclose]; decide)
      have hitem := (hg .subscriptItem pos nofun).trans ((subscriptItem_eq_ok hend).2 he)
      rw [hg.subscriptItems_eq hp (opensItem_of_subscribes he), bind_ok hitem, bind_ok (ih hclose)]
      rfl

end Grammar

/-! ## Brackets behind an object -/

/-- Behind an object, brackets are read just if expressions and slices stand between them, with commas between these
and none behind them. One of them is the index itself, several make a tuple that is loaded, in their order; a slice
has just the parts that stand there. Without any the index is the empty tuple. -/
theorem Environment.subscripts_exact (env : Environment) {s : Stream} (hlast : s.last.kind = .eof) {pos : Nat}
    (hopen : (s.get pos).kind = .symbol .openBracket) (object e : Expr) (r : Nat) :
    env.grammar (.subscript object) s pos = .ok e r ↔
      ∃ items q, s.Listed (Expr.Subscribes env.grammar s) true items (pos + 1) q ∧
        (s.get q).kind = .symbol .closeBracket ∧ r = q + 1 ∧
        e = .subscript object (bracketed (s.get pos) (s.endBefore q) items) .load
          ⟨object.span.start, s.endBefore (q + 1)⟩ := by
  have hstep : env.grammar (.subscript object) s pos =
      (Grammar.bracketIndex env.grammar (s.get pos) >>= fun index => previousEnd >>= fun stop =>
        (pure (.subscript object index .load ⟨object.span.start, stop⟩) : Parser Expr)) s (pos + 1) := by
    refine (Grammar.ofExtensions_solves hlast (.subscript object) pos nofun).trans ?_
    show Grammar.subscript env.grammar object s pos = _
    unfold Grammar.subscript
    rw [advance_bind_of hopen nofun, hopen]
  rw [hstep, bind_eq_ok]
  constructor
  · rintro ⟨index, p, hindex, h⟩
    rw [previousEnd_bind] at h
    obtain ⟨rfl, rfl⟩ := pure_eq_ok.1 h
    obtain ⟨es, q, hitems, hclose, rfl, rfl⟩ := Grammar.bracketIndex_eq_ok.1 hindex
    exact ⟨es, q, ((Grammar.subscriptItems_eq_ok hlast).1 hitems).1, hclose, rfl, rfl⟩
  · rintro ⟨items, q, hitems, hclose, rfl, rfl⟩
    refine ⟨_, q + 1, Grammar.bracketIndex_eq_ok.2
      ⟨items, q, (Grammar.subscriptItems_eq_ok hlast).2 ⟨hitems, hclose⟩, hclose, rfl, rfl⟩, rfl⟩

/-- A slice that lacks its end, and a name behind it. -/
theorem Environment.subscripts_exact_slice :
    let word (n : String) := Token.named (Text.ofString n)
    let sign (x : Symbol) := Token.of (.symbol x)
    let s := Stream.holding [word "a", sign .openBracket, word "b", sign .colon, sign .comma, word "c",
      sign .closeBracket]
    ∀ object, ∃ b c span span' span'', standard.grammar (.subscript object) s 1 =
      .ok (.subscript object (.tuple [.slice (some b) none none span, c] .load span') .load span'') 7 := by
  intro word sign s object
  obtain ⟨b, hb⟩ : ∃ e, standard.grammar (.expression true) s 2 = .ok e 3 :=
    Reply.exists_ok_of_meets (by decide +kernel)
  obtain ⟨c, hc⟩ : ∃ e, standard.grammar (.expression true) s 5 = .ok e 6 :=
    Reply.exists_ok_of_meets (by decide +kernel)
  have hitems : s.Listed (Expr.Subscribes standard.grammar s) true _ 2 6 :=
    .cons rfl (.slice (.present hb) rfl .absent) (.cons ⟨rfl, rfl⟩ (.expression hc) .nil)
  exact ⟨b, c, _, _, _, (standard.subscripts_exact (Stream.holding_holds _).last rfl object _ 7).2
    ⟨_, 6, hitems, rfl, rfl, rfl⟩⟩

/-- Brackets without a subscript are no mistake. -/
theorem Environment.subscripts_absent :
    ∃ e, standard.grammar.wholeExpression
      (Stream.holding [Token.named (Text.ofString "a"), .of (.symbol .openBracket), .of (.symbol .closeBracket)]) 0 =
        .ok e 3 := Reply.exists_ok_of_meets (by decide +kernel)

end Stencil
