/-
How the span of an expression covers the tokens that it is read from. It reaches from the first of them to the last one,
but for parentheses: those that group an expression are no part of it (`Grammar.Groups`), and an expression that begins
or ends with another one begins or ends where that one does, so it leaves out the parentheses of a group there
(`Expr.Spanned`). A tuple covers its tokens; what begins with a negated test begins at the word `is` of that
(`Expr.BeginsNegated`).
-/
import Stencil.Proofs.Span.Edge

namespace Stencil

/-! ## Groups -/

namespace Expr

def isTuple : Expr → Bool
  | .tuple .. => true
  | _ => false

/-- The expression is one token, or stands between brackets of its own. -/
def isEnclosed : Expr → Bool
  | .const .. | .name .. | .tuple .. | .list .. | .dict .. => true
  | _ => false

/-- The expression that another one begins with. -/
def leading? : Expr → Option Expr
  | .cond _ e _ _ | .binary _ e _ _ | .compare e _ _ | .subscript e _ _ _ | .call e _ _ | .test e _ _ _ => some e
  | .filter input _ _ _ => input
  | _ => none

/-- The expression that another one ends with. A comparison ends with its last token, not with an operand. -/
def trailing? : Expr → Option Expr
  | .cond _ _ e _ | .binary _ _ e _ | .unary _ e _ => some e
  | _ => none

section

variable {e first : Expr}

theorem leading?_of_isEnclosed (h : e.isEnclosed = true) : e.leading? = none := by
  cases e <;> first | rfl | cases h

theorem trailing?_of_isEnclosed (h : e.isEnclosed = true) : e.trailing? = none := by
  cases e <;> first | rfl | cases h

theorem isTuple_of_leading (h : e.leading? = some first) : e.isTuple = false := by
  cases e <;> first | rfl | cases h

end

end Expr

/-- The kinds of tokens that an operand may end with; a parenthesis behind one of them encloses arguments. -/
def operandEnds : List TokenKind :=
  [.name, .string, .integer, .float, .symbol .closeParen, .symbol .closeBracket, .symbol .closeBrace]

/-- No operand ends before the position. -/
def Stream.Fresh (s : Stream) (pos : Nat) : Prop := ∀ i, pos = i + 1 → (s.get i).kind ∉ operandEnds

namespace Stream

variable {s : Stream} {pos : Nat}

theorem endBefore_of_pos (h : 0 < pos) : s.endBefore pos = (s.get (pos - 1)).span.finish := by
  have hnumber : 2 * pos - 1 = 2 * (pos - 1) + 1 := by omega
  rw [endBefore_eq h, hnumber, edge_finish]

/-- Behind a token that ends no operand. -/
theorem Fresh.succ {k : TokenKind} (h : (s.get pos).kind = k) (hk : k ∉ operandEnds) : s.Fresh (pos + 1) := by
  rintro i hi
  obtain rfl := Nat.succ.inj hi
  rwa [h]

end Stream

/-- The tokens are parentheses around an expression, of which the tree has no trace: they enclose no arguments, and the
expression between them is no tuple. -/
structure Grammar.Groups (g : Grammar) (s : Stream) (i j : Nat) : Prop where
  opens : (s.get i).kind = .symbol .openParen
  closes : (s.get j).kind = .symbol .closeParen
  fresh : s.Fresh i
  inner : ∃ e, g (.tuple (.expression true)) s (i + 1) = .ok e j ∧ e.isTuple = false

/-! ## Spans -/

/-- The place begins a stretch of tokens: those before it open groups. -/
def Grammar.Leads (g : Grammar) (s : Stream) (pos q : Nat) (l : Location) : Prop :=
  ∃ x, pos ≤ x ∧ x < q ∧ l = (s.get x).span.start ∧ ∀ i, pos ≤ i → i < x → ∃ j, g.Groups s i j

/-- The place ends a stretch of tokens: those behind it close groups. -/
def Grammar.Trails (g : Grammar) (s : Stream) (pos q : Nat) (l : Location) : Prop :=
  ∃ y, pos ≤ y ∧ y < q ∧ l = (s.get y).span.finish ∧ ∀ j, y < j → j < q → ∃ i, pos ≤ i ∧ g.Groups s i j

/-- The expression begins with a negated test, and at the word `is` of that at the position. -/
inductive Expr.BeginsNegated (s : Stream) (i : Nat) : Expr → Prop
  | test (subject : Expr) (name : Text) (args : Arguments) (inner : Span) (stop : Location)
      (hi : (s.get i).kind = .keyword .isOp) (hn : (s.get (i + 1)).kind = .keyword .notOp) :
      BeginsNegated s i (.unary .not (.test subject name args inner) ⟨(s.get i).span.start, stop⟩)
  | leading {e first : Expr} (h : e.leading? = some first) (hspan : e.span.start = first.span.start)
      (hfirst : BeginsNegated s i first) : BeginsNegated s i e

/-- The span of an expression that is read from one position up to another. -/
structure Expr.Spanned (g : Grammar) (s : Stream) (pos q : Nat) (e : Expr) : Prop where
  start : g.Leads s pos q e.span.start ∨ ∃ i, pos < i ∧ i < q ∧ e.BeginsNegated s i
  finish : g.Trails s pos q e.span.finish
  /-- What begins with another expression begins where that one does. -/
  leads : ∀ first, e.leading? = some first → e.span.start = first.span.start
  /-- What ends with another expression ends where that one does. -/
  trails : ∀ last, e.trailing? = some last → e.span.finish = last.span.finish
  /-- Any other expression begins with the first token, unless all tokens are one group. -/
  begins : e.leading? = none →
    e.span.start = (s.get pos).span.start ∨ g.Groups s pos (q - 1) ∨ ∃ i, pos < i ∧ i < q ∧ e.BeginsNegated s i
  /-- Any other expression ends with the last token, unless all tokens are one group. -/
  ends : e.trailing? = none → e.span.finish = (s.get (q - 1)).span.finish ∨ g.Groups s pos (q - 1)
  tuple : e.isTuple = true → e.span = ⟨(s.get pos).span.start, (s.get (q - 1)).span.finish⟩

variable {g : Grammar} {s : Stream} {pos m p q i : Nat} {l : Location} {e left right : Expr}

namespace Grammar

theorem Leads.first (hq : pos < q) : g.Leads s pos q (s.get pos).span.start :=
  ⟨pos, Nat.le_refl pos, hq, rfl, fun _ hi hlt => absurd hi (Nat.not_le_of_lt hlt)⟩

theorem Leads.mono (h : g.Leads s pos m l) (hm : m ≤ q) : g.Leads s pos q l := by
  obtain ⟨x, hpos, hx, hl, hbefore⟩ := h
  exact ⟨x, hpos, by omega, hl, hbefore⟩

theorem Trails.last (hq : pos < q) : g.Trails s pos q (s.get (q - 1)).span.finish :=
  ⟨q - 1, by omega, by omega, rfl, fun j hj hlt => by omega⟩

theorem Trails.lt (h : g.Trails s pos q l) : pos < q := by
  obtain ⟨y, hpos, hq, -⟩ := h
  omega

theorem Trails.mono (h : g.Trails s p q l) (hp : pos ≤ p) : g.Trails s pos q l := by
  obtain ⟨y, hy, hq, hl, hbehind⟩ := h
  refine ⟨y, by omega, hq, hl, fun j hj hlt => ?_⟩
  obtain ⟨i, hi, hgroup⟩ := hbehind j hj hlt
  exact ⟨i, by omega, hgroup⟩

/-- Parentheses before what begins a stretch. -/
theorem Leads.group (h : g.Leads s (pos + 1) p l) (hgroup : g.Groups s pos p) : g.Leads s pos (p + 1) l := by
  obtain ⟨x, hpos, hx, hl, hbefore⟩ := h
  refine ⟨x, by omega, by omega, hl, fun i hi hlt => ?_⟩
  rcases Nat.eq_or_lt_of_le hi with rfl | hi
  · exact ⟨p, hgroup⟩
  · exact hbefore i hi hlt

/-- Parentheses behind what ends a stretch. -/
theorem Trails.group (h : g.Trails s (pos + 1) p l) (hgroup : g.Groups s pos p) : g.Trails s pos (p + 1) l := by
  obtain ⟨y, hpos, hy, hl, hbehind⟩ := h
  refine ⟨y, by omega, by omega, hl, fun j hj hlt => ?_⟩
  rcases Nat.eq_or_lt_of_le (Nat.le_of_lt_succ hlt) with rfl | hlt
  · exact ⟨pos, Nat.le_refl pos, hgroup⟩
  · obtain ⟨i, hi, hgroup⟩ := hbehind j hj hlt
    exact ⟨i, by omega, hgroup⟩

end Grammar

namespace Expr.Spanned

theorem lt (h : e.Spanned g s pos q) : pos < q := h.finish.lt

/-- An expression that covers all tokens. -/
theorem whole (hq : pos < q) (h : e.span = ⟨(s.get pos).span.start, s.endBefore q⟩) (he : e.isEnclosed = true) :
    e.Spanned g s pos q := by
  have hl := leading?_of_isEnclosed he
  have ht := trailing?_of_isEnclosed he
  rw [s.endBefore_of_pos (Nat.zero_lt_of_lt hq)] at h
  refine ⟨.inl ?_, ?_, ?_, ?_, fun _ => .inl ?_, fun _ => .inl ?_, fun _ => h⟩
  · rw [h]
    exact .first hq
  · rw [h]
    exact .last hq
  · rw [hl]
    nofun
  · rw [ht]
    nofun
  · rw [h]
  · rw [h]

/-- An expression between parentheses. -/
theorem group (h : e.Spanned g s (pos + 1) p) (hgroup : g.Groups s pos p) (he : e.isTuple = false) :
    e.Spanned g s pos (p + 1) where
  start := h.start.imp (·.group hgroup) fun ⟨i, hpos, hp, he⟩ => ⟨i, by omega, by omega, he⟩
  finish := h.finish.group hgroup
  leads := h.leads
  trails := h.trails
  begins _ := .inr (.inl hgroup)
  ends _ := .inr hgroup
  tuple ht := by
    rw [he] at ht
    cases ht

/-- An expression begins as the one that it begins with. -/
theorem starts (hleft : left.Spanned g s pos m) (hm : m ≤ q) (h : e.span.start = left.span.start)
    (hl : e.leading? = some left) :
    g.Leads s pos q e.span.start ∨ ∃ i, pos < i ∧ i < q ∧ e.BeginsNegated s i := by
  rw [h]
  exact hleft.start.imp (·.mono hm) fun ⟨i, hpos, hi, he⟩ => ⟨i, hpos, by omega, .leading hl h he⟩

/-- An expression that begins with another one and ends with a token of its own. -/
theorem behind (hleft : left.Spanned g s pos m) (hm : m ≤ q) (h : e.span = ⟨left.span.start, s.endBefore q⟩)
    (hl : e.leading? = some left) (ht : e.trailing? = none) : e.Spanned g s pos q := by
  have hlt : pos < q := Nat.lt_of_lt_of_le hleft.lt hm
  have hstart : e.span.start = left.span.start := by rw [h]
  have hfinish : e.span.finish = (s.get (q - 1)).span.finish := by
    rw [h, s.endBefore_of_pos (Nat.zero_lt_of_lt hlt)]
  refine ⟨hleft.starts hm hstart hl, ?_, ?_, ?_, ?_, fun _ => .inl hfinish, ?_⟩
  · rw [hfinish]
    exact .last hlt
  · rintro first hfirst
    rwa [Option.some.inj (hfirst.symm.trans hl)]
  · rw [ht]
    nofun
  · rw [hl]
    nofun
  · rw [isTuple_of_leading hl]
    nofun

/-- An expression that begins and ends with others. -/
theorem between (hleft : left.Spanned g s pos m) (hright : right.Spanned g s p q) (hp : m ≤ p)
    (h : e.span = ⟨left.span.start, right.span.finish⟩) (hl : e.leading? = some left) (ht : e.trailing? = some right) :
    e.Spanned g s pos q := by
  have hlt := hleft.lt
  have hlt' := hright.lt
  have hstart : e.span.start = left.span.start := by rw [h]
  have hfinish : e.span.finish = right.span.finish := by rw [h]
  refine ⟨hleft.starts (by omega) hstart hl, ?_, ?_, ?_, ?_, ?_, ?_⟩
  · rw [hfinish]
    exact hright.finish.mono (by omega)
  · rintro first hfirst
    rwa [Option.some.inj (hfirst.symm.trans hl)]
  · rintro last hlast
    rwa [Option.some.inj (hlast.symm.trans ht)]
  · rw [hl]
    nofun
  · rw [ht]
    nofun
  · rw [isTuple_of_leading hl]
    nofun

/-- An operator before an expression. -/
theorem before {op : UnaryOp} (hright : right.Spanned g s (pos + 1) q) :
    (Expr.unary op right ⟨(s.get pos).span.start, right.span.finish⟩).Spanned g s pos q where
  start := by
    have hlt := hright.lt
    exact .inl (.first (by omega))
  finish := hright.finish.mono (Nat.le_succ pos)
  leads := nofun
  trails last hlast := by
    cases hlast
    rfl
  begins _ := .inl rfl
  ends := nofun
  tuple := nofun

/-- The `not` of a negated test. -/
theorem negated {name : Text} {args : Arguments} {l : Location} (hi : (s.get i).kind = .keyword .isOp)
    (hn : (s.get (i + 1)).kind = .keyword .notOp) (hpos : pos < i) (hq : i < q) :
    (Expr.unary .not (.test e name args ⟨l, s.endBefore q⟩) ⟨(s.get i).span.start, s.endBefore q⟩).Spanned
      g s pos q := by
  have hbegins := BeginsNegated.test e name args ⟨l, s.endBefore q⟩ (s.endBefore q) hi hn
  refine ⟨.inr ⟨i, hpos, hq, hbegins⟩, ?_, nofun, ?_, fun _ => .inr (.inr ⟨i, hpos, hq, hbegins⟩), nofun, nofun⟩
  · show g.Trails s pos q (s.endBefore q)
    rw [s.endBefore_of_pos (Nat.zero_lt_of_lt hq)]
    exact .last (by omega)
  · rintro last hlast
    cases hlast
    rfl

end Expr.Spanned
end Stencil
