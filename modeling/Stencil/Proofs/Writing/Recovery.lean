/-
Expressions are recovered from the tokens that write them: precedence, grouping and parentheses leave no
choice of another tree.
-/
import Stencil.Proofs.Writing.Shape

namespace Stencil

/-- Every expression of a documented shape can be written, and whatever tokens write it, the grammar of
every environment reads it from them, up to spans, and to the last of them. -/
theorem Environment.expression_recovered (env : Environment) {e : Expr} (he : e.Shaped .alone) :
    (∃ ts, Written (.at .cond e) ts) ∧ ∀ ts s, Written (.at .cond e) ts → Stream.Holds s ts →
      ∃ e', e'.bare = e.bare ∧ env.grammar (.expression true) s 0 = .ok e' ts.length ∧
        env.grammar.wholeExpression s 0 = .ok e' ts.length := by
  constructor
  · obtain ⟨ts, hts⟩ := he.writable
    exact ⟨ts, hts.loosen (Level.rank_le_cond _)⟩
  · intro ts s hw hs
    exact hw.expression (Grammar.ofExtensions_solves hs.last) hs

/-! ## Fixed tokens -/

/-- The stream of tokens with the end behind them. -/
def Stream.holding (ts : List Token) : Stream :=
  ⟨(ts ++ [Token.of .eof]).toArray, by simp, none, .standard⟩

theorem Stream.holding_holds (ts : List Token) : (holding ts).Holds ts := ⟨Token.of .eof, rfl, List.toList_toArray⟩

def Token.named (n : Text) : Token := ⟨.name, n, .none⟩

/-- A product binds tighter than a sum. -/
theorem Environment.expression_recovered_sum :
    let a := Text.ofString "a"
    let b := Text.ofString "b"
    let c := Text.ofString "c"
    let named n := Expr.name n .load .none
    ∃ e, e.bare = .binary .add (named a) (.binary .mul (named b) (named c) .none) .none ∧
      Environment.standard.grammar (.expression true)
        (Stream.holding [.named a, .of (.symbol .plus), .named b, .of (.symbol .star), .named c]) 0 = .ok e 5 := by
  intro a b c named
  have hname (n : Text) (h : Constant.ofName? n = none) : Written (.at .primary (named n)) [.named n] :=
    .name rfl rfl h
  have hproduct : Written (.at (.binary .mul) (.binary .mul (named b) (named c) .none)) _ :=
    .binary (t := .of (.symbol .star)) rfl ((hname b (by decide)).loosen (by decide))
      ((hname c (by decide)).loosen (by decide))
  have hsum : Written (.at (.binary .add) (.binary .add (named a) (.binary .mul (named b) (named c) .none) .none)) _ :=
    .binary (t := .of (.symbol .plus)) rfl ((hname a (by decide)).loosen (by decide))
      (hproduct.loosen (by decide))
  have hshaped : (Expr.binary .add (named a) (.binary .mul (named b) (named c) .none) .none).Shaped .alone :=
    ⟨⟨rfl, by decide⟩, ⟨rfl, by decide⟩, rfl, by decide⟩
  obtain ⟨e, he, hread, -⟩ := (Environment.standard.expression_recovered hshaped).2 _ _
    (hsum.loosen (by decide)) (Stream.holding_holds _)
  exact ⟨e, he, hread⟩

/-- A tuple that holds a slice is no expression in parentheses: it is an index only where it stands bare
between brackets. -/
theorem Environment.slices_in_parentheses :
    let named n := Expr.name (Text.ofString n) .load .none
    let object := Token.named (Text.ofString "a")
    let index := [.named (Text.ofString "b"), .of (.symbol .colon), .named (Text.ofString "c"),
      .of (.symbol .comma), .named (Text.ofString "d")]
    let slice := Expr.slice (some (named "b")) (some (named "c")) none .none
    Written (.at .cond (.subscript (named "a") (.tuple [slice, named "d"] .load .none) .load .none))
        (object :: .of (.symbol .openBracket) :: index ++ [.of (.symbol .closeBracket)]) ∧
      ∀ e pos, Environment.standard.grammar (.expression true)
        (Stream.holding (object :: .of (.symbol .openBracket) :: .of (.symbol .openParen) :: index ++
          [.of (.symbol .closeParen), .of (.symbol .closeBracket)])) 0 ≠ .ok e pos := by
  intro named object index slice
  have hname (n : String) (h : Constant.ofName? (Text.ofString n) = none) :
      Written (.at .primary (named n)) [.named (Text.ofString n)] := .name rfl rfl h
  have hcond (n : String) (h : Constant.ofName? (Text.ofString n) = none) :
      Written (.at .cond (named n)) [.named (Text.ofString n)] := (hname n h).loosen (by decide)
  constructor
  · have hslice : Written (.item (.subscript slice)) _ :=
      .slice (c := .of (.symbol .colon)) rfl (.bound (hcond "b" (by decide))) (.bound (hcond "c" (by decide))) .noStep
    have hitems : Written (.items [.subscript slice, .subscript (named "d")]) _ :=
      .moreItems (m := .of (.symbol .comma)) rfl hslice (.lastItem (.index (hcond "d" (by decide))))
    have hsubscript : Written (.at .primary (.subscript (named "a") (.tuple [slice, named "d"] .load .none) .load .none)) _ :=
      .subscripts (o := .of (.symbol .openBracket)) (c := .of (.symbol .closeBracket)) rfl rfl (Nat.le_refl 2)
        (hname "a" (by decide)) hitems
    exact hsubscript.loosen (by decide)
  · intro e pos h
    have hrefused : (match Environment.standard.grammar (.expression true)
        (Stream.holding (object :: .of (.symbol .openBracket) :: .of (.symbol .openParen) :: index ++
          [.of (.symbol .closeParen), .of (.symbol .closeBracket)])) 0 with
        | .ok _ _ => false
        | .fail _ _ => true) = true := by decide +kernel
    rw [h] at hrefused
    cases hrefused

end Stencil
