/-
How statements are written as tokens. A statement stands in tags: its words in the first one, and around
its bodies the tags that end them, `else` among them. Expressions of statements stand in parentheses.
`Spelled` relates statements and their bodies to the lists of tokens that write them.
-/
import Stencil.Proofs.Writing.Expression
import Stencil.Tree.Stmt

namespace Stencil

/-! ## Parts of tags -/

/-- The tokens write the expression as what begins with a parenthesis; in particular in parentheses. -/
def Enclosed (e : Expr) (ts : List Token) : Prop :=
  Written (.at .primary e) ts ∧ ∃ o us, ts = o :: us ∧ o.kind = .symbol .openParen

/-- Things with commas between them. -/
inductive Separated {α : Type} (P : α → List Token → Prop) : List α → List Token → Prop
  | nil : Separated P [] []
  | last {x ts} (h : P x ts) : Separated P [x] ts
  | more {x y xs ts us m} (hm : m.kind = .symbol .comma) (hx : P x ts) (h : Separated P (y :: xs) us) :
      Separated P (x :: y :: xs) (ts ++ m :: us)

/-- A parameter, and its default behind an equals sign. -/
inductive Param.Spelled : Param × Option Expr → List Token → Prop
  | plain {p n} (hn : n.kind = .name) (hv : n.value = p.name) (hb : canBind p.name = true) :
      Param.Spelled (p, none) [n]
  | default {p e n a ts} (hn : n.kind = .name) (hv : n.value = p.name) (hb : canBind p.name = true)
      (ha : a.kind = .symbol .assign) (h : Enclosed e ts) : Param.Spelled (p, some e) (n :: a :: ts)

/-- Parameters without defaults, and behind them those with defaults. -/
def Signature.items (plain : List Param) (rest : List (Param × Expr)) : List (Param × Option Expr) :=
  plain.map (fun p => (p, none)) ++ rest.map fun x => (x.1, some x.2)

/-- The parameters in parentheses. -/
inductive Signature.Spelled : Signature → List Token → Prop
  | mk {plain : List Param} {rest : List (Param × Expr)} {ts o c} (ho : o.kind = .symbol .openParen)
      (hc : c.kind = .symbol .closeParen)
      (h : Separated Param.Spelled (items plain rest) ts) :
      Signature.Spelled ⟨plain ++ rest.map (·.1), rest.map (·.2)⟩ (o :: ts ++ [c])

/-- A public name that can be bound, and behind `as` its name in the template. -/
inductive ImportName.Spelled : ImportName → List Token → Prop
  | plain {x n} (hn : n.kind = .name) (hv : n.value = x) (hb : canBind x = true)
      (hp : x.startsWith "__" = false) : ImportName.Spelled ⟨x, none⟩ [n]
  | renamed {x y n a m} (hn : n.kind = .name) (hv : n.value = x) (hb : canBind x = true)
      (hp : x.startsWith "__" = false) (ha : a.kind = .name) (has : a.value = Text.ofString "as")
      (hm : m.kind = .name) (hmv : m.value = y) (hmb : canBind y = true) :
      ImportName.Spelled ⟨x, some y⟩ [n, a, m]

/-- The filters of a block, the first of which has no input. -/
inductive Expr.SpelledFilters : Expr → List Token → Prop
  | first {name args ts n s} (hn : n.kind = .name) (hv : n.value = name) (ha : Written (.arguments args) ts) :
      Expr.SpelledFilters (.filter none name args s) (n :: ts)
  | next {f name args ts us p n s} (hp : p.kind = .symbol .pipe) (hn : n.kind = .name) (hv : n.value = name)
      (h : Expr.SpelledFilters f ts) (ha : Written (.arguments args) us) :
      Expr.SpelledFilters (.filter (some f) name args s) (ts ++ p :: n :: us)

/-- The filter of a loop behind `if`, or none. -/
inductive Expr.SpelledTest : Option Expr → List Token → Prop
  | absent : Expr.SpelledTest none []
  | present {e i ts} (hi : i.kind = .keyword .ifTag) (h : Enclosed e ts) : Expr.SpelledTest (some e) (i :: ts)

/-! ## Statements and bodies -/

/-- What is written in tags and between them. -/
inductive Passage
  /-- A statement from its first word up to the end of its last tag. -/
  | stmt (s : Stmt)
  | body (ss : List Stmt)
  /-- A body with the end of the tag before it and the begin of the tag behind it. -/
  | inside (ss : List Stmt)
  /-- The word that ends a statement, and before it the body of `else` unless that is empty. -/
  | otherwise (word : Keyword) (ss : List Stmt)

mutual

/-- The statement is a `break` or a `continue`, or has one in its bodies. -/
def Stmt.HasLoopControl : Stmt → Prop
  | .breakLoop _ | .continueLoop _ => True
  | .loop _ _ body elseBody _ _ => Stmt.AnyHasLoopControl body ∨ Stmt.AnyHasLoopControl elseBody
  | .branch _ body elseBody _ => Stmt.AnyHasLoopControl body ∨ Stmt.AnyHasLoopControl elseBody
  | .block _ body _ => Stmt.AnyHasLoopControl body
  | .define _ _ body _ => Stmt.AnyHasLoopControl body
  | .callBlock _ _ body _ => Stmt.AnyHasLoopControl body
  | .filterBlock _ body _ => Stmt.AnyHasLoopControl body
  | .output _ _ | .assign _ _ _ | .extend _ _ | .embed _ _ | .importAs _ _ _ | .importNames _ _ _
  | .expr _ _ => False

def Stmt.AnyHasLoopControl : List Stmt → Prop
  | [] => False
  | x :: xs => x.HasLoopControl ∨ Stmt.AnyHasLoopControl xs

end

def Passage.HasLoopControl : Passage → Prop
  | .stmt s => s.HasLoopControl
  | .body ss | .inside ss | .otherwise _ ss => Stmt.AnyHasLoopControl ss

/-- The tokens write the passage. -/
inductive Spelled : Passage → List Token → Prop
  | empty : Spelled (.body []) []
  | more {x xs ts us b e} (hb : b.kind = .blockBegin) (he : e.kind = .blockEnd) (h : Spelled (.stmt x) ts)
      (hs : Spelled (.body xs) us) : Spelled (.body (x :: xs)) (b :: ts ++ e :: us)
  | inside {xs ts e b} (he : e.kind = .blockEnd) (hb : b.kind = .blockBegin) (h : Spelled (.body xs) ts) :
      Spelled (.inside xs) (e :: ts ++ [b])
  -- statements of one tag
  | print {es ts t s} (ht : t.kind = .keyword .printTag) (h : Separated Enclosed es ts) :
      Spelled (.stmt (.output es s)) (t :: ts)
  | expr {e ts s} (h : Enclosed e ts) : Spelled (.stmt (.expr e s)) ts
  | assign {e target value ts us m s} (hm : m.kind = .symbol .assign) (ht : e.toTarget .store = some target)
      (he : Enclosed e ts) (hv : Enclosed value us) : Spelled (.stmt (.assign target value s)) (ts ++ m :: us)
  | extend {e ts t s} (ht : t.kind = .keyword .extendsTag) (h : Enclosed e ts) :
      Spelled (.stmt (.extend e s)) (t :: ts)
  | embed {e ts t s} (ht : t.kind = .keyword .includeTag) (h : Enclosed e ts) :
      Spelled (.stmt (.embed e s)) (t :: ts)
  | importAs {e name ts t a n s} (ht : t.kind = .keyword .importTag) (ha : a.kind = .name)
      (has : a.value = Text.ofString "as") (hn : n.kind = .name) (hv : n.value = name)
      (hb : canBind name = true) (h : Enclosed e ts) : Spelled (.stmt (.importAs e name s)) (t :: ts ++ [a, n])
  | importNames {e names ts us t i s} (ht : t.kind = .keyword .fromTag) (hi : i.kind = .keyword .importTag)
      (h : Enclosed e ts) (hn : Separated ImportName.Spelled names us) :
      Spelled (.stmt (.importNames e names s)) (t :: ts ++ i :: us)
  | breakLoop {t s} (ht : t.kind = .name) (hv : t.value = Text.ofString "break") :
      Spelled (.stmt (.breakLoop s)) [t]
  | continueLoop {t s} (ht : t.kind = .name) (hv : t.value = Text.ofString "continue") :
      Spelled (.stmt (.continueLoop s)) [t]
  -- statements with bodies
  | block {name xs ts t n w s} (ht : t.kind = .keyword .blockTag) (hn : n.kind = .name) (hv : n.value = name)
      (hw : w.kind = .keyword .endBlock) (h : Spelled (.inside xs) ts) :
      Spelled (.stmt (.block name xs s)) (t :: n :: ts ++ [w])
  | define {name signature xs ts us t n w s} (ht : t.kind = .keyword .macroTag) (hn : n.kind = .name)
      (hv : n.value = name) (hb : canBind name = true) (hw : w.kind = .keyword .endMacro)
      (hs : signature.Spelled ts) (h : Spelled (.inside xs) us) :
      Spelled (.stmt (.define name signature xs s)) (t :: n :: ts ++ us ++ [w])
  | callBlock {signature callee args xs ts us vs t w s s'} (ht : t.kind = .keyword .callTag)
      (hw : w.kind = .keyword .endCall) (hs : signature.Spelled ts) (hc : Enclosed (.call callee args s') us)
      (h : Spelled (.inside xs) vs) :
      Spelled (.stmt (.callBlock signature (.call callee args s') xs s)) (t :: ts ++ us ++ vs ++ [w])
  | filterBlock {f xs ts us t w s} (ht : t.kind = .keyword .filterTag) (hw : w.kind = .keyword .endFilter)
      (hf : f.SpelledFilters ts) (h : Spelled (.inside xs) us) :
      Spelled (.stmt (.filterBlock f xs s)) (t :: ts ++ us ++ [w])
  | branch {test xs ys ts us vs t s} (ht : t.kind = .keyword .ifTag) (hc : Enclosed test ts)
      (h : Spelled (.inside xs) us) (hy : Spelled (.otherwise .endIf ys) vs) :
      Spelled (.stmt (.branch test xs ys s)) (t :: ts ++ us ++ vs)
  | loop {e target iter test xs ys ts us vs ws zs t i s} (ht : t.kind = .keyword .forTag)
      (hi : i.kind = .keyword .inOp) (hstore : e.toTarget .store = some target) (he : Enclosed e ts)
      (hu : Enclosed iter us) (hc : Expr.SpelledTest test vs) (h : Spelled (.inside xs) ws)
      (hy : Spelled (.otherwise .endFor ys) zs) :
      Spelled (.stmt (.loop target iter xs ys test s)) (t :: ts ++ i :: us ++ vs ++ ws ++ zs)
  | noElse {k w} (hw : w.kind = .keyword k) : Spelled (.otherwise k []) [w]
  | orElse {k ys ts e w} (hys : ys ≠ []) (he : e.kind = .keyword .elseTag) (hw : w.kind = .keyword k)
      (h : Spelled (.inside ys) ts) : Spelled (.otherwise k ys) (e :: ts ++ [w])

end Stencil
