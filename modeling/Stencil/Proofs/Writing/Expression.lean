/-
How expressions are written as tokens. Each level of the language leaves what binds tighter to the next
level, and at the tightest an expression of any level may stand in parentheses, as often as one likes.
`Written` relates what is written to the lists of tokens that write it; spans play no part in it.

The lists of items of tuples, lists, dictionaries, subscripts and arguments are written alike, with
commas between the items; they differ in what an item is (`Item`).
-/
import Stencil.Tree.Target
import Stencil.Token.Basic

namespace Stencil

/-! ## Operators -/

/-- The token of an operator between two operands. -/
def BinaryOp.kind : BinaryOp → TokenKind
  | or => .keyword .orOp | and => .keyword .andOp | add => .symbol .plus | sub => .symbol .minus
  | concat => .symbol .tilde | mul => .symbol .star | div => .symbol .slash
  | floordiv => .symbol .doubleSlash | mod => .symbol .percent | pow => .symbol .doubleStar

/-- The token of an operator before its operand. -/
def UnaryOp.kind : UnaryOp → TokenKind
  | not => .keyword .notOp | neg => .symbol .minus | pos => .symbol .plus

/-- The tokens of a comparison. -/
def CompareOp.kinds : CompareOp → List TokenKind
  | eq => [.symbol .equal] | ne => [.symbol .notEqual] | lt => [.symbol .less]
  | lteq => [.symbol .lessEqual] | gt => [.symbol .greater] | gteq => [.symbol .greaterEqual]
  | isIn => [.keyword .inOp] | notIn => [.keyword .notOp, .keyword .inOp]

/-- The levels of expressions. -/
inductive Level
  | cond | binary (op : BinaryOp) | compare | unary | primary
deriving DecidableEq, Repr

/-- The next tighter level, from conditionals to what needs no operator. -/
def Level.tighter : Level → Level
  | cond => binary .or
  | binary .or => binary .and
  | binary .and => compare
  | compare => binary .add
  | binary .add => binary .sub
  | binary .sub => binary .concat
  | binary .concat => binary .mul
  | binary .mul => binary .div
  | binary .div => binary .floordiv
  | binary .floordiv => binary .mod
  | binary .mod => binary .pow
  | binary .pow => unary
  | unary => primary
  | primary => primary

/-! ## What is written -/

/-- The token stands for a constant: the names for truth values and for nothing, and literals. -/
def Token.Denotes (t : Token) (c : Constant) : Prop :=
  match t.kind with
  | .name => Constant.ofName? t.value = some c
  | .integer => Constant.ofInteger? t.value = some c
  | .float => Constant.ofFraction t.value = c
  | .string => .text t.value = c
  | _ => False

/-- One argument. -/
inductive Argument
  | positional (e : Expr) | keyword (k : KeywordArg) | spread (e : Expr) | keywordSpread (e : Expr)

/-- The arguments in the order in which they are written. -/
def Arguments.toList : Arguments → List Argument
  | .mk positional keywords spread keywordSpread =>
    positional.map .positional ++ keywords.map .keyword ++ spread.toList.map .spread
      ++ keywordSpread.toList.map .keywordSpread

/-- What stands between two commas. -/
inductive Item
  | expr (e : Expr)
  | pair (p : Pair)
  /-- An expression between brackets behind an object, or a slice. -/
  | subscript (e : Expr)
  | argument (a : Argument)

/-- What is written: an expression at a level, or a part of one. -/
inductive Form
  | at (level : Level) (e : Expr)
  | operands (os : List Operand)
  | arguments (args : Arguments)
  /-- The first or second part of a slice. -/
  | bound (o : Option Expr)
  /-- The last part of a slice, with the colon before it. -/
  | step (o : Option Expr)
  | item (x : Item)
  | items (xs : List Item)

/-- The tokens write the form. -/
inductive Written : Form → List Token → Prop
  -- levels
  | tighter {l e ts} (h : Written (.at l.tighter e) ts) : Written (.at l e) ts
  | parens {e ts o c} (ho : o.kind = .symbol .openParen) (hc : c.kind = .symbol .closeParen)
      (h : Written (.at .cond e) ts) : Written (.at .primary e) (o :: ts ++ [c])
  -- operators
  | cond {test a b ts us vs i e s} (hi : i.kind = .keyword .ifTag) (he : e.kind = .keyword .elseTag)
      (ha : Written (.at (.binary .or) a) ts) (ht : Written (.at (.binary .or) test) us)
      (hb : Written (.at .cond b) vs) : Written (.at .cond (.cond test a b s)) (ts ++ i :: us ++ e :: vs)
  | binary {op left right ts us t s} (ht : t.kind = op.kind) (hl : Written (.at (.binary op) left) ts)
      (hr : Written (.at (Level.binary op).tighter right) us) :
      Written (.at (.binary op) (.binary op left right s)) (ts ++ t :: us)
  | compare {first os ts us s} (hos : os ≠ []) (hf : Written (.at (.binary .add) first) ts)
      (ho : Written (.operands os) us) : Written (.at .compare (.compare first os s)) (ts ++ us)
  | unary {op e ts t s} (ht : t.kind = op.kind) (h : Written (.at .unary e) ts) :
      Written (.at .unary (.unary op e s)) (t :: ts)
  | noOperand : Written (.operands []) []
  | operand {op e os opTokens ts us s} (ht : opTokens.map (·.kind) = op.kinds)
      (h : Written (.at (.binary .add) e) ts) (ho : Written (.operands os) us) :
      Written (.operands (.mk op e s :: os)) (opTokens ++ ts ++ us)
  -- names, literals and what stands in brackets
  | name {n t s} (ht : t.kind = .name) (hv : t.value = n) (hn : Constant.ofName? n = none) :
      Written (.at .primary (.name n .load s)) [t]
  | const {c t s} (h : t.Denotes c) : Written (.at .primary (.const c s)) [t]
  | emptyTuple {o c s} (ho : o.kind = .symbol .openParen) (hc : c.kind = .symbol .closeParen) :
      Written (.at .primary (.tuple [] .load s)) [o, c]
  | oneTuple {e ts o m c s} (ho : o.kind = .symbol .openParen) (hm : m.kind = .symbol .comma)
      (hc : c.kind = .symbol .closeParen) (h : Written (.at .cond e) ts) :
      Written (.at .primary (.tuple [e] .load s)) (o :: ts ++ [m, c])
  | tuple {es ts o c s} (ho : o.kind = .symbol .openParen) (hc : c.kind = .symbol .closeParen)
      (hes : 2 ≤ es.length) (h : Written (.items (es.map .expr)) ts) :
      Written (.at .primary (.tuple es .load s)) (o :: ts ++ [c])
  | list {es ts o c s} (ho : o.kind = .symbol .openBracket) (hc : c.kind = .symbol .closeBracket)
      (h : Written (.items (es.map .expr)) ts) : Written (.at .primary (.list es s)) (o :: ts ++ [c])
  | dict {ps ts o c s} (ho : o.kind = .symbol .openBrace) (hc : c.kind = .symbol .closeBrace)
      (h : Written (.items (ps.map .pair)) ts) : Written (.at .primary (.dict ps s)) (o :: ts ++ [c])
  -- what follows
  | subscript {e i ts us o c s} (ho : o.kind = .symbol .openBracket) (hc : c.kind = .symbol .closeBracket)
      (he : Written (.at .primary e) ts) (hi : Written (.item (.subscript i)) us) :
      Written (.at .primary (.subscript e i .load s)) (ts ++ o :: us ++ [c])
  | subscripts {e is ts us o c s s'} (ho : o.kind = .symbol .openBracket)
      (hc : c.kind = .symbol .closeBracket) (his : 2 ≤ is.length) (he : Written (.at .primary e) ts)
      (hi : Written (.items (is.map .subscript)) us) :
      Written (.at .primary (.subscript e (.tuple is .load s') .load s)) (ts ++ o :: us ++ [c])
  | call {e args ts us s} (he : Written (.at .primary e) ts) (ha : Written (.arguments args) us) :
      Written (.at .primary (.call e args s)) (ts ++ us)
  | filter {e name args ts us p n s} (hp : p.kind = .symbol .pipe) (hn : n.kind = .name)
      (hv : n.value = name) (he : Written (.at .primary e) ts) (ha : Written (.arguments args) us) :
      Written (.at .primary (.filter (some e) name args s)) (ts ++ p :: n :: us)
  | test {e name args ts us i n s} (hi : i.kind = .keyword .isOp) (hn : n.kind = .name)
      (hv : n.value = name) (he : Written (.at .primary e) ts) (ha : Written (.arguments args) us) :
      Written (.at .primary (.test e name args s)) (ts ++ i :: n :: us)
  | arguments {args ts o c} (ho : o.kind = .symbol .openParen) (hc : c.kind = .symbol .closeParen)
      (h : Written (.items (args.toList.map .argument)) ts) : Written (.arguments args) (o :: ts ++ [c])
  -- slices
  | unbounded : Written (.bound none) []
  | bound {e ts} (h : Written (.at .cond e) ts) : Written (.bound (some e)) ts
  | noStep : Written (.step none) []
  | step {o ts c} (hc : c.kind = .symbol .colon) (h : Written (.bound o) ts) : Written (.step o) (c :: ts)
  | slice {start stop step ts us vs c s} (hc : c.kind = .symbol .colon) (ha : Written (.bound start) ts)
      (hb : Written (.bound stop) us) (hs : Written (.step step) vs) :
      Written (.item (.subscript (.slice start stop step s))) (ts ++ c :: us ++ vs)
  -- items
  | expr {e ts} (h : Written (.at .cond e) ts) : Written (.item (.expr e)) ts
  | pair {key value ts us c s} (hc : c.kind = .symbol .colon) (hk : Written (.at .cond key) ts)
      (hv : Written (.at .cond value) us) : Written (.item (.pair (.mk key value s))) (ts ++ c :: us)
  | index {e ts} (h : Written (.at .cond e) ts) : Written (.item (.subscript e)) ts
  | positional {e ts} (h : Written (.at .cond e) ts) : Written (.item (.argument (.positional e))) ts
  | keyword {key e ts n a s} (hn : n.kind = .name) (hv : n.value = key) (ha : a.kind = .symbol .assign)
      (h : Written (.at .cond e) ts) : Written (.item (.argument (.keyword (.mk key e s)))) (n :: a :: ts)
  | spread {e ts t} (ht : t.kind = .symbol .star) (h : Written (.at .cond e) ts) :
      Written (.item (.argument (.spread e))) (t :: ts)
  | keywordSpread {e ts t} (ht : t.kind = .symbol .doubleStar) (h : Written (.at .cond e) ts) :
      Written (.item (.argument (.keywordSpread e))) (t :: ts)
  | noItem : Written (.items []) []
  | lastItem {x ts} (h : Written (.item x) ts) : Written (.items [x]) ts
  | moreItems {x y xs ts us m} (hm : m.kind = .symbol .comma) (hx : Written (.item x) ts)
      (h : Written (.items (y :: xs)) us) : Written (.items (x :: y :: xs)) (ts ++ m :: us)

end Stencil
