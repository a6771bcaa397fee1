/-
Operators, primary expressions, tuples, lists and dictionaries. Each definition reads one rule and
leaves the rules inside it to the grammar `g`.
-/
import Stencil.Grammar.Rule

namespace Stencil.Grammar

open Stencil.Parser

variable (g : Grammar)

/-! ## Conditional expressions -/

def expression (conditional : Bool) : Parser Expr :=
  if conditional then g .cond else g (.binary .or)

/-- `value if test else other`; the other value may be conditional again. -/
def cond : Parser Expr := do
  let value ← g (.binary .or)
  g (.condRest value)

def condRest (value : Expr) : Parser Expr := do
  if ← checkKeyword .ifTag then
    let _ ← advance
    let test ← g (.binary .or)
    let _ ← expectKeyword .elseTag
    let other ← g .cond
    g (.condRest (.cond test value other ⟨value.span.start, other.span.finish⟩))
  else
    return value

/-! ## Operators between two operands -/

/-- The token of an operator. -/
def operatorKind : BinaryOp → TokenKind
  | .or => .keyword .orOp
  | .and => .keyword .andOp
  | .add => .symbol .plus
  | .sub => .symbol .minus
  | .concat => .symbol .tilde
  | .mul => .symbol .star
  | .div => .symbol .slash
  | .floordiv => .symbol .doubleSlash
  | .mod => .symbol .percent
  | .pow => .symbol .doubleStar

/-- The rule for the operands of an operator. -/
def operandRule : BinaryOp → Rule .expr
  | .or => .binary .and
  | .and => .compare
  | .add => .binary .sub
  | .sub => .binary .concat
  | .concat => .binary .mul
  | .mul => .binary .div
  | .div => .binary .floordiv
  | .floordiv => .binary .mod
  | .mod => .binary .pow
  | .pow => .unary

def binary (op : BinaryOp) : Parser Expr := do
  let left ← g (operandRule op)
  g (.binaryRest op left)

/-- Further operands, which group to the left. -/
def binaryRest (op : BinaryOp) (left : Expr) : Parser Expr := do
  if ← check [operatorKind op] then
    let _ ← advance
    let right ← g (operandRule op)
    g (.binaryRest op (.binary op left right ⟨left.span.start, right.span.finish⟩))
  else
    return left

/-! ## Comparisons -/

/-- The comparison that one token writes. -/
def comparison? : TokenKind → Option CompareOp
  | .symbol .equal => some .eq
  | .symbol .notEqual => some .ne
  | .symbol .less => some .lt
  | .symbol .lessEqual => some .lteq
  | .symbol .greater => some .gt
  | .symbol .greaterEqual => some .gteq
  | .keyword .inOp => some .isIn
  | _ => none

def compare : Parser Expr := do
  let first ← g (.binary .add)
  let operands ← g .compareRest
  if operands.isEmpty then
    return first
  else
    let stop ← previousEnd
    return .compare first operands ⟨first.span.start, stop⟩

/-- The operator of a comparison at the position, read over if there is one; `not in` is one. -/
def comparisonOp : Parser (Option CompareOp) := do
  let token ← current
  match comparison? token.kind with
  | some op =>
    let _ ← advance
    return some op
  | none =>
    let next ← peek 1
    if token.kind = .keyword .notOp ∧ next.kind = .keyword .inOp then
      let _ ← skip 2
      return some .notIn
    else
      return none

def compareRest : Parser (List Operand) := do
  let token ← current
  match ← comparisonOp with
  | none => return []
  | some op =>
    let operand ← g (.binary .add)
    let rest ← g .compareRest
    return .mk op operand ⟨token.span.start, operand.span.finish⟩ :: rest

/-! ## Operators before an operand -/

/-- The operator that a token before an operand writes. -/
def unaryOp? : TokenKind → Option UnaryOp
  | .keyword .notOp => some .not
  | .symbol .minus => some .neg
  | .symbol .plus => some .pos
  | _ => none

def unary : Parser Expr := do
  let token ← current
  match unaryOp? token.kind with
  | none => g (.primary true)
  | some op =>
    let _ ← advance
    let operand ← g .unary
    return .unary op operand ⟨token.span.start, operand.span.finish⟩

/-! ## Primary expressions -/

/-- The expression of a name: a constant, or the name as it is read. -/
def nameExpr (token : Token) : Expr :=
  match Constant.ofName? token.value with
  | some c => .const c token.span
  | none => .name token.value .load token.span

/-- A tuple in parentheses spans them; any other expression keeps its span. -/
def withParens (inner : Expr) (span : Span) : Expr :=
  match inner with
  | .tuple items usage _ => .tuple items usage span
  | e => e

/-- The constant of an integer token. -/
def integer (token : Token) : Parser Expr :=
  match Constant.ofInteger? token.value with
  | some c => return .const c token.span
  | none => faultWith (.numeral token.value)

/-- A name, a literal, or an expression in brackets. -/
def atom : Parser Expr := do
  let token ← current
  match token.kind with
  | .name =>
    let _ ← advance
    return nameExpr token
  | .integer =>
    let _ ← advance
    integer token
  | .float =>
    let _ ← advance
    return .const (.ofFraction token.value) token.span
  | .string =>
    let _ ← advance
    return .const (.text token.value) token.span
  | .symbol .openParen =>
    let _ ← advance
    let inner ← g (.tuple (.expression true))
    let _ ← expectSymbol .closeParen
    let stop ← previousEnd
    return withParens inner ⟨token.span.start, stop⟩
  | .symbol .openBracket => g .list
  | .symbol .openBrace => g .dict
  | _ => report .unexpectedInExpression [("actual", .string token.describe)] token.span.start

def primary (withSuffixes : Bool) : Parser Expr := do
  let e ← atom g
  if withSuffixes then g (.suffixes e) else return e

/-! ## Tuples -/

/-- The kinds that end the expressions of a `print` statement. -/
def printEnds : List TokenKind := [.variableEnd, .blockEnd, .keyword .inOp]

/-- The kinds at which a tuple has no further item. -/
def tupleEnds : List TokenKind := .symbol .closeParen :: printEnds

def tupleItem : TupleItem → Parser Expr
  | .primary => g (.primary true)
  | .expression conditional => g (.expression conditional)

/-- Expressions with commas between them. One without a comma stands for itself; none at all is the
empty tuple. -/
def tuple (item : TupleItem) : Parser Expr := do
  let start := (← current).span.start
  if ← check tupleEnds then
    return .tuple [] .load ⟨start, start⟩
  else
    let first ← tupleItem g item
    if ← checkSymbol .comma then
      let rest ← g (.tupleRest item)
      let stop ← previousEnd
      return .tuple (first :: rest) .load ⟨start, stop⟩
    else
      return first

/-- The items of a tuple from a comma on. -/
def tupleRest (item : TupleItem) : Parser (List Expr) := do
  let _ ← expectSymbol .comma
  if ← check tupleEnds then
    return []
  else
    let e ← tupleItem g item
    if ← checkSymbol .comma then
      let rest ← g (.tupleRest item)
      return e :: rest
    else
      return [e]

/-! ## Lists and dictionaries -/

def list : Parser Expr := do
  let opened ← expectSymbol .openBracket
  let items ← g (.listItems true)
  let _ ← expectSymbol .closeBracket
  let stop ← previousEnd
  return .list items ⟨opened.span.start, stop⟩

/-- The items of a list up to its closing bracket, before which a comma may stand. -/
def listItems (first : Bool) : Parser (List Expr) := do
  if ← checkSymbol .closeBracket then
    return []
  else
    if !first then
      let _ ← expectSymbol .comma
    if ← checkSymbol .closeBracket then
      return []
    else
      let e ← g (.expression true)
      let rest ← g (.listItems false)
      return e :: rest

def dict : Parser Expr := do
  let opened ← expectSymbol .openBrace
  let items ← g (.dictItems true)
  let _ ← expectSymbol .closeBrace
  let stop ← previousEnd
  return .dict items ⟨opened.span.start, stop⟩

/-- The pairs of a dictionary up to its closing brace, before which a comma may stand. -/
def dictItems (first : Bool) : Parser (List Pair) := do
  if ← checkSymbol .closeBrace then
    return []
  else
    if !first then
      let _ ← expectSymbol .comma
    if ← checkSymbol .closeBrace then
      return []
    else
      let key ← g (.expression true)
      let _ ← expectSymbol .colon
      let value ← g (.expression true)
      let rest ← g (.dictItems false)
      return .mk key value ⟨key.span.start, value.span.finish⟩ :: rest

end Stencil.Grammar
