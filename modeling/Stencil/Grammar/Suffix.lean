/-
What may follow a primary expression: attributes and subscripts, calls, filters and tests. Arguments
come in the order positional, by name, `*expr`, `**expr`; a mistake in that order is reported at the
opening parenthesis.
-/
import Stencil.Grammar.Expression

namespace Stencil.Grammar

open Stencil.Parser

variable (g : Grammar)

/-- Everything that follows an expression, one suffix after another. -/
def suffixes (e : Expr) : Parser Expr := do
  match (← current).kind with
  | .symbol .dot =>
    let e ← g (.subscript e)
    g (.suffixes e)
  | .symbol .openBracket =>
    let e ← g (.subscript e)
    g (.suffixes e)
  | .symbol .openParen =>
    let e ← g (.call e)
    g (.suffixes e)
  | .symbol .pipe =>
    let e ← g (.filter e)
    g (.suffixes e)
  | .keyword .isOp =>
    let e ← g (.test e)
    g (.suffixes e)
  | _ => return e

/-! ## Subscripts -/

/-- The name or number behind a dot. -/
def dotIndex : Parser Expr := do
  let token ← current
  let index ← match token.kind with
    | .name => pure (.const (.text token.value) token.span)
    | .integer => integer token
    | _ => report .invalidAttribute [("actual", .string token.describe)] token.span.start
  let _ ← advance
  return index

/-- The index between brackets: one subscript is itself, several are a tuple. -/
def bracketIndex (opened : Token) : Parser Expr := do
  let items ← g (.subscriptItems true)
  let stop ← previousEnd
  let _ ← expectSymbol .closeBracket
  match items with
  | [] => return .tuple [] .load ⟨opened.span.finish, stop⟩
  | [e] => return e
  | e :: es => return .tuple (e :: es) .load ⟨e.span.start, stop⟩

/-- `object.name`, `object.0` or `object[index]`. -/
def subscript (object : Expr) : Parser Expr := do
  let token ← advance
  let index ← match token.kind with
    | .symbol .dot => dotIndex
    | .symbol .openBracket => bracketIndex g token
    | k => faultWith (.subscriptStart k)
  let stop ← previousEnd
  return .subscript object index .load ⟨object.span.start, stop⟩

/-- The subscripts up to the closing bracket, with commas between them. -/
def subscriptItems (first : Bool) : Parser (List Expr) := do
  if ← checkSymbol .closeBracket then
    return []
  else
    if !first then
      let _ ← expectSymbol .comma
    let e ← g .subscriptItem
    let rest ← g (.subscriptItems false)
    return e :: rest

/-- The last part of a slice, if a colon leads to it. -/
def sliceStep : Parser (Option Expr) := do
  if ← checkSymbol .colon then
    let _ ← advance
    if ← check [.symbol .closeBracket, .symbol .comma] then
      return none
    else
      let e ← g (.expression true)
      return some e
  else
    return none

/-- The parts of a slice behind its first colon. -/
def sliceRest (begun : Location) (start : Option Expr) : Parser Expr := do
  let stop ← if ← check [.symbol .colon, .symbol .closeBracket, .symbol .comma] then pure none else do
    let e ← g (.expression true)
    pure (some e)
  let step ← sliceStep g
  let finish ← previousEnd
  return .slice start stop step ⟨begun, finish⟩

/-- One subscript: an expression, or a slice whose parts may be absent. -/
def subscriptItem : Parser Expr := do
  let begun := (← current).span.start
  if ← checkSymbol .colon then
    let _ ← advance
    sliceRest g begun none
  else
    let e ← g (.expression true)
    if ← checkSymbol .colon then
      let _ ← advance
      sliceRest g begun (some e)
    else
      return e

/-! ## Arguments -/

def call (callee : Expr) : Parser Expr := do
  let args ← g .arguments
  let stop ← previousEnd
  return .call callee args ⟨callee.span.start, stop⟩

def arguments : Parser Arguments := do
  let opened ← expectSymbol .openParen
  let args ← g (.argumentsRest opened.span.start .empty)
  let _ ← expectSymbol .closeParen
  return args

/-- No argument has been read. -/
def noneRead : Arguments → Bool
  | .mk [] [] none none => true
  | _ => false

/-- Fails at the opening parenthesis unless the order of the arguments allows the next one. -/
def ensureOrder (opened : Location) (valid : Bool) : Parser Unit :=
  if valid then pure () else report .invalidArguments [] opened

/-- The next argument, added to those before it. -/
def argument (opened : Location) : Arguments → Parser Arguments
  | .mk positional keywords spread keywordSpread => do
    if ← checkSymbol .star then
      ensureOrder opened (spread.isNone && keywordSpread.isNone)
      let _ ← advance
      let e ← g (.expression true)
      return .mk positional keywords (some e) keywordSpread
    else if ← checkSymbol .doubleStar then
      ensureOrder opened keywordSpread.isNone
      let _ ← advance
      let e ← g (.expression true)
      return .mk positional keywords spread (some e)
    else
      ensureOrder opened (spread.isNone && keywordSpread.isNone)
      let token ← current
      let next ← peek 1
      if token.kind = .name ∧ next.kind = .symbol .assign then
        let _ ← skip 2
        let value ← g (.expression true)
        let keyword := .mk token.value value ⟨token.span.start, value.span.finish⟩
        return .mk positional (keywords ++ [keyword]) spread keywordSpread
      else
        ensureOrder opened keywords.isEmpty
        let e ← g (.expression true)
        return .mk (positional ++ [e]) keywords spread keywordSpread

/-- The arguments up to the closing parenthesis, before which a comma may stand. -/
def argumentsRest (opened : Location) (args : Arguments) : Parser Arguments := do
  if ← checkSymbol .closeParen then
    return args
  else
    if !noneRead args then
      let _ ← expectSymbol .comma
    if !noneRead args && (← checkSymbol .closeParen) then
      return args
    else
      let args ← argument g opened args
      g (.argumentsRest opened args)

/-! ## Filters and tests -/

/-- `input | name(args) | …`; without a bar the input is all. -/
def filter (input : Expr) : Parser Expr := do
  if ← checkSymbol .pipe then
    let _ ← advance
    g (.filterChain (some input))
  else
    return input

/-- The arguments in parentheses, if there are any. -/
def optionalArguments : Parser Arguments := do
  if ← checkSymbol .openParen then g .arguments else return .empty

/-- One filter with its name and arguments, applied to an input. -/
def singleFilter (input : Option Expr) : Parser Expr := do
  let name ← expect .name
  let args ← optionalArguments g
  let stop ← previousEnd
  let start := match input with
    | some e => e.span.start
    | none => name.span.start
  return .filter input name.value args ⟨start, stop⟩

/-- A chain of filters; each takes the one before it as its input. -/
def filterChain (input : Option Expr) : Parser Expr := do
  let e ← g (.singleFilter input)
  g (.filterRest e)

def filterRest (e : Expr) : Parser Expr := do
  if ← checkSymbol .pipe then
    let _ ← advance
    let e ← g (.singleFilter (some e))
    g (.filterRest e)
  else
    return e

/-- The kinds that may begin the argument of a test without parentheses. -/
def bareArgumentStarts : List TokenKind :=
  [.name, .string, .integer, .float, .symbol .openBracket, .symbol .openBrace]

/-- The arguments of a test: in parentheses, one without, or none. -/
def testArguments : Parser Arguments := do
  if ← checkSymbol .openParen then
    g .arguments
  else if ← check bareArgumentStarts then
    let e ← g (.expression true)
    return .mk [e] [] none none
  else
    return .empty

/-- `subject is name` or `subject is not name`; a negated test is wrapped in `not`. -/
def test (subject : Expr) : Parser Expr := do
  let token ← expectKeyword .isOp
  let negated ← checkKeyword .notOp
  if negated then
    let _ ← advance
  let name ← expect .name
  let args ← testArguments g
  let stop ← previousEnd
  let positive : Expr := .test subject name.value args ⟨subject.span.start, stop⟩
  if negated then
    return .unary .not positive ⟨token.span.start, stop⟩
  else
    return positive

end Stencil.Grammar
