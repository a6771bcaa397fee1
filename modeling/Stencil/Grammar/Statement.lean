/-
Statements. Each begins at its first word, which the tag's begin precedes, and ends before the tag's
end; a body runs from the end of one tag to the word that ends it in a later tag.
-/
import Stencil.Grammar.Expression
import Stencil.Tree.Target

namespace Stencil.Grammar

open Stencil.Parser

variable (g : Grammar)

/-! ## One statement -/

/-- An expression, or an assignment to it. -/
def simpleStatement : Parser Splice := do
  let e ← g (.tuple (.expression true))
  if ← checkSymbol .assign then
    let s ← g (.assign e)
    return .one s
  else
    return .one (.expr e e.span)

/-- The rule for the statements that begin with a keyword. -/
def statementRule? : Keyword → Option (Rule .stmt)
  | .forTag => some .loop
  | .ifTag => some .conditional
  | .blockTag => some .block
  | .extendsTag => some .extend
  | .printTag => some .print
  | .macroTag => some .define
  | .includeTag => some .embed
  | .fromTag => some .importNames
  | .importTag => some .importAs
  | .callTag => some .callBlock
  | .filterTag => some .filterBlock
  | _ => none

/-- The statement that a tag holds: by its keyword, by an extension that claims its name, or an
expression. -/
def statement (find : Text → Option Extension) : Parser Splice := do
  let token ← current
  match token.kind with
  | .keyword k =>
    match statementRule? k with
    | some r =>
      let s ← g r
      return .one s
    | none => simpleStatement g
  | .name =>
    match find token.value with
    | some x => x.parse g
    | none => simpleStatement g
  | _ => simpleStatement g

/-! ## Bodies -/

/-- The body of a statement from the end of its tag on: a colon may stand before it. The word that
ends the body is read over if `dropEnd` says so. -/
def statements (ends : List TokenKind) (dropEnd : Bool) : Parser (List Stmt) := do
  if ← checkSymbol .colon then
    let _ ← advance
  let _ ← expect .blockEnd
  let body ← g (.content (some ends) [])
  if ← check ends then
    if dropEnd then
      let _ ← advance
    return body
  else
    Parser.unexpected ends none

/-- Data and interpolations that stand together, as one statement. -/
def output : List Expr → List Stmt
  | [] => []
  | e :: es => [.output (e :: es) ⟨e.span.start, ((e :: es).getLast (by simp)).span.finish⟩]

/-- Statements up to the end of the source, or up to a tag that begins with one of the kinds that end
them; of that tag the begin is read over. `pending` are the data and interpolations since the last
tag. -/
def content (ends : Option (List TokenKind)) (pending : List Expr) : Parser (List Stmt) := do
  let token ← current
  match token.kind with
  | .data =>
    let _ ← advance
    let piece := if token.value = [] then [] else [.const (.text token.value) token.span]
    g (.content ends (pending ++ piece))
  | .variableBegin =>
    let _ ← advance
    let e ← g (.tuple (.expression true))
    let _ ← expect .variableEnd
    g (.content ends (pending ++ [e]))
  | .blockBegin =>
    let _ ← advance
    if ← check (ends.getD []) then
      return output pending
    else
      let splice ← g .statement
      let _ ← expect .blockEnd
      let rest ← g (.content ends [])
      return output pending ++ splice.toList ++ rest
  | .eof => return output pending
  | k => faultWith (.strayToken k)

def template : Parser Template := do
  let body ← g (.content none [])
  let stop := (← current).span.finish
  return ⟨body, ⟨.origin, stop⟩⟩

/-! ## Assignment -/

/-- The target that an expression is; any other expression is a mistake. -/
def storeTarget (e : Expr) : Parser Expr :=
  match e.toTarget .store with
  | some t => return t
  | none => report .invalidTarget [("target", .string e.targetKind)] e.span.start

def assign (target : Expr) : Parser Stmt := do
  let _ ← expectSymbol .assign
  let stored ← storeTarget target
  let value ← g (.tuple (.expression true))
  return .assign stored value ⟨target.span.start, value.span.finish⟩

/-! ## Loops and conditionals -/

/-- The filter behind the iterable of a loop. -/
def loopTest : Parser (Option Expr) := do
  if ← checkKeyword .ifTag then
    let _ ← advance
    let e ← g (.expression true)
    return some e
  else
    return none

/-- `for target in iter [if test]`, a body, and after `else` a body for the empty loop. -/
def loop : Parser Stmt := do
  let start := (← expectKeyword .forTag).span.start
  let target ← g (.tuple .primary)
  let stored ← storeTarget target
  let _ ← expectKeyword .inOp
  let iter ← g (.tuple (.expression false))
  let test ← loopTest g
  let body ← g (.statements [.keyword .endFor, .keyword .elseTag] false)
  let word ← advance
  let elseBody ← if word.kind = .keyword .endFor then pure [] else
    g (.statements [.keyword .endFor] true)
  let stop ← previousEnd
  return .loop stored iter body elseBody test ⟨start, stop⟩

/-- The kinds that end the body of a branch. -/
def branchEnds : List TokenKind := [.keyword .elifTag, .keyword .elseTag, .keyword .endIf]

/-- The condition and the body of a branch. -/
def branch (start : Location) : Parser Branch := do
  let test ← g (.tuple (.expression true))
  let body ← g (.statements branchEnds false)
  return ⟨start, test, body⟩

/-- The branches behind the first one, from the word that ends its body on. -/
def branches : Parser Branches := do
  let word ← advance
  if word.kind = .keyword .elifTag then
    let b ← branch g word.span.start
    let rest ← g .branches
    return ⟨b :: rest.elifs, rest.elseBody⟩
  else if word.kind = .keyword .elseTag then
    let body ← g (.statements [.keyword .endIf] true)
    return ⟨[], body⟩
  else
    return ⟨[], []⟩

/-- A branch as a conditional. -/
def branchStmt (stop : Location) (b : Branch) (elseBody : List Stmt) : Stmt :=
  .branch b.test b.body elseBody ⟨b.start, stop⟩

/-- The else body that further branches amount to: each is a conditional in the else body of the one
before it. -/
def nestBranches (stop : Location) (bs : Branches) : List Stmt :=
  bs.elifs.foldr (fun b elseBody => [branchStmt stop b elseBody]) bs.elseBody

def conditional : Parser Stmt := do
  let start := (← expectKeyword .ifTag).span.start
  let first ← branch g start
  let rest ← g .branches
  let stop ← previousEnd
  return branchStmt stop first (nestBranches stop rest)

/-! ## Parts of templates -/

def block : Parser Stmt := do
  let start := (← expectKeyword .blockTag).span.start
  let name := (← expect .name).value
  let body ← g (.statements [.keyword .endBlock] true)
  let stop ← previousEnd
  return .block name body ⟨start, stop⟩

def extend : Parser Stmt := do
  let start := (← expectKeyword .extendsTag).span.start
  let source ← g (.expression true)
  return .extend source ⟨start, source.span.finish⟩

def embed : Parser Stmt := do
  let start := (← expectKeyword .includeTag).span.start
  let source ← g (.expression true)
  return .embed source ⟨start, source.span.finish⟩

/-! ## Imports -/

/-- A name that can be bound. -/
def bindable : Parser Token := do
  let token ← expect .name
  if canBind token.value then return token
  else report .invalidTarget [("target", .string token.value)] token.span.start

/-- `import template as name`. -/
def importAs : Parser Stmt := do
  let start := (← expectKeyword .importTag).span.start
  let source ← g (.expression true)
  let _ ← expectName "as"
  let target := (← bindable).value
  let stop ← previousEnd
  return .importAs source target ⟨start, stop⟩

/-- The name behind `as`, if there is one. -/
def localName? : Parser (Option Text) := do
  if ← checkName "as" then
    let _ ← advance
    let token ← bindable
    return some token.value
  else
    return none

/-- A name with two underscores before it is private to its template. -/
def ensurePublic (token : Token) : Parser Unit :=
  if token.value.startsWith "__" then
    report .reservedImport [("name", .string token.value)] token.span.start
  else pure ()

/-- The imported names, with commas between them. -/
def nameItems (first : Bool) : Parser (List ImportName) := do
  if !first then
    let _ ← expectSymbol .comma
  if ← check [.name] then
    ensurePublic (← current)
    let name := (← bindable).value
    let localName ← localName?
    if ← checkSymbol .comma then
      let rest ← g (.nameItems false)
      return ⟨name, localName⟩ :: rest
    else
      return [⟨name, localName⟩]
  else
    return []

/-- `from template import name [as alias], …`; a comma may stand at the end. -/
def importNames : Parser Stmt := do
  let start := (← expectKeyword .fromTag).span.start
  let source ← g (.expression true)
  let _ ← expectKeyword .importTag
  let names ← g (.nameItems true)
  if ← checkSymbol .comma then
    let _ ← advance
  let stop ← previousEnd
  return .importNames source names ⟨start, stop⟩

/-! ## Print -/

def print : Parser Stmt := do
  let start := (← expectKeyword .printTag).span.start
  let nodes ← g (.printItems true)
  let stop ← previousEnd
  return .output nodes ⟨start, stop⟩

/-- The printed expressions, with commas between them. -/
def printItems (first : Bool) : Parser (List Expr) := do
  if ← check printEnds then
    return []
  else
    if !first then
      let _ ← expectSymbol .comma
    let e ← g (.expression true)
    let rest ← g (.printItems false)
    return e :: rest

/-! ## Macros and the blocks that call -/

def signature : Parser Signature := do
  let _ ← expectSymbol .openParen
  let s ← g (.signatureRest ⟨[], []⟩)
  let _ ← expectSymbol .closeParen
  return s

/-- The default behind a parameter. Once there has been one, every further parameter has one. -/
def default? (token : Token) (before : List Expr) : Parser (List Expr) := do
  if ← checkSymbol .assign then
    let _ ← advance
    let e ← g (.expression true)
    return before ++ [e]
  else if before.isEmpty then
    return before
  else
    report .parameterOrder [("name", .string token.value)] token.span.start

/-- The parameters up to the closing parenthesis, with commas between them. -/
def signatureRest (sofar : Signature) : Parser Signature := do
  if ← checkSymbol .closeParen then
    return sofar
  else
    if !sofar.params.isEmpty then
      let _ ← expectSymbol .comma
    let token ← bindable
    let defaults ← default? g token sofar.defaults
    g (.signatureRest ⟨sofar.params ++ [⟨token.value, token.span⟩], defaults⟩)

def define : Parser Stmt := do
  let start := (← expectKeyword .macroTag).span.start
  let name ← bindable
  let s ← g .signature
  let body ← g (.statements [.keyword .endMacro] true)
  let stop ← previousEnd
  return .define name.value s body ⟨start, stop⟩

/-- The parameters in parentheses, if there are any. -/
def optionalSignature : Parser Signature := do
  if ← checkSymbol .openParen then g .signature else return ⟨[], []⟩

/-- The expression of a call block has to be a call. -/
def ensureCall (start : Location) : Expr → Parser Unit
  | .call .. => pure ()
  | _ => report .missingCall [] start

/-- `call [(params)] callee(args)` and a body. -/
def callBlock : Parser Stmt := do
  let start := (← expectKeyword .callTag).span.start
  let s ← optionalSignature g
  let e ← g (.expression true)
  ensureCall start e
  let body ← g (.statements [.keyword .endCall] true)
  let stop ← previousEnd
  return .callBlock s e body ⟨start, stop⟩

def filterBlock : Parser Stmt := do
  let start := (← expectKeyword .filterTag).span.start
  let filter ← g (.filterChain none)
  let body ← g (.statements [.keyword .endFilter] true)
  let stop ← previousEnd
  return .filterBlock filter body ⟨start, stop⟩

end Stencil.Grammar
