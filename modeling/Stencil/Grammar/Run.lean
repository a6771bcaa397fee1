/-
The whole grammar. `step` reads a rule with a grammar for the rules inside it; `run` ties the knot, its
first argument bounding the depth of the rules inside each other. `Stream.depth` is a bound that every
stream whose last token is its end keeps to.
-/
import Stencil.Grammar.Statement
import Stencil.Grammar.Suffix

namespace Stencil

namespace Grammar

/-- A rule, read with a grammar for the rules inside it and the extensions found by their tags. -/
def step (find : Text → Option Extension) (g : Grammar) : Grammar := fun _ r =>
  match r with
  | .expression conditional => expression g conditional
  | .cond => cond g
  | .condRest value => condRest g value
  | .binary op => binary g op
  | .binaryRest op left => binaryRest g op left
  | .compare => compare g
  | .compareRest => compareRest g
  | .unary => unary g
  | .primary withSuffixes => primary g withSuffixes
  | .tuple item => tuple g item
  | .tupleRest item => tupleRest g item
  | .list => list g
  | .listItems first => listItems g first
  | .dict => dict g
  | .dictItems first => dictItems g first
  | .suffixes e => suffixes g e
  | .subscript object => subscript g object
  | .subscriptItems first => subscriptItems g first
  | .subscriptItem => subscriptItem g
  | .call callee => call g callee
  | .arguments => arguments g
  | .argumentsRest opened args => argumentsRest g opened args
  | .filter input => filter g input
  | .filterChain input => filterChain g input
  | .filterRest e => filterRest g e
  | .singleFilter input => singleFilter g input
  | .test subject => test g subject
  | .statement => statement g find
  | .statements ends dropEnd => statements g ends dropEnd
  | .content ends pending => content g ends pending
  | .assign target => assign g target
  | .loop => loop g
  | .conditional => conditional g
  | .branches => branches g
  | .block => block g
  | .extend => extend g
  | .embed => embed g
  | .importAs => importAs g
  | .importNames => importNames g
  | .nameItems first => nameItems g first
  | .print => print g
  | .printItems first => printItems g first
  | .signature => signature g
  | .signatureRest sofar => signatureRest g sofar
  | .define => define g
  | .callBlock => callBlock g
  | .filterBlock => filterBlock g
  | .template => template g

/-- The rules read with a bounded depth. -/
def run (find : Text → Option Extension) : Nat → Grammar
  | 0 => fun _ _ => Parser.faultWith .depth
  | n + 1 => step find (run find n)

/-- Depth enough for every rule at every position of a stream. -/
def depth (s : Stream) : Nat := 64 * (s.tokens.size + 4)

/-- The grammar of a language with extensions. -/
def ofExtensions (find : Text → Option Extension) : Grammar := fun _ r s pos =>
  run find (depth s) r s pos

end Grammar

/-- An expression that stands alone: a tuple, behind which the source ends. -/
def Grammar.wholeExpression (g : Grammar) : Parser Expr := do
  let e ← g (.tuple (.expression true))
  let _ ← Parser.expect .eof
  return e

end Stencil
