/-
Token streams, and parsers that read them. A stream always answers: beyond its last token it repeats
that token. A parser starts at a position and ends at one, with a value or a failure; a failure keeps
the position it was met at. `bind_eq_ok` takes a successful sequence apart.
-/
import Stencil.Delimiters
import Stencil.Diagnostic.Basic
import Stencil.Token.Basic

namespace Stencil

/-- What a token stream cannot be read as, apart from mistakes in a template: streams built by hand may
hold anything. -/
inductive Fault
  | emptyStream
  /-- A token outside of tags that is neither data nor the begin of a tag. -/
  | strayToken (kind : TokenKind)
  | subscriptStart (kind : TokenKind)
  /-- An integer token whose text is no integer. -/
  | numeral (text : Text)
  /-- The bound on the depth of recursion was too low. -/
  | depth
deriving DecidableEq, Repr

def Fault.message : Fault → Text
  | .emptyStream => "Internal parser error: token stream is empty"
  | .strayToken k => "Internal parser error: unexpected " ++ k.label ++ " token between tags"
  | .subscriptStart k => "Internal parser error: subscript cannot start with " ++ k.label
  | .numeral t => "Cannot convert " ++ t ++ " to a BigInt"
  | .depth => "Internal parser error: recursion is too deep"

/-- Why reading ends without a tree: a mistake in the template, or an unreadable stream. -/
inductive Failure
  | reported (d : Diagnostic)
  | fault (f : Fault)
deriving Repr

/-- Tokens to read, one at least, and what they were read with. -/
structure Stream where
  tokens : Array Token
  ne_empty : 0 < tokens.size
  filename : Option Text
  delimiters : Delimiters

namespace Stream

def ofTokens (tokens : Array Token) (filename : Option Text) (delimiters : Delimiters) :
    Except Fault Stream :=
  if h : 0 < tokens.size then .ok ⟨tokens, h, filename, delimiters⟩ else .error .emptyStream

def last (s : Stream) : Token := s.tokens.back s.ne_empty

/-- The token at an index, or the last one if there is none. -/
def get (s : Stream) (i : Nat) : Token := s.tokens[i]?.getD s.last

/-- The token so many places ahead of a position, or the last one. -/
def ahead (s : Stream) (pos : Nat) (offset : Int) : Token :=
  let i := (pos : Int) + offset
  if i < 0 then s.last else s.get i.toNat

/-- The end of the token before a position; at the start, the end of the first token. -/
def endBefore (s : Stream) (pos : Nat) : Location :=
  if pos = 0 then (s.get 0).span.finish
  else (s.tokens[pos - 1]?.getD (s.get pos)).span.finish

/-! ## Unexpected tokens -/

/-- What a missing closing bracket suggests. -/
def unclosedHint? : TokenKind → Option Text
  | .symbol .closeParen => some "Hint: Check for unclosed parenthesis"
  | .symbol .closeBracket => some "Hint: Check for unclosed bracket"
  | .symbol .closeBrace => some "Hint: Check for unclosed brace"
  | _ => none

/-- The kinds behind which a bracket can no longer close. -/
def endsTag (k : TokenKind) : Bool := k == .variableEnd || k == .blockEnd || k == .eof

/-- Advice for a token that does not meet the expectation. -/
def hint? (expected : List TokenKind) (actual : TokenKind) : Option Text :=
  match if endsTag actual then expected.findSome? unclosedHint? else none with
  | some h => some h
  | none =>
    let ends := expected.filter (·.endsStatement)
    if ends ≠ [] ∧ actual = .eof then
      some ("Hint: Check for a missing or misspelt "
        ++ Text.join " or " (ends.map fun k => TokenKind.quoted k.word) ++ " tag")
    else none

/-- The mistake of a token that is none of the expected kinds; `text` replaces their description. -/
def unexpected (s : Stream) (pos : Nat) (kinds : List TokenKind) (text : Option Text) : Diagnostic :=
  let token := s.get pos
  let expected := text.getD (Text.join " or " (kinds.map (·.describe)))
  let context : MessageContext :=
    [("expected", .string expected), ("actual", .string token.describe)]
  let message := Message.render ErrorId.unexpectedToken.definition.messageTemplate context
  let advice : Text := match hint? kinds token.kind with
    | some h => ". " ++ h
    | none => []
  .make .parse .unexpectedToken (message ++ advice) (some token.span.start) (some context) s.filename

end Stream

/-! ## Parsers -/

/-- The outcome of a parser and the position it ends at. -/
inductive Reply (α : Type)
  | ok (value : α) (pos : Nat)
  | fail (e : Failure) (pos : Nat)
deriving Repr

def Reply.pos {α : Type} : Reply α → Nat
  | ok _ p | fail _ p => p

/-- A reader of tokens from a position on. -/
def Parser (α : Type) : Type := Stream → Nat → Reply α

namespace Parser

variable {α β : Type}

@[inline] protected def pure (a : α) : Parser α := fun _ pos => .ok a pos

@[inline] protected def bind (x : Parser α) (f : α → Parser β) : Parser β := fun s pos =>
  match x s pos with
  | .ok a p => f a s p
  | .fail e p => .fail e p

instance : Monad Parser where
  pure := Parser.pure
  bind := Parser.bind

/-- A sequence succeeds if and only if both parts do, the second from where the first one ends. -/
theorem bind_eq_ok {x : Parser α} {f : α → Parser β} {s : Stream} {pos p : Nat} {b : β} :
    (x >>= f) s pos = .ok b p ↔ ∃ a q, x s pos = .ok a q ∧ f a s q = .ok b p := by
  show Parser.bind x f s pos = _ ↔ _
  unfold Parser.bind
  cases x s pos with
  | ok a q => exact ⟨fun h => ⟨a, q, rfl, h⟩, fun ⟨_, _, h1, h2⟩ => by cases h1; exact h2⟩
  | fail e q => exact ⟨fun h => (by cases h), fun ⟨_, _, h, _⟩ => (by cases h)⟩

/-- A sequence fails if the first part fails, or the second from where the first one ends. -/
theorem bind_eq_fail {x : Parser α} {f : α → Parser β} {s : Stream} {pos p : Nat} {e : Failure} :
    (x >>= f) s pos = .fail e p ↔
      x s pos = .fail e p ∨ ∃ a q, x s pos = .ok a q ∧ f a s q = .fail e p := by
  show Parser.bind x f s pos = _ ↔ _
  unfold Parser.bind
  cases x s pos with
  | ok a q =>
    exact ⟨fun h => .inr ⟨a, q, rfl, h⟩, fun h => by
      rcases h with h | ⟨_, _, h1, h2⟩
      · cases h
      · cases h1; exact h2⟩
  | fail e' q =>
    exact ⟨fun h => .inl (by cases h; rfl), fun h => by
      rcases h with h | ⟨_, _, h, _⟩
      · cases h; rfl
      · cases h⟩

/-! ## Failing -/

def failWith (e : Failure) : Parser α := fun _ pos => .fail e pos

def faultWith (f : Fault) : Parser α := failWith (.fault f)

/-- Fails with a mistake of the catalogue at a place. -/
def report (id : ErrorId) (context : MessageContext) (place : Location) : Parser α := fun s pos =>
  .fail (.reported (.report id context place s.filename)) pos

/-- Fails because the current token is none of some kinds. -/
def unexpected (kinds : List TokenKind) (text : Option Text) : Parser α := fun s pos =>
  .fail (.reported (s.unexpected pos kinds text)) pos

/-! ## Looking and moving -/

def stream : Parser Stream := fun s pos => .ok s pos

/-- The token at the position. -/
def current : Parser Token := fun s pos => .ok (s.get pos) pos

/-- The token so many places ahead. -/
def peek (offset : Int) : Parser Token := fun s pos => .ok (s.ahead pos offset) pos

def isAtEnd : Parser Bool := fun s pos => .ok ((s.get pos).kind == .eof) pos

/-- Whether the current token is of one of some kinds. -/
def check (kinds : List TokenKind) : Parser Bool := fun s pos =>
  .ok (kinds.contains (s.get pos).kind) pos

/-- Whether the current token is a symbol. -/
def checkSymbol (x : Symbol) : Parser Bool := check [.symbol x]

/-- Whether the current token is a keyword. -/
def checkKeyword (k : Keyword) : Parser Bool := check [.keyword k]

/-- Whether the current token is a given plain name. -/
def checkName (name : Text) : Parser Bool := fun s pos =>
  let t := s.get pos
  .ok (t.kind == .name && t.value == name) pos

/-- The current token; the position moves behind it unless the source ends there. -/
def advance : Parser Token := fun s pos =>
  let t := s.get pos
  .ok t (if t.kind = .eof then pos else pos + 1)

/-- Moves over so many tokens; the last one, or the current one if there is none. -/
def skip : Nat → Parser Token
  | 0 => current
  | 1 => advance
  | n + 2 => do
    let _ ← advance
    skip (n + 1)

/-- The current token, which has to be of a kind. -/
def expect (kind : TokenKind) : Parser Token := fun s pos =>
  if (s.get pos).kind = kind then advance s pos else unexpected [kind] none s pos

def expectSymbol (x : Symbol) : Parser Token := expect (.symbol x)

def expectKeyword (k : Keyword) : Parser Token := expect (.keyword k)

/-- The current token, which has to be a given plain name. -/
def expectName (name : Text) : Parser Token := fun s pos =>
  let t := s.get pos
  if t.kind = .name ∧ t.value = name then advance s pos
  else unexpected [] (some (TokenKind.quoted name)) s pos

/-- The end of the token read last. -/
def previousEnd : Parser Location := fun s pos => .ok (s.endBefore pos) pos

end Parser
end Stencil
