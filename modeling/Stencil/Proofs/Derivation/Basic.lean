/-
How expressions are derived. `Derives` relates a rule and a position to the tree that the rule reads there and
to the position behind it: it has one constructor for each way in which a rule can succeed, which says
everything that the rule has looked at and which rules it has turned to. What holds of every tree that is
read is shown by induction on its derivation.
-/
import Stencil.Grammar.Suffix
import Stencil.Proofs.Writing.Items

namespace Stencil

open Grammar

/-! ## Single tokens -/

/-- The expression that one token writes. -/
def Token.literal? (t : Token) : Option Expr :=
  match t.kind with
  | .name => some (nameExpr t)
  | .integer => (Constant.ofInteger? t.value).map (.const · t.span)
  | .float => some (.const (.ofFraction t.value) t.span)
  | .string => some (.const (.text t.value) t.span)
  | _ => none

/-- The index that the token behind a dot writes. -/
def Token.attribute? (t : Token) : Option Expr :=
  match t.kind with
  | .name => some (.const (.text t.value) t.span)
  | .integer => (Constant.ofInteger? t.value).map (.const · t.span)
  | _ => none

/-! ## Parts of rules -/

/-- The rule for an item of a tuple. -/
def TupleItem.rule : TupleItem → Rule .expr
  | primary => .primary true
  | expression conditional => .expression conditional

/-- The rule for what follows an expression, by the token behind it. -/
def suffixRule? (e : Expr) : TokenKind → Option (Rule .expr)
  | .symbol .dot | .symbol .openBracket => some (.subscript e)
  | .symbol .openParen => some (.call e)
  | .symbol .pipe => some (.filter e)
  | .keyword .isOp => some (.test e)
  | _ => none

/-- The index that the subscripts between brackets amount to. -/
def bracketed (opened : Token) (stop : Location) : List Expr → Expr
  | [] => .tuple [] .load ⟨opened.span.finish, stop⟩
  | [e] => e
  | e :: es => .tuple (e :: es) .load ⟨e.span.start, stop⟩

/-- A test, or the `not` of a negated one, which begins at the word `is`. -/
def testExpr (negated : Bool) (start : Location) (subject : Expr) (name : Text) (args : Arguments)
    (stop : Location) : Expr :=
  let positive := .test subject name args ⟨subject.span.start, stop⟩
  if negated then .unary .not positive ⟨start, stop⟩ else positive

namespace Stream

variable (s : Stream)

/-- A comparison is written by one token, or by `not in`. -/
inductive Compares (pos : Nat) : CompareOp → Nat → Prop
  | one {op : CompareOp} (h : comparison? (s.get pos).kind = some op) : Compares pos op (pos + 1)
  | notIn (hn : (s.get pos).kind = .keyword .notOp) (hi : (s.get (pos + 1)).kind = .keyword .inOp) :
      Compares pos .notIn (pos + 2)

/-- The word `is` at a position, and the word `not` behind it if the test is negated. -/
inductive Tests (pos : Nat) : (negated : Bool) → Nat → Prop
  | plain (hi : (s.get pos).kind = .keyword .isOp) (hn : (s.get (pos + 1)).kind ≠ .keyword .notOp) :
      Tests pos false (pos + 1)
  | negated (hi : (s.get pos).kind = .keyword .isOp) (hn : (s.get (pos + 1)).kind = .keyword .notOp) :
      Tests pos true (pos + 2)

end Stream

/-! ## Derivations -/

/-- The rule reads the tree from the first position up to the second one. -/
inductive Derives (s : Stream) : {p : Phrase} → Rule p → Nat → p.Tree → Nat → Prop
  -- operators
  | conditional {pos e q} (h : Derives s .cond pos e q) : Derives s (.expression true) pos e q
  | unconditional {pos e q} (h : Derives s (.binary .or) pos e q) : Derives s (.expression false) pos e q
  | cond {pos value p e q} (hv : Derives s (.binary .or) pos value p) (hr : Derives s (.condRest value) p e q) :
      Derives s .cond pos e q
  | condEnd {value pos} (hk : (s.get pos).kind ≠ .keyword .ifTag) : Derives s (.condRest value) pos value pos
  | condMore {value pos test p other q e r} (hi : (s.get pos).kind = .keyword .ifTag)
      (ht : Derives s (.binary .or) (pos + 1) test p) (he : (s.get p).kind = .keyword .elseTag)
      (ho : Derives s .cond (p + 1) other q)
      (hr : Derives s (.condRest (.cond test value other ⟨value.span.start, other.span.finish⟩)) q e r) :
      Derives s (.condRest value) pos e r
  | binary {op pos left p e q} (hl : Derives s (operandRule op) pos left p)
      (hr : Derives s (.binaryRest op left) p e q) : Derives s (.binary op) pos e q
  | binaryEnd {op left pos} (hk : (s.get pos).kind ≠ operatorKind op) :
      Derives s (.binaryRest op left) pos left pos
  | binaryMore {op left pos right p e q} (hk : (s.get pos).kind = operatorKind op)
      (h : Derives s (operandRule op) (pos + 1) right p)
      (hr : Derives s (.binaryRest op (.binary op left right ⟨left.span.start, right.span.finish⟩)) p e q) :
      Derives s (.binaryRest op left) pos e q
  | compareOne {pos e p q} (h : Derives s (.binary .add) pos e p) (hr : Derives s .compareRest p [] q) :
      Derives s .compare pos e q
  | compareMany {pos e p os q} (h : Derives s (.binary .add) pos e p) (hr : Derives s .compareRest p os q)
      (hos : os ≠ []) : Derives s .compare pos (.compare e os ⟨e.span.start, s.endBefore q⟩) q
  | operandEnd {pos} (hk : ∀ op p, ¬s.Compares pos op p) : Derives s .compareRest pos [] pos
  | operandMore {pos op p e q os r} (ho : s.Compares pos op p) (h : Derives s (.binary .add) p e q)
      (hr : Derives s .compareRest q os r) :
      Derives s .compareRest pos (.mk op e ⟨(s.get pos).span.start, e.span.finish⟩ :: os) r
  | unaryEnd {pos e q} (hk : unaryOp? (s.get pos).kind = none) (h : Derives s (.primary true) pos e q) :
      Derives s .unary pos e q
  | unaryMore {pos op e q} (hk : unaryOp? (s.get pos).kind = some op) (h : Derives s .unary (pos + 1) e q) :
      Derives s .unary pos (.unary op e ⟨(s.get pos).span.start, e.span.finish⟩) q
  -- primary expressions
  | suffixed {pos e p e' q} (h : Derives s (.primary false) pos e p) (hs : Derives s (.suffixes e) p e' q) :
      Derives s (.primary true) pos e' q
  | literal {pos e} (h : (s.get pos).literal? = some e) : Derives s (.primary false) pos e (pos + 1)
  | parens {pos e p} (ho : (s.get pos).kind = .symbol .openParen)
      (h : Derives s (.tuple (.expression true)) (pos + 1) e p) (hc : (s.get p).kind = .symbol .closeParen) :
      Derives s (.primary false) pos (withParens e ⟨(s.get pos).span.start, s.endBefore (p + 1)⟩) (p + 1)
  | bracket {pos e q} (hk : (s.get pos).kind = .symbol .openBracket) (h : Derives s .list pos e q) :
      Derives s (.primary false) pos e q
  | brace {pos e q} (hk : (s.get pos).kind = .symbol .openBrace) (h : Derives s .dict pos e q) :
      Derives s (.primary false) pos e q
  -- tuples, lists, dictionaries and printed expressions
  | tupleNone {item pos} (hk : (s.get pos).kind ∈ tupleEnds) :
      Derives s (.tuple item) pos (.tuple [] .load ⟨(s.get pos).span.start, (s.get pos).span.start⟩) pos
  | tupleOne {item pos e q} (hk : (s.get pos).kind ∉ tupleEnds) (h : Derives s item.rule pos e q)
      (hc : (s.get q).kind ≠ .symbol .comma) : Derives s (.tuple item) pos e q
  | tupleMany {item pos e p es q} (hk : (s.get pos).kind ∉ tupleEnds) (h : Derives s item.rule pos e p)
      (hc : (s.get p).kind = .symbol .comma) (hr : Derives s (.tupleRest item) p es q) :
      Derives s (.tuple item) pos (.tuple (e :: es) .load ⟨(s.get pos).span.start, s.endBefore q⟩) q
  | tupleEnd {item pos} (hc : (s.get pos).kind = .symbol .comma) (hk : (s.get (pos + 1)).kind ∈ tupleEnds) :
      Derives s (.tupleRest item) pos [] (pos + 1)
  | tupleLast {item pos e q} (hc : (s.get pos).kind = .symbol .comma) (hk : (s.get (pos + 1)).kind ∉ tupleEnds)
      (h : Derives s item.rule (pos + 1) e q) (hn : (s.get q).kind ≠ .symbol .comma) :
      Derives s (.tupleRest item) pos [e] q
  | tupleMore {item pos e p es q} (hc : (s.get pos).kind = .symbol .comma)
      (hk : (s.get (pos + 1)).kind ∉ tupleEnds) (h : Derives s item.rule (pos + 1) e p)
      (hm : (s.get p).kind = .symbol .comma) (hr : Derives s (.tupleRest item) p es q) :
      Derives s (.tupleRest item) pos (e :: es) q
  | list {pos es p} (ho : (s.get pos).kind = .symbol .openBracket) (h : Derives s (.listItems true) (pos + 1) es p)
      (hc : (s.get p).kind = .symbol .closeBracket) :
      Derives s .list pos (.list es ⟨(s.get pos).span.start, s.endBefore (p + 1)⟩) (p + 1)
  | listEnd {first pos p} (hp : p = pos ∨ s.Enters first pos p) (hk : (s.get p).kind = .symbol .closeBracket) :
      Derives s (.listItems first) pos [] p
  | listMore {first pos p e q es r} (hp : s.Enters first pos p) (h : Derives s (.expression true) p e q)
      (hr : Derives s (.listItems false) q es r) : Derives s (.listItems first) pos (e :: es) r
  | dict {pos ps p} (ho : (s.get pos).kind = .symbol .openBrace) (h : Derives s (.dictItems true) (pos + 1) ps p)
      (hc : (s.get p).kind = .symbol .closeBrace) :
      Derives s .dict pos (.dict ps ⟨(s.get pos).span.start, s.endBefore (p + 1)⟩) (p + 1)
  | dictEnd {first pos p} (hp : p = pos ∨ s.Enters first pos p) (hk : (s.get p).kind = .symbol .closeBrace) :
      Derives s (.dictItems first) pos [] p
  | dictMore {first pos p key q value r ps t} (hp : s.Enters first pos p) (h : Derives s (.expression true) p key q)
      (hc : (s.get q).kind = .symbol .colon) (hv : Derives s (.expression true) (q + 1) value r)
      (hr : Derives s (.dictItems false) r ps t) :
      Derives s (.dictItems first) pos (.mk key value ⟨key.span.start, value.span.finish⟩ :: ps) t
  | printEnd {first pos} (hk : (s.get pos).kind ∈ printEnds) : Derives s (.printItems first) pos [] pos
  | printMore {first pos p e q es r} (hk : (s.get pos).kind ∉ printEnds) (hp : s.Enters first pos p)
      (h : Derives s (.expression true) p e q) (hr : Derives s (.printItems false) q es r) :
      Derives s (.printItems first) pos (e :: es) r
  -- subscripts
  | suffixEnd {e pos} (hk : suffixRule? e (s.get pos).kind = none) : Derives s (.suffixes e) pos e pos
  | suffixMore {e pos r e' p e'' q} (hk : suffixRule? e (s.get pos).kind = some r) (h : Derives s r pos e' p)
      (hs : Derives s (.suffixes e') p e'' q) : Derives s (.suffixes e) pos e'' q
  | dot {object pos index} (hk : (s.get pos).kind = .symbol .dot) (h : (s.get (pos + 1)).attribute? = some index) :
      Derives s (.subscript object) pos
        (.subscript object index .load ⟨object.span.start, s.endBefore (pos + 2)⟩) (pos + 2)
  | index {object pos es p} (ho : (s.get pos).kind = .symbol .openBracket)
      (h : Derives s (.subscriptItems true) (pos + 1) es p) (hc : (s.get p).kind = .symbol .closeBracket) :
      Derives s (.subscript object) pos
        (.subscript object (bracketed (s.get pos) (s.endBefore p) es) .load
          ⟨object.span.start, s.endBefore (p + 1)⟩) (p + 1)
  | indexEnd {first pos} (hk : (s.get pos).kind = .symbol .closeBracket) :
      Derives s (.subscriptItems first) pos [] pos
  | indexMore {first pos p e q es r} (hk : (s.get pos).kind ≠ .symbol .closeBracket) (hp : s.Enters first pos p)
      (h : Derives s .subscriptItem p e q) (hr : Derives s (.subscriptItems false) q es r) :
      Derives s (.subscriptItems first) pos (e :: es) r
  | plain {pos e q} (h : Derives s (.expression true) pos e q) (hc : (s.get q).kind ≠ .symbol .colon) :
      Derives s .subscriptItem pos e q
  /-- The parts that a slice has are read, those that it lacks are not; the colon before the step may be
  missing together with it. -/
  | slice {pos p q r t start stop step}
      (hstart : ∀ e, start = some e → Derives s (.expression true) pos e p) (hstart' : start = none → p = pos)
      (hc : (s.get p).kind = .symbol .colon)
      (hstop : ∀ e, stop = some e → Derives s (.expression true) (p + 1) e q) (hstop' : stop = none → q = p + 1)
      (hr : r = q ∧ step = none ∨ (s.get q).kind = .symbol .colon ∧ r = q + 1)
      (hstep : ∀ e, step = some e → Derives s (.expression true) r e t) (hstep' : step = none → t = r) :
      Derives s .subscriptItem pos (.slice start stop step ⟨(s.get pos).span.start, s.endBefore t⟩) t
  -- arguments
  | call {callee pos args q} (h : Derives s .arguments pos args q) :
      Derives s (.call callee) pos (.call callee args ⟨callee.span.start, s.endBefore q⟩) q
  | arguments {pos args p} (ho : (s.get pos).kind = .symbol .openParen)
      (h : Derives s (.argumentsRest (s.get pos).span.start .empty) (pos + 1) args p)
      (hc : (s.get p).kind = .symbol .closeParen) : Derives s .arguments pos args (p + 1)
  | argumentEnd {opened args pos p} (hp : p = pos ∨ noneRead args = false ∧ s.Enters false pos p)
      (hk : (s.get p).kind = .symbol .closeParen) : Derives s (.argumentsRest opened args) pos args p
  | positional {opened es pos p e q args r} (hp : s.Enters (noneRead (.mk es [] none none)) pos p)
      (h : Derives s (.expression true) p e q)
      (hr : Derives s (.argumentsRest opened (.mk (es ++ [e]) [] none none)) q args r) :
      Derives s (.argumentsRest opened (.mk es [] none none)) pos args r
  | keyword {opened es ks pos p e q args r} (hp : s.Enters (noneRead (.mk es ks none none)) pos p)
      (hk : (s.get p).kind = .name) (ha : (s.get (p + 1)).kind = .symbol .assign)
      (h : Derives s (.expression true) (p + 2) e q)
      (hr : Derives s (.argumentsRest opened
        (.mk es (ks ++ [.mk (s.get p).value e ⟨(s.get p).span.start, e.span.finish⟩]) none none)) q args r) :
      Derives s (.argumentsRest opened (.mk es ks none none)) pos args r
  | spread {opened es ks pos p e q args r} (hp : s.Enters (noneRead (.mk es ks none none)) pos p)
      (hk : (s.get p).kind = .symbol .star) (h : Derives s (.expression true) (p + 1) e q)
      (hr : Derives s (.argumentsRest opened (.mk es ks (some e) none)) q args r) :
      Derives s (.argumentsRest opened (.mk es ks none none)) pos args r
  | keywordSpread {opened es ks o pos p e q args r} (hp : s.Enters (noneRead (.mk es ks o none)) pos p)
      (hk : (s.get p).kind = .symbol .doubleStar) (h : Derives s (.expression true) (p + 1) e q)
      (hr : Derives s (.argumentsRest opened (.mk es ks o (some e))) q args r) :
      Derives s (.argumentsRest opened (.mk es ks o none)) pos args r
  -- filters and tests
  | filterNone {e pos} (hk : (s.get pos).kind ≠ .symbol .pipe) : Derives s (.filter e) pos e pos
  | filterSome {e pos e' q} (hk : (s.get pos).kind = .symbol .pipe)
      (h : Derives s (.filterChain (some e)) (pos + 1) e' q) : Derives s (.filter e) pos e' q
  | filterChain {input pos e p e' q} (h : Derives s (.singleFilter input) pos e p)
      (hr : Derives s (.filterRest e) p e' q) : Derives s (.filterChain input) pos e' q
  | filterEnd {e pos} (hk : (s.get pos).kind ≠ .symbol .pipe) : Derives s (.filterRest e) pos e pos
  | filterMore {e pos e' p e'' q} (hk : (s.get pos).kind = .symbol .pipe)
      (h : Derives s (.singleFilter (some e)) (pos + 1) e' p) (hr : Derives s (.filterRest e') p e'' q) :
      Derives s (.filterRest e) pos e'' q
  | singleFilter {input pos args q} (hk : (s.get pos).kind = .name)
      (h : (s.get (pos + 1)).kind = .symbol .openParen → Derives s .arguments (pos + 1) args q)
      (h' : (s.get (pos + 1)).kind ≠ .symbol .openParen → args = .empty ∧ q = pos + 1) :
      Derives s (.singleFilter input) pos
        (.filter input (s.get pos).value args
          ⟨(input.map (·.span.start)).getD (s.get pos).span.start, s.endBefore q⟩) q
  | testPlain {subject pos negated p} (hi : s.Tests pos negated p) (hk : (s.get p).kind = .name)
      (hn : (s.get (p + 1)).kind ∉ .symbol .openParen :: bareArgumentStarts) :
      Derives s (.test subject) pos
        (testExpr negated (s.get pos).span.start subject (s.get p).value .empty (s.endBefore (p + 1))) (p + 1)
  | testParens {subject pos negated p args q} (hi : s.Tests pos negated p) (hk : (s.get p).kind = .name)
      (ho : (s.get (p + 1)).kind = .symbol .openParen) (h : Derives s .arguments (p + 1) args q) :
      Derives s (.test subject) pos
        (testExpr negated (s.get pos).span.start subject (s.get p).value args (s.endBefore q)) q
  | testArgument {subject pos negated p e q} (hi : s.Tests pos negated p) (hk : (s.get p).kind = .name)
      (ho : (s.get (p + 1)).kind ∈ bareArgumentStarts) (h : Derives s (.expression true) (p + 1) e q) :
      Derives s (.test subject) pos
        (testExpr negated (s.get pos).span.start subject (s.get p).value (.mk [e] [] none none) (s.endBefore q)) q

end Stencil
