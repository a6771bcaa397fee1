/-
How statements are composed. `Composes` relates a rule for statements and a position to what the rule reads
there and to the position behind it, as `Derives` does for expressions; what it takes of expressions is left to
a relation `reads`, so that it can be as much as is needed. The extensions are those of the library.
-/
import Stencil.Grammar.Statement
import Stencil.Proofs.Derivation.Basic
import Stencil.Proofs.Derivation.Outcome

namespace Stencil

open Grammar

/-! ## Parts of rules -/

/-- The data of a token, as a part of an output. -/
def Token.pieces (t : Token) : List Expr := if t.value = [] then [] else [.const (.text t.value) t.span]

namespace Stream

variable (s : Stream)

/-- The token at the position is a given plain name. -/
def Names (pos : Nat) (name : Text) : Prop := (s.get pos).kind = .name ∧ (s.get pos).value = name

/-- A name that can be bound stands at the position. -/
def Binds (pos : Nat) : Prop := (s.get pos).kind = .name ∧ canBind (s.get pos).value = true

/-- A name to import stands at the position, and behind it the name that it gets. -/
inductive Imports (pos : Nat) : ImportName → Nat → Prop
  | plain (h : s.Binds pos) (hp : (s.get pos).value.startsWith "__" = false) (ha : ¬s.Names (pos + 1) "as") :
      Imports pos ⟨(s.get pos).value, none⟩ (pos + 1)
  | renamed (h : s.Binds pos) (hp : (s.get pos).value.startsWith "__" = false) (ha : s.Names (pos + 1) "as")
      (h' : s.Binds (pos + 2)) : Imports pos ⟨(s.get pos).value, some (s.get (pos + 2)).value⟩ (pos + 3)

end Stream

/-- A relation between rules, positions, and trees with the positions behind them. -/
abbrev Reading : Type := ⦃p : Phrase⦄ → Rule p → Nat → p.Tree → Nat → Prop

/-- The head of a loop: its target as it is written to, its iterable, and its filter if there is one. -/
inductive Stream.HeadsLoop (s : Stream) (reads : Reading) (pos : Nat) : Expr → Expr → Option Expr → Nat → Prop
  | mk {target t p iter p' test q} (hk : (s.get pos).kind = .keyword .forTag)
      (ht : reads (.tuple .primary) (pos + 1) target p) (hs : target.toTarget .store = some t)
      (hin : (s.get p).kind = .keyword .inOp) (hi : reads (.tuple (.expression false)) (p + 1) iter p')
      (hf : ∀ e, test = some e → (s.get p').kind = .keyword .ifTag ∧ reads (.expression true) (p' + 1) e q)
      (hf' : test = none → q = p') : HeadsLoop s reads pos t iter test q

/-! ## Derivations -/

/-- The rule reads the statements from the first position up to the second one, if `reads` says what is read of
expressions. -/
inductive Composes (s : Stream) (reads : Reading) : {p : Phrase} → Rule p → Nat → p.Tree → Nat → Prop
  -- one statement
  | keyword {pos k r st q} (hk : (s.get pos).kind = .keyword k) (hr : statementRule? k = some r)
      (h : Composes s reads r pos st q) : Composes s reads .statement pos (.one st) q
  | simple {pos e q} (h : reads (.tuple (.expression true)) pos e q) (ha : (s.get q).kind ≠ .symbol .assign) :
      Composes s reads .statement pos (.one (.expr e e.span)) q
  | assignment {pos e p st q} (h : reads (.tuple (.expression true)) pos e p)
      (hs : Composes s reads (.assign e) p st q) : Composes s reads .statement pos (.one st) q
  | doStatement {pos e q} (hk : (s.get pos).kind = .name) (h : reads (.tuple (.expression true)) (pos + 1) e q) :
      Composes s reads .statement pos (.one (.expr e ⟨(s.get pos).span.start, e.span.finish⟩)) q
  | breakLoop {pos} (hk : (s.get pos).kind = .name) :
      Composes s reads .statement pos (.one (.breakLoop (s.get pos).span)) (pos + 1)
  | continueLoop {pos} (hk : (s.get pos).kind = .name) :
      Composes s reads .statement pos (.one (.continueLoop (s.get pos).span)) (pos + 1)
  | assign {target pos t value q} (ha : (s.get pos).kind = .symbol .assign) (ht : target.toTarget .store = some t)
      (h : reads (.tuple (.expression true)) (pos + 1) value q) :
      Composes s reads (.assign target) pos (.assign t value ⟨target.span.start, value.span.finish⟩) q
  -- bodies
  | statements {ends dropEnd pos p body q} (hc : p = pos ∨ (s.get pos).kind = .symbol .colon ∧ p = pos + 1)
      (hb : (s.get p).kind = .blockEnd) (h : Composes s reads (.content (some ends) []) (p + 1) body q)
      (he : (s.get q).kind ∈ ends) :
      Composes s reads (.statements ends dropEnd) pos body (if dropEnd = true then s.next q else q)
  | data {ends pending pos body q} (hk : (s.get pos).kind = .data)
      (h : Composes s reads (.content ends (pending ++ (s.get pos).pieces)) (pos + 1) body q) :
      Composes s reads (.content ends pending) pos body q
  | interpolation {ends pending pos e p body q} (hk : (s.get pos).kind = .variableBegin)
      (h : reads (.tuple (.expression true)) (pos + 1) e p) (hv : (s.get p).kind = .variableEnd)
      (hr : Composes s reads (.content ends (pending ++ [e])) (p + 1) body q) :
      Composes s reads (.content ends pending) pos body q
  | endTag {ends pending pos} (hk : (s.get pos).kind = .blockBegin) (he : (s.get (pos + 1)).kind ∈ ends.getD []) :
      Composes s reads (.content ends pending) pos (output pending) (pos + 1)
  | tag {ends pending pos splice p rest q} (hk : (s.get pos).kind = .blockBegin)
      (he : (s.get (pos + 1)).kind ∉ ends.getD []) (h : Composes s reads .statement (pos + 1) splice p)
      (hb : (s.get p).kind = .blockEnd) (hr : Composes s reads (.content ends []) (p + 1) rest q) :
      Composes s reads (.content ends pending) pos (output pending ++ splice.toList ++ rest) q
  | sourceEnd {ends pending pos} (hk : (s.get pos).kind = .eof) :
      Composes s reads (.content ends pending) pos (output pending) pos
  | template {pos body q} (h : Composes s reads (.content none []) pos body q) :
      Composes s reads .template pos ⟨body, ⟨.origin, (s.get q).span.finish⟩⟩ q
  -- loops and conditionals
  | loop {pos t iter test p body q} (hh : s.HeadsLoop reads pos t iter test p)
      (hb : Composes s reads (.statements [.keyword .endFor, .keyword .elseTag] false) p body q)
      (he : (s.get q).kind = .keyword .endFor) :
      Composes s reads .loop pos
        (.loop t iter body [] test ⟨(s.get pos).span.start, s.endBefore (q + 1)⟩) (q + 1)
  | loopElse {pos t iter test p body p' elseBody q} (hh : s.HeadsLoop reads pos t iter test p)
      (hb : Composes s reads (.statements [.keyword .endFor, .keyword .elseTag] false) p body p')
      (he : (s.get p').kind = .keyword .elseTag)
      (hr : Composes s reads (.statements [.keyword .endFor] true) (p' + 1) elseBody q) :
      Composes s reads .loop pos
        (.loop t iter body elseBody test ⟨(s.get pos).span.start, s.endBefore q⟩) q
  | conditional {pos test p body p' bs q} (hk : (s.get pos).kind = .keyword .ifTag)
      (ht : reads (.tuple (.expression true)) (pos + 1) test p)
      (hb : Composes s reads (.statements branchEnds false) p body p') (hr : Composes s reads .branches p' bs q) :
      Composes s reads .conditional pos (branchStmt (s.endBefore q) ⟨(s.get pos).span.start, test, body⟩
        (nestBranches (s.endBefore q) bs)) q
  | elifBranch {pos test p body p' bs q} (hk : (s.get pos).kind = .keyword .elifTag)
      (ht : reads (.tuple (.expression true)) (pos + 1) test p)
      (hb : Composes s reads (.statements branchEnds false) p body p') (hr : Composes s reads .branches p' bs q) :
      Composes s reads .branches pos ⟨⟨(s.get pos).span.start, test, body⟩ :: bs.elifs, bs.elseBody⟩ q
  | elseBranch {pos body q} (hk : (s.get pos).kind = .keyword .elseTag)
      (h : Composes s reads (.statements [.keyword .endIf] true) (pos + 1) body q) :
      Composes s reads .branches pos ⟨[], body⟩ q
  | noBranch {pos} (hi : (s.get pos).kind ≠ .keyword .elifTag) (he : (s.get pos).kind ≠ .keyword .elseTag) :
      Composes s reads .branches pos ⟨[], []⟩ (s.next pos)
  -- parts of templates
  | block {pos body q} (hk : (s.get pos).kind = .keyword .blockTag) (hn : (s.get (pos + 1)).kind = .name)
      (h : Composes s reads (.statements [.keyword .endBlock] true) (pos + 2) body q) :
      Composes s reads .block pos
        (.block (s.get (pos + 1)).value body ⟨(s.get pos).span.start, s.endBefore q⟩) q
  | extend {pos e q} (hk : (s.get pos).kind = .keyword .extendsTag) (h : reads (.expression true) (pos + 1) e q) :
      Composes s reads .extend pos (.extend e ⟨(s.get pos).span.start, e.span.finish⟩) q
  | embed {pos e q} (hk : (s.get pos).kind = .keyword .includeTag) (h : reads (.expression true) (pos + 1) e q) :
      Composes s reads .embed pos (.embed e ⟨(s.get pos).span.start, e.span.finish⟩) q
  | importAs {pos e p} (hk : (s.get pos).kind = .keyword .importTag) (h : reads (.expression true) (pos + 1) e p)
      (ha : s.Names p "as") (hb : s.Binds (p + 1)) :
      Composes s reads .importAs pos
        (.importAs e (s.get (p + 1)).value ⟨(s.get pos).span.start, s.endBefore (p + 2)⟩) (p + 2)
  | importNames {pos e p names p' q} (hk : (s.get pos).kind = .keyword .fromTag)
      (h : reads (.expression true) (pos + 1) e p) (hi : (s.get p).kind = .keyword .importTag)
      (hn : Composes s reads (.nameItems true) (p + 1) names p')
      (hq : q = p' ∨ (s.get p').kind = .symbol .comma ∧ q = p' + 1) :
      Composes s reads .importNames pos
        (.importNames e names ⟨(s.get pos).span.start, s.endBefore q⟩) q
  | nameNone {first pos p} (hp : s.Enters first pos p) (hk : (s.get p).kind ≠ .name) :
      Composes s reads (.nameItems first) pos [] p
  | nameLast {first pos p n q} (hp : s.Enters first pos p) (hn : s.Imports p n q)
      (hc : (s.get q).kind ≠ .symbol .comma) : Composes s reads (.nameItems first) pos [n] q
  | nameMore {first pos p n p' ns q} (hp : s.Enters first pos p) (hn : s.Imports p n p')
      (hc : (s.get p').kind = .symbol .comma) (hr : Composes s reads (.nameItems false) p' ns q) :
      Composes s reads (.nameItems first) pos (n :: ns) q
  | print {pos es q} (hk : (s.get pos).kind = .keyword .printTag) (h : reads (.printItems true) (pos + 1) es q) :
      Composes s reads .print pos (.output es ⟨(s.get pos).span.start, s.endBefore q⟩) q
  -- macros and the blocks that call
  | signature {pos sig p} (ho : (s.get pos).kind = .symbol .openParen)
      (h : Composes s reads (.signatureRest ⟨[], []⟩) (pos + 1) sig p) (hc : (s.get p).kind = .symbol .closeParen) :
      Composes s reads .signature pos sig (p + 1)
  | signatureEnd {sofar pos} (hk : (s.get pos).kind = .symbol .closeParen) :
      Composes s reads (.signatureRest sofar) pos sofar pos
  | required {params pos p sig q} (hp : s.Enters params.isEmpty pos p) (hb : s.Binds p)
      (hd : (s.get (p + 1)).kind ≠ .symbol .assign)
      (hr : Composes s reads (.signatureRest ⟨params ++ [⟨(s.get p).value, (s.get p).span⟩], []⟩) (p + 1) sig q) :
      Composes s reads (.signatureRest ⟨params, []⟩) pos sig q
  | optional {params defaults pos p e p' sig q} (hp : s.Enters params.isEmpty pos p) (hb : s.Binds p)
      (hd : (s.get (p + 1)).kind = .symbol .assign) (h : reads (.expression true) (p + 2) e p')
      (hr : Composes s reads
        (.signatureRest ⟨params ++ [⟨(s.get p).value, (s.get p).span⟩], defaults ++ [e]⟩) p' sig q) :
      Composes s reads (.signatureRest ⟨params, defaults⟩) pos sig q
  | define {pos sig p body q} (hk : (s.get pos).kind = .keyword .macroTag) (hb : s.Binds (pos + 1))
      (hs : Composes s reads .signature (pos + 2) sig p)
      (h : Composes s reads (.statements [.keyword .endMacro] true) p body q) :
      Composes s reads .define pos
        (.define (s.get (pos + 1)).value sig body ⟨(s.get pos).span.start, s.endBefore q⟩) q
  | callBlock {pos sig p callee args span p' body q} (hk : (s.get pos).kind = .keyword .callTag)
      (hs : (s.get (pos + 1)).kind = .symbol .openParen → Composes s reads .signature (pos + 1) sig p)
      (hs' : (s.get (pos + 1)).kind ≠ .symbol .openParen → sig = ⟨[], []⟩ ∧ p = pos + 1)
      (he : reads (.expression true) p (.call callee args span) p')
      (h : Composes s reads (.statements [.keyword .endCall] true) p' body q) :
      Composes s reads .callBlock pos
        (.callBlock sig (.call callee args span) body ⟨(s.get pos).span.start, s.endBefore q⟩) q
  | filterBlock {pos e p body q} (hk : (s.get pos).kind = .keyword .filterTag)
      (he : reads (.filterChain none) (pos + 1) e p)
      (h : Composes s reads (.statements [.keyword .endFilter] true) p body q) :
      Composes s reads .filterBlock pos (.filterBlock e body ⟨(s.get pos).span.start, s.endBefore q⟩) q

/-- A body that its last word is left for ends where one of its words stands. -/
theorem Composes.ends_mem {s : Stream} {reads : Reading} {ends : List TokenKind} {pos q : Nat} {body : List Stmt}
    (h : Composes s reads (.statements ends false) pos body q) : (s.get q).kind ∈ ends := by
  cases h with
  | statements _ _ _ he => exact he

end Stencil
