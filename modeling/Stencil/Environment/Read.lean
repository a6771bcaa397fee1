/-
Reading whole sources under an environment: a template, or an expression that stands alone.
-/
import Stencil.Environment.Basic
import Stencil.Token.Scan

namespace Stencil

/-- A template with the environment it was read under. -/
structure Document where
  template : Template
  environment : Environment

namespace Environment

/-- The tokens of a template. -/
def tokens (env : Environment) (filename : Option Text) (source : Text) :
    Except Diagnostic (List Token) :=
  Scan.template env.delimiters env.isSound filename source

/-- The tokens of an expression that stands alone. -/
def expressionTokens (env : Environment) (filename : Option Text) (source : Text) :
    Except Diagnostic (List Token) :=
  Scan.expression env.delimiters env.isSound filename source

/-- The value of a parser on tokens, from the first one on. -/
def readTokens {α : Type} (env : Environment) (filename : Option Text) (p : Parser α)
    (ts : Except Diagnostic (List Token)) : Except Failure α :=
  match ts with
  | .error d => .error (.reported d)
  | .ok ts =>
    match Stream.ofTokens ts.toArray filename env.delimiters with
    | .error f => .error (.fault f)
    | .ok s =>
      match p s 0 with
      | .ok a _ => .ok a
      | .fail e _ => .error e

/-- The template that a source writes, or the first mistake in it. -/
def readTemplate (env : Environment) (filename : Option Text) (source : Text) :
    Except Failure Document :=
  (env.readTokens filename (env.grammar .template) (env.tokens filename source)).map (⟨·, env⟩)

/-- The template that a source writes, or the first mistake in it; a fault is neither. -/
def examine (env : Environment) (filename : Option Text) (source : Text) :
    Except Fault (Except Diagnostic Template) :=
  match env.readTemplate filename source with
  | .ok d => .ok (.ok d.template)
  | .error (.reported d) => .ok (.error d)
  | .error (.fault f) => .error f

/-- The expression that a source writes, or the first mistake in it. -/
def readExpression (env : Environment) (filename : Option Text) (source : Text) :
    Except Failure Expr :=
  env.readTokens filename env.grammar.wholeExpression (env.expressionTokens filename source)

end Environment
end Stencil
