/-
What may be written to. `canAssign` decides whether an expression is a target, `toTarget` gives the
target with its usage, and `targetKind` names an expression that is none.
-/
import Stencil.Tree.Expr

namespace Stencil

/-- Constant names cannot be bound. -/
def canBind (name : Text) : Bool := (Constant.ofName? name).isNone

namespace Expr

mutual

/-- The expression is a name that can be bound, a subscript, or a tuple of such expressions. -/
def canAssign : Expr → Bool
  | name n _ _ => canBind n
  | tuple items _ _ => canAssignAll items
  | subscript .. => true
  | _ => false

/-- Every expression of a list may be written to. -/
def canAssignAll : List Expr → Bool
  | [] => true
  | e :: es => canAssign e && canAssignAll es

end

mutual

/-- The expression as a target. The items of a tuple become targets too; the object and the index of
a subscript stay as they are. -/
def toTarget (usage : Usage) : Expr → Option Expr
  | name n _ s => if canBind n then some (name n usage s) else none
  | tuple items _ s => (toTargets usage items).map fun ts => tuple ts usage s
  | subscript o i _ s => some (subscript o i usage s)
  | _ => none

/-- The targets of a list of expressions, if all of them are targets. -/
def toTargets (usage : Usage) : List Expr → Option (List Expr)
  | [] => some []
  | e :: es =>
    match toTarget usage e with
    | none => none
    | some t => (toTargets usage es).map (t :: ·)

end

/-- The name of the kind of an expression. -/
def typeName : Expr → Text
  | const .. => "Const" | name .. => "Name" | tuple .. => "Tuple" | list .. => "List"
  | dict .. => "Dict" | binary .. => "BinaryExpr" | unary .. => "UnaryExpr"
  | compare .. => "Compare" | cond .. => "CondExpr" | subscript .. => "Subscript"
  | slice .. => "Slice" | call .. => "Call" | filter .. => "Filter" | test .. => "Test"

/-- What a message calls an expression that cannot be written to: an operator by its name, a name by
itself, all others by their kind. -/
def targetKind : Expr → Text
  | binary op .. => op.text
  | unary op .. => op.text
  | name n .. => n
  | e => e.typeName.lower

end Expr
end Stencil
