import Pagewright.Error
import Pagewright.Expression.Copy

/-!
# Substitution

Actual arguments take the place of formal parameters. An atom that names a
parameter is replaced by the actual. A child in a block whose kind names a
parameter is renamed when the actual is an atom, and replaced by the expressions
of the actual when it is a block. Everything put in is a fresh copy; what was
there before keeps its identifier.
-/

namespace Pagewright

abbrev Bindings := Entries Argument

mutual

/-- Replaces bound parameters in an expression. -/
def substitute (bindings : Bindings) : Expression → EStateM Error Supply Expression
  | ⟨id, parent, kind, arguments⟩ => do
    let arguments ← substituteArguments bindings id arguments
    return ⟨id, parent, kind, arguments⟩

def substituteArguments (bindings : Bindings) (owner : ExpressionId) :
    List (String × Argument) → EStateM Error Supply (List (String × Argument))
  | [] => return []
  | (name, value) :: rest => do
    let value ← substituteArgument bindings owner value
    let rest ← substituteArguments bindings owner rest
    return (name, value) :: rest

def substituteArgument (bindings : Bindings) (owner : ExpressionId) :
    Argument → EStateM Error Supply Argument
  | .atom name =>
    match bindings.lookup name with
    | some actual => modifyGet (actual.copy owner)
    | none => return .atom name
  | .list items => return .list (← substituteItems bindings owner items)
  | .block children => return .block (← substituteBlock bindings owner children)
  | .text value => return .text value
  | .number digits => return .number digits

def substituteItems (bindings : Bindings) (owner : ExpressionId) :
    List Argument → EStateM Error Supply (List Argument)
  | [] => return []
  | item :: rest => do
    let item ← substituteArgument bindings owner item
    let rest ← substituteItems bindings owner rest
    return item :: rest

def substituteBlock (bindings : Bindings) (owner : ExpressionId) :
    List Expression → EStateM Error Supply (List Expression)
  | [] => return []
  | child :: rest => do
    match bindings.lookup child.kind with
    | none =>
      let child ← substitute bindings child
      let rest ← substituteBlock bindings owner rest
      return child :: rest
    | some (.atom kind) =>
      let child ← substitute bindings child
      let rest ← substituteBlock bindings owner rest
      return { child with kind } :: rest
    | some (.block replacement) =>
      if !child.arguments.isEmpty then
        throw (.substitution (.spliceWithArguments child.kind))
      let spliced ← modifyGet (copyBlock replacement owner)
      let rest ← substituteBlock bindings owner rest
      return spliced ++ rest
    | some other => throw (.substitution (.notAnExpression child.kind other.typeName))

end

end Pagewright
