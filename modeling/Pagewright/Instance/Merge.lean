import Pagewright.Expression.Basic

/-!
# Merging a definition into what refers to it

The referring expression keeps its identifier, its place and every argument it
gives itself. Style sheets, scripts, styles and classes are joined, its own
entries first. Whatever else it lacks is taken from the definition, whose name
does not come along.
-/

namespace Pagewright

/-- Arguments whose lists are joined. -/
def joinedNames : List String :=
  ["style_sheets", "scripts", "styles", "classes"]

/-- Arguments that are never taken from a definition. -/
def ownNames : List String :=
  ["defines", "inherits"]

mutual

/-- Makes `owner` the parent of the expressions in an argument. -/
def Argument.adopt (owner : ExpressionId) : Argument → Argument
  | .block children => .block (children.map fun child => { child with parent := some owner })
  | .list items => .list (adoptItems owner items)
  | .atom name => .atom name
  | .text value => .text value
  | .number digits => .number digits

def adoptItems (owner : ExpressionId) : List Argument → List Argument
  | [] => []
  | item :: rest => item.adopt owner :: adoptItems owner rest

end

/-- Takes one argument of a definition over into the arguments of `owner`. -/
def mergeArgument (owner : ExpressionId) (own : Arguments) (name : String) (value : Argument) :
    Arguments :=
  if ownNames.contains name then own
  else
    match own.lookup name, value with
    | none, value => Entries.insert name (value.adopt owner) own
    | some (.list items), .list taken =>
      if joinedNames.contains name then Entries.insert name (.list (items ++ taken)) own else own
    | some _, _ => own

/-- Merges a definition's instance into the expression that refers to it. -/
def merge (child parent : Expression) : Expression :=
  { child with
    kind := parent.kind
    arguments :=
      parent.arguments.foldl (fun own entry => mergeArgument child.id own entry.1 entry.2)
        (Entries.erase child.arguments "inherits") }

end Pagewright
