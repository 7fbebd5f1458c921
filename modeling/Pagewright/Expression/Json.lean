import Pagewright.Expression.Basic
import Pagewright.Json.Fields

/-!
# Expressions in JSON

An expression is an object with its four parts; an argument is an object with
one field, named for its form. Arguments are read from an object in any order.
Each reader takes what its writer writes.
-/

namespace Pagewright

/-! ### Writing -/

mutual

def Expression.toJson : Expression → Json
  | ⟨id, parent, kind, arguments⟩ =>
    .object
      [("id", .ofNat id.toNat),
        ("parent", Json.ofOption (fun parent : ExpressionId => .ofNat parent.toNat) parent),
        ("kind", .text kind),
        ("arguments", .object (argumentsToJson arguments))]

def argumentsToJson : List (String × Argument) → List (String × Json)
  | [] => []
  | (name, value) :: rest => (name, value.toJson) :: argumentsToJson rest

def Argument.toJson : Argument → Json
  | .atom name => .object [("Atom", .text name)]
  | .text value => .object [("String", .text value)]
  | .number digits => .object [("Number", .text digits)]
  | .block children => .object [("Block", .array (blockToJson children))]
  | .list items => .object [("List", .array (itemsToJson items))]

def blockToJson : List Expression → List Json
  | [] => []
  | child :: rest => child.toJson :: blockToJson rest

def itemsToJson : List Argument → List Json
  | [] => []
  | item :: rest => item.toJson :: itemsToJson rest

end

/-! ### Reading -/

/-- An identifier below `2 ^ 32`. -/
def idOfJson? (json : Json) : Option ExpressionId :=
  match json.word? with
  | some value => if value < UInt32.size then some value.toUInt32 else none
  | none => none

/-- The identifier of a parent, or none. -/
def parentOfJson? : Option Json → Option (Option ExpressionId)
  | none | some .null => some none
  | some json => (idOfJson? json).map some

mutual

/-- Reads an expression nested at most `budget` deep. -/
def expressionWithin : Nat → Json → Option Expression
  | 0, _ => none
  | budget + 1, json => do
    let id ← (json.field? "id").bind idOfJson?
    let parent ← parentOfJson? (json.field? "parent")
    let kind ← (json.field? "kind").bind Json.text?
    let fields ← (json.field? "arguments").bind Json.object?
    let arguments ← fields.mapM fun (name, value) => do
      return (name, ← argumentWithin budget value)
    return { id, parent, kind, arguments := Entries.ofList arguments }

/-- Reads an argument nested at most `budget` deep. -/
def argumentWithin : Nat → Json → Option Argument
  | 0, _ => none
  | budget + 1, json =>
    match json with
    | .object [("Atom", .text name)] => some (.atom name)
    | .object [("String", .text value)] => some (.text value)
    | .object [("Number", .text digits)] => some (.number digits)
    | .object [("Block", .array children)] => do
      return .block (← children.mapM (expressionWithin budget))
    | .object [("List", .array items)] => do
      return .list (← items.mapM (argumentWithin budget))
    | _ => none

end

def Expression.ofJson? (json : Json) : Option Expression :=
  expressionWithin json.depth json

def Argument.ofJson? (json : Json) : Option Argument :=
  argumentWithin json.depth json

end Pagewright
