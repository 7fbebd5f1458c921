import Pagewright.Entries
import Pagewright.Expression.Number

/-!
# JSON values

Numbers are kept as written, since some readers accept only those without a
sign, a fraction or an exponent. Fields are kept in the order in which they were
written, repeated names included.
-/

namespace Pagewright

inductive Json where
  | null
  | bool (value : Bool)
  | number (written : String)
  | text (value : String)
  /-- A string with half of a surrogate pair in it, which is no text, or an object with such a name.
  It may only stand where nobody reads it. -/
  | unpaired
  | array (items : List Json)
  | object (fields : List (String × Json))

namespace Json

def ofNat (value : Nat) : Json :=
  .number (toString value)

def ofOption {α : Type} (encode : α → Json) : Option α → Json
  | none => .null
  | some value => encode value

def text? : Json → Option String
  | .text value => some value
  | _ => none

def bool? : Json → Option Bool
  | .bool value => some value
  | _ => none

/-- A number without sign, fraction and exponent, below `2 ^ 64`. -/
def word? : Json → Option Nat
  | .number written => wordValue? written.toList
  | _ => none

def array? : Json → Option (List Json)
  | .array items => some items
  | _ => none

def object? : Json → Option (List (String × Json))
  | .object fields => some fields
  | _ => none

/-- The value of a field of an object; of a repeated one, the last. -/
def field? (json : Json) (name : String) : Option Json :=
  json.object?.bind fun fields => fields.reverse.lookup name

mutual

def depth : Json → Nat
  | .array items => depthOfItems items + 1
  | .object fields => depthOfFields fields + 1
  | _ => 1

def depthOfItems : List Json → Nat
  | [] => 0
  | item :: rest => max (depth item) (depthOfItems rest)

def depthOfFields : List (String × Json) → Nat
  | [] => 0
  | (_, value) :: rest => max (depth value) (depthOfFields rest)

end

end Json

end Pagewright
