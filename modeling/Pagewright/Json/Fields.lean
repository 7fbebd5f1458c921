import Pagewright.Error
import Pagewright.Json.Basic

/-!
# Reading records from JSON

A record is an object with a field for each of its names, or an array with one
item for each of them in order. A field that is given twice is refused; whether
a field of another name is refused is for the reader to say.
-/

namespace Pagewright

namespace Json

/-- A value that is not what was asked for. -/
def refuse {α : Type} (reason : String) : Except Error α :=
  .error (.encoding reason)

/-- The fields of a record, of which only the first of each name is kept. -/
def gather (names : List String) (strict : Bool) :
    List (String × Json) → Except Error (List (String × Json))
  | [] => .ok []
  | (name, value) :: rest =>
    if names.contains name then
      if (rest.lookup name).isSome then refuse s!"duplicate field `{name}`"
      else do
        let rest ← gather names strict rest
        return (name, value) :: rest
    else if strict then refuse s!"unknown field `{name}`"
    else gather names strict rest

/-- The fields of a record with these names. -/
def record (names : List String) (strict : Bool) : Json → Except Error (List (String × Json))
  | .object fields => gather names strict fields
  | .array items =>
    if items.length = names.length then .ok (names.zip items)
    else refuse "invalid length"
  | _ => refuse "invalid type"

variable {α : Type}

/-- A value that `read` takes. -/
def expect (read : Json → Option α) (value : Json) : Except Error α :=
  match read value with
  | some value => .ok value
  | none => refuse "invalid type"

/-- A field that has to be there. -/
def required (fields : List (String × Json)) (name : String) (read : Json → Except Error α) :
    Except Error α :=
  match fields.lookup name with
  | some value => read value
  | none => refuse s!"missing field `{name}`"

/-- A field that may be missing or null. -/
def optional (fields : List (String × Json)) (name : String) (read : Json → Except Error α) :
    Except Error (Option α) :=
  match fields.lookup name with
  | none => .ok none
  | some .null => .ok none
  | some value => (read value).map some

def texts (value : Json) : Except Error (List String) := do
  (← expect array? value).mapM (expect text?)

end Json

end Pagewright
