import Pagewright.Expression.Basic
import Pagewright.Text.Identifier

/-!
# Written ids and full ids

An id as written starts with a sigil that says what it is relative to. A plain
id is appended to the id of what it stands in, an id after `#` to the id of the
page, and an id after `$` is used as it is. Only the first two are tracked:
they have to be unique and name a node of the page's tree.
-/

namespace Pagewright

inductive Flavor where
  /-- Below the nearest tracked id around it. -/
  | relative
  /-- Directly below the page. -/
  | global
  /-- Used as it is. -/
  | literal
  deriving DecidableEq, Repr

/-- An id without its sigil. -/
structure ScopedId where
  flavor : Flavor
  name : String
  deriving DecidableEq, Repr

/-- The id of every page's outermost element. -/
def pageStem : String :=
  "page"

namespace ScopedId

/-- Takes the sigil off, whatever follows it. -/
def split (raw : String) : ScopedId :=
  match raw.toList with
  | '#' :: rest => ⟨.global, String.ofList rest⟩
  | '$' :: rest => ⟨.literal, String.ofList rest⟩
  | _ => ⟨.relative, raw⟩

/-- Takes the sigil off an identifier. -/
def parse? (raw : String) : Option ScopedId :=
  let id := split raw
  if isIdentifier id.name then some id else none

/-- The full id, where `stem` is the full id of the nearest tracked element around it. -/
def fullId (id : ScopedId) (stem : String) : String :=
  match id.flavor with
  | .relative => stem ++ "-" ++ id.name
  | .global => pageStem ++ "-" ++ id.name
  | .literal => id.name

def isTracked (id : ScopedId) : Bool :=
  id.flavor != .literal

end ScopedId

/-- What the ids of the definition `name` are relative to. -/
def rootStem (expression : Expression) (name : String) : String :=
  if expression.kind = "page" then pageStem else name

end Pagewright
