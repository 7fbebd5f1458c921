import Pagewright.Error
import Pagewright.Identity.ScopedId

/-!
# The ids of one instance

A walk over a definition declares the full id of every tracked element once and
puts off the targets of labels until the whole definition has been seen.
`uniqueIds` is a second walk, over a finished instance with its generated rows.
-/

namespace Pagewright

/-- A label's target that waits for the end of the walk. -/
structure LabelTarget where
  fullId : String
  /-- The target as written. -/
  raw : String
  deriving DecidableEq, Repr

structure IdScope where
  /-- The full ids declared so far, latest first. -/
  declared : List String := []
  /-- The label targets met so far, latest first. -/
  targets : List LabelTarget := []
  /-- The walk sees every id there will be. -/
  complete : Bool := true
  deriving DecidableEq, Repr

namespace IdScope

def contains (scope : IdScope) (fullId : String) : Bool :=
  scope.declared.contains fullId

/-- Declares a full id that was not declared before. -/
def declare (scope : IdScope) (fullId : String) : Except Error IdScope :=
  if scope.contains fullId then .error (.scope (.duplicateId fullId))
  else .ok { scope with declared := fullId :: scope.declared }

def expect (scope : IdScope) (target : LabelTarget) : IdScope :=
  { scope with targets := target :: scope.targets }

/-- Some ids will only exist after instantiation. -/
def markIncomplete (scope : IdScope) : IdScope :=
  { scope with complete := false }

/-- Every label's target is declared, as far as that can be told. -/
def checkTargets (scope : IdScope) : Except Error Unit :=
  if !scope.complete then .ok ()
  else
    match scope.targets.reverse.find? fun target => !scope.contains target.fullId with
    | none => .ok ()
    | some target => .error (.reference (.undeclaredTarget target.raw target.fullId))

end IdScope

/-- Declares the id of one expression; the second result is what the ids below are relative to. -/
def declareId (expression : Expression) (stem : String) (scope : IdScope) :
    Except Error (IdScope × String) :=
  match expression.text? "id" with
  | none => .ok (scope, stem)
  | some raw =>
    let id := ScopedId.split raw
    if id.isTracked then do
      let scope ← scope.declare (id.fullId stem)
      return (scope, id.fullId stem)
    else
      .ok (scope, stem)

mutual

/-- Declares every tracked id of an expression and of all its blocks. -/
def collectIds : Expression → String → IdScope → Except Error IdScope
  | ⟨id, parent, kind, arguments⟩, stem, scope => do
    let (scope, stem) ← declareId ⟨id, parent, kind, arguments⟩ stem scope
    collectArguments arguments stem scope

def collectArguments : List (String × Argument) → String → IdScope → Except Error IdScope
  | [], _, scope => .ok scope
  | (_, value) :: rest, stem, scope => do
    let scope ← collectArgument value stem scope
    collectArguments rest stem scope

def collectArgument : Argument → String → IdScope → Except Error IdScope
  | .block children, stem, scope => collectBlock children stem scope
  | _, _, scope => .ok scope

def collectBlock : List Expression → String → IdScope → Except Error IdScope
  | [], _, scope => .ok scope
  | child :: rest, stem, scope => do
    let scope ← collectIds child stem scope
    collectBlock rest stem scope

end

/-- The ids of a finished instance, no two tracked elements having the same full id. -/
def uniqueIds (root : Expression) (stem : String) : Except Error IdScope :=
  collectIds root stem {}

end Pagewright
