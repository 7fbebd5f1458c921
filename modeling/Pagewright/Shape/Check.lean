import Pagewright.Definition.Marker
import Pagewright.Shape.Walk

/-!
# Checking definitions

A definition is walked once. While it is walked it is marked as being processed,
so that a request that comes back to it closes a cycle; afterwards it is marked
as done, whatever the walk said.

Every definition that is walked inside another walk was only discovered before,
so walks nest at most as deep as the table is long. This is the budget of
`checkSymbol`.
-/

namespace Pagewright

/-- Looks a definition up and hands it to `process` unless it has been seen. -/
def visit (table : Table) (name : String) (process : Definition → EStateM Error Markers Unit) :
    EStateM Error Markers Unit := do
  match table.find? name with
  | none => throw (.reference (.unknownDefinition name))
  | some definition =>
    match (← get).get name with
    | .done => return
    | .processing => throw (.cycle name)
    | .discovered => process definition

/-- Walks a definition between its two changes of marker. -/
def process (rules : Rules Markers) (definition : Definition) : EStateM Error Markers Unit :=
  fun markers =>
    match walkDefinition rules definition.expression definition.name
        (markers.set definition.name .processing) with
    | .ok _ markers => .ok () (markers.set definition.name .done)
    | .error error markers =>
      .error (error.inDefinition definition.name) (markers.set definition.name .done)

/-- Checks the definition `name`, with walks nested at most `budget` deep. -/
def checkWithin (table : Table) (rowLimit : Nat) : Nat → String → EStateM Error Markers Unit
  | 0, name => visit table name fun _ => throw (.cycle name)
  | budget + 1, name =>
    visit table name (process { table, rowLimit, request := checkWithin table rowLimit budget })

/-- Checks the definition `name` and everything it refers to. -/
def checkSymbol (table : Table) (rowLimit : Nat) (name : String) : EStateM Error Markers Unit :=
  checkWithin table rowLimit table.size name

/-- The rules under which the definitions of a table are checked. -/
def tableRules (table : Table) (rowLimit : Nat) : Rules Markers :=
  { table, rowLimit, request := checkSymbol table rowLimit }

/-- Checks all definitions, in the table's order. -/
def checkAll (table : Table) (rowLimit : Nat) : EStateM Error Markers Unit :=
  table.names.forM (checkSymbol table rowLimit)

/-- Checks a fully instantiated tree as the definition `name`, and returns its ids. -/
def checkInstance (table : Table) (rowLimit : Nat) (inst : Expression) (name : String) :
    EStateM Error Markers IdScope := do
  if !inst.isConcrete then
    throw (.internal (.unresolvedInstance name))
  let ids ←
    (walkDefinition (tableRules table rowLimit) inst name).adaptExcept (Error.inDefinition name)
  match ids with
  | some ids => return ids
  | none => throw (.internal (.untrackedInstance name))

end Pagewright
