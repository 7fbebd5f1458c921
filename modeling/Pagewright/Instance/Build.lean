import Pagewright.Instance.Merge
import Pagewright.Instance.Substitution
import Pagewright.Shape.Check

/-!
# Instances

Every definition without parameters becomes a concrete tree:

1. the definition is copied, and its parameters are bound to arguments of the
   expression that refers to it;
2. references in its blocks are resolved, then the definition it inherits from
   or refers to by its kind is instantiated and merged into it;
3. the result is checked again as a definition of its own;
4. lists that start with rows get them;
5. pages get the scripts every page loads.

Two stacks hold the definitions being resolved and the definitions being built.
A name that is already on the stack closes a cycle, so neither grows longer than
the table has names, and one more for a name that is not in the table. This is
the budget of `refer` and of `build`.
-/

namespace Pagewright

/-- What building works from. -/
structure Plan where
  table : Table
  /-- The largest number of rows a list may start with. -/
  rowLimit : Nat
  /-- The scripts that every page loads before its own. -/
  defaultScripts : List String

/-- What building has done so far. -/
structure Workshop where
  ids : Supply := {}
  markers : Markers := {}
  /-- Finished instances, before pages get their scripts. -/
  finished : List (String × Expression) := []
  /-- Definitions whose instance is being built, innermost first. -/
  building : List String := []
  /-- Definitions being copied and resolved, innermost first. -/
  resolving : List String := []
  /-- Style sheets and scripts that pages name, in increasing order. -/
  files : List String := []

/-- A step of building; what it did before it failed stays done. -/
abbrev Building := EStateM Error Workshop

/-- Instantiates a definition for a reference that has certain arguments, and returns the
arguments it did not use up as well. -/
abbrev Refer := String → Arguments → Building (Expression × Arguments)

namespace Building

variable {α : Type}

/-- A step on a state that is made from the workshop. What it leaves of this state goes back into the
workshop, also when it fails. -/
def within {σ : Type} (enter : Workshop → σ) (leave : Workshop → σ → Workshop)
    (action : EStateM Error σ α) : Building α := fun workshop =>
  match action (enter workshop) with
  | .ok value state => .ok value (leave workshop state)
  | .error error state => .error error (leave workshop state)

def onIds : EStateM Error Supply α → Building α :=
  within Workshop.ids fun workshop ids => { workshop with ids }

def onMarkers : EStateM Error Markers α → Building α :=
  within Workshop.markers fun workshop markers => { workshop with markers }

/-- A step with `name` on the stack of definitions being resolved. -/
def whileResolving (name : String) : Building α → Building α :=
  within (fun workshop => { workshop with resolving := name :: workshop.resolving })
    fun _ workshop => { workshop with resolving := workshop.resolving.tail }

/-- A step with `name` on the stack of definitions being built. -/
def whileBuilding (name : String) : Building α → Building α :=
  within (fun workshop => { workshop with building := name :: workshop.building })
    fun _ workshop => { workshop with building := workshop.building.tail }

end Building

open Building

/-! ### References -/

/-- Binds the formal parameters of `target`, taking their actuals away from the arguments of the
reference. -/
def bindFormals (target : String) : List String → Arguments → Except Error (Bindings × Arguments)
  | [], site => .ok ([], site)
  | formal :: rest, site =>
    match site.lookup formal with
    | none => .error (.reference (.missingParameter formal target))
    | some actual => do
      let (bindings, site) ← bindFormals target rest (Entries.erase site formal)
      return (Entries.insert formal actual bindings, site)

/-- Joins an expression whose blocks are resolved with the definition it takes something from. -/
def join (refer : Refer) (expression : Expression) : Building Expression := do
  let taken (target : String) : Building Expression := do
    let (parent, arguments) ← refer target (Entries.erase expression.arguments "inherits")
    return merge { expression with arguments } parent
  match expression.get? "inherits" with
  | some (.text target) => taken target
  | some other =>
    throw (.substitution (.inheritsNotText expression.kind other.typeName))
  | none =>
    if Kind.isBuiltIn expression.kind then return expression else taken expression.kind

mutual

/-- Resolves the references in the blocks of an expression, then the expression itself. -/
def resolve (refer : Refer) : Expression → Building Expression
  | ⟨id, parent, kind, arguments⟩ => do
    let arguments ← resolveArguments refer arguments
    join refer ⟨id, parent, kind, arguments⟩

def resolveArguments (refer : Refer) :
    List (String × Argument) → Building (List (String × Argument))
  | [] => return []
  | (name, value) :: rest => do
    let value ← resolveArgument refer value
    let rest ← resolveArguments refer rest
    return (name, value) :: rest

def resolveArgument (refer : Refer) : Argument → Building Argument
  | .block children => return .block (← resolveBlock refer children)
  | .atom name => return .atom name
  | .text value => return .text value
  | .number digits => return .number digits
  | .list items => return .list items

def resolveBlock (refer : Refer) : List Expression → Building (List Expression)
  | [] => return []
  | child :: rest => do
    let child ← resolve refer child
    let rest ← resolveBlock refer rest
    return child :: rest

end

/-- Copies the definition `target`, binds its parameters and resolves what it refers to. -/
def copyDefinition (plan : Plan) (refer : Refer) (target : String) (site : Arguments) :
    Building (Expression × Arguments) := do
  match plan.table.find? target with
  | none => throw (.reference (.unknownDefinition target))
  | some definition =>
    let copy ← onIds (modifyGet (definition.expression.copy none))
    if copy.isGeneric then
      let (bindings, site) ← ofExcept (bindFormals target copy.parameters site)
      let copy ← onIds (substitute bindings (copy.unset "parameters"))
      return (← resolve refer copy, site)
    else
      return (← resolve refer copy, site)

/-- Instantiates `target` for a reference, with references nested at most `budget` deep. -/
def referWithin (plan : Plan) : Nat → Refer
  | 0, target, _ => throw (.cycle target)
  | budget + 1, target, site => do
    if (← get).resolving.contains target then
      throw (.cycle target)
    whileResolving target (copyDefinition plan (referWithin plan budget) target site)

/-- Instantiates `target` for a reference. -/
def referTo (plan : Plan) : Refer :=
  referWithin plan (plan.table.size + 1)

/-! ### Rows -/

/-- Generated rows from `index` on: each is a `div` in the list `owner` whose id is its index and
whose block holds a copy of the item. -/
def makeRows (item : Expression) (owner : ExpressionId) :
    Nat → Nat → Supply → List Expression × Supply
  | 0, _, supply => ([], supply)
  | count + 1, index, supply =>
    let (id, supply) := supply.take
    let (copy, supply) := item.copy (some id) supply
    let row : Expression :=
      { id
        parent := some owner
        kind := "div"
        arguments := [("body", .block [copy.unset "defines"]), ("id", .text (toString index))] }
    let (rest, supply) := makeRows item owner count (index + 1) supply
    (row :: rest, supply)

/-- Gives a list its rows, each with an instance of the list's item type. -/
def fillList (build : String → Building Expression) (list : Expression) : Building Expression := do
  match list.number? "initial" with
  | none => return list
  | some count =>
    match list.text? "type" with
    | none => throw (.internal .untypedList)
    | some type =>
      let item ← build type
      let rows ← onIds (modifyGet (makeRows item list.id count 0))
      return list.set "body" (.block rows)

mutual

/-- Gives every list of an expression its rows. -/
def fillLists (build : String → Building Expression) : Expression → Building Expression
  | ⟨id, parent, kind, arguments⟩ => do
    if kind = "list" then
      fillList build ⟨id, parent, kind, arguments⟩
    else
      let arguments ← fillArguments build arguments
      return ⟨id, parent, kind, arguments⟩

def fillArguments (build : String → Building Expression) :
    List (String × Argument) → Building (List (String × Argument))
  | [] => return []
  | (name, value) :: rest => do
    let value ← fillArgument build value
    let rest ← fillArguments build rest
    return (name, value) :: rest

def fillArgument (build : String → Building Expression) : Argument → Building Argument
  | .block children => return .block (← fillBlock build children)
  | .atom name => return .atom name
  | .text value => return .text value
  | .number digits => return .number digits
  | .list items => return .list items

def fillBlock (build : String → Building Expression) :
    List Expression → Building (List Expression)
  | [] => return []
  | child :: rest => do
    let child ← fillLists build child
    let rest ← fillBlock build rest
    return child :: rest

end

/-! ### Instances of definitions -/

/-- Builds the instance of a definition, where `build` gives the instances of item types. -/
def assemble (plan : Plan) (build : String → Building Expression) (name : String) :
    Building Expression := do
  let (inst, _) ← (referTo plan name []).adaptExcept (Error.inDefinition name)
  discard <| onMarkers (checkInstance plan.table plan.rowLimit inst name)
  let inst ← fillLists build inst
  match uniqueIds inst (rootStem inst name) with
  | .ok _ => return inst
  | .error error => throw (error.inDefinition name)

/-- The instance of a definition, with builds nested at most `budget` deep. -/
def buildWithin (plan : Plan) : Nat → String → Building Expression
  | 0, name => throw (.cycle name)
  | budget + 1, name => do
    match (← get).finished.lookup name with
    | some inst => return inst
    | none =>
      if (← get).building.contains name then
        throw (.cycle name)
      let inst ← whileBuilding name (assemble plan (buildWithin plan budget) name)
      modify fun workshop => { workshop with finished := (name, inst) :: workshop.finished }
      return inst

def build (plan : Plan) (name : String) : Building Expression :=
  buildWithin plan (plan.table.size + 1) name

/-! ### Pages -/

/-- The entries of a list that are not scripts of every page. -/
def Plan.additional (plan : Plan) (entries : List String) : List String :=
  entries.filter fun entry => !plan.defaultScripts.contains entry

/-- The files that a page needs besides the scripts of every page. -/
def Plan.pageFiles (plan : Plan) (page : Expression) : List String :=
  plan.additional (page.texts "style_sheets") ++ plan.additional (page.texts "scripts")

/-- A page that loads the scripts of every page first. -/
def Plan.withScripts (plan : Plan) (page : Expression) : Expression :=
  page.set "scripts"
    (.list ((plan.defaultScripts ++ plan.additional (page.texts "scripts")).map Argument.text))

/-- The export of a definition: its instance, and on a page the scripts of every page. -/
def instantiate (plan : Plan) (name : String) : Building Expression := do
  match plan.table.find? name with
  | none => throw (.reference (.unknownDefinition name))
  | some definition =>
    if definition.expression.isGeneric then
      throw (.reference (.generic name))
    let inst ← build plan name
    if inst.kind = "page" then
      modify fun workshop =>
        { workshop with
          files := (plan.pageFiles inst).foldl (fun files file => insertName file files)
            workshop.files }
      return plan.withScripts inst
    else
      return inst

/-- The names of the definitions that are exported. -/
def Table.exportNames (table : Table) : List String :=
  (table.definitions.filter fun definition => !definition.expression.isGeneric).map Definition.name

/-- The exports of all definitions without parameters, in the table's order. -/
def instantiateAll (plan : Plan) : Building (List Expression) :=
  plan.table.exportNames.mapM (instantiate plan)

end Pagewright
