import Pagewright.Definition.Table
import Pagewright.Identity.Scope
import Pagewright.Shape.Subject

/-!
# Walking a definition

One walk checks an expression and everything in its blocks against the rules of
their kinds, declares ids and collects the targets of labels. Whenever it meets
another definition, by a kind, by `inherits` or as the item type of a list, it
requests that this definition be checked. What a request does is a parameter of
the walk.

The blocks of an expression that still takes something from elsewhere are not
walked: what they will hold is only known after instantiation.
-/

namespace Pagewright

/-- What a walk hands down to the expressions of a block. -/
structure Context where
  /-- The full id of the nearest tracked element around. -/
  stem : String
  inForm : Bool := false
  inSelect : Bool := false
  /-- No parameter is left open around here. -/
  concrete : Bool

/-- What the walks over one table share. -/
structure Rules (σ : Type) where
  table : Table
  /-- The largest number of rows a list may start with. -/
  rowLimit : Nat
  /-- Asks for a definition to be checked. -/
  request : String → EStateM Error σ Unit

/-- What is known about an expression once its arguments have been checked. -/
structure Entered where
  kind : Kind
  subject : Subject
  /-- Parameters of other definitions that this expression fills in. -/
  filled : List String
  /-- What holds in its block. -/
  below : Context
  ids : IdScope

namespace Kind

/-- The argument whose block is walked. -/
def content? : Kind → Option String
  | .list | .option | .input | .text => none
  | .select => some "options"
  | .page | .div | .form | .label | .h1 | .p | .span | .button => some "body"

/-- The types an input can have. -/
def inputTypes : List String :=
  ["text", "email", "password", "number", "date", "checkbox"]

/-- The arguments that a kind takes besides those that every kind takes; an input of known type
takes those of its type. -/
def argumentNames (inputType : Option String) : Kind → List String
  | .page => ["title", "icon", "style_sheets", "scripts", "body"]
  | .div | .form | .h1 | .p | .span | .button => ["body"]
  | .list => ["type", "initial", "min", "max"]
  | .select => ["options"]
  | .option => ["text", "value"]
  | .label => ["for", "body"]
  | .input =>
    if inputType = some "checkbox" then ["type", "initial"] else ["type", "initial", "min", "max"]
  | .text => ["value"]

end Kind

/-- The arguments that every expression may have. -/
def commonNames : List String :=
  ["defines", "parameters", "inherits", "id", "styles", "classes"]

section

variable {σ : Type}

/-- A nested expression defines nothing. -/
def checkNesting (expression : Expression) : Except Error Unit :=
  if expression.parent.isSome && expression.has "defines" then
    .error (.scope (.nestedDefinition (expression.defines?.getD expression.kind)))
  else .ok ()

/-- Formal parameters are atoms, each of them once; `seen` came before. -/
def checkFormals (kind : String) (seen : List String) : List Argument → Except Error Unit
  | [] => .ok ()
  | .atom name :: rest =>
    if seen.contains name then .error (.shape kind (.repeatedParameter name))
    else checkFormals kind (name :: seen) rest
  | _ :: _ => .error (.shape kind .notOnlyAtoms)

/-- Only a definition takes parameters. -/
def checkParameters (expression : Expression) : Except Error Unit :=
  match expression.get? "parameters" with
  | none => .ok ()
  | some value =>
    if !expression.has "defines" then .error (.shape expression.kind .strayParameters)
    else
      match value with
      | .list items => checkFormals expression.kind [] items
      | value => .error (.shape expression.kind (.mistyped "parameters" "list" value.typeName))

/-- Requests the definition `target` that an expression refers to; every parameter of the target
is filled in by an argument. Returns these parameters. -/
def refer (rules : Rules σ) (expression : Expression) (target : String) :
    EStateM Error σ (List String) := do
  match rules.table.find? target with
  | none => throw (.reference (.unknownTarget expression.kind target))
  | some definition =>
    rules.request target
    let parameters := definition.expression.parameters
    match parameters.find? fun parameter => !expression.has parameter with
    | some parameter => throw (.reference (.missingParameter parameter target))
    | none => return parameters

/-- The kind an expression has, and the parameters it fills in when its kind is a definition. -/
def kindOf (rules : Rules σ) (expression : Expression) : EStateM Error σ (Kind × List String) := do
  match Kind.ofName? expression.kind with
  | some kind => return (kind, [])
  | none =>
    if !rules.table.contains expression.kind then
      throw (.shape expression.kind .unrecognized)
    if expression.has "inherits" then
      throw (.shape expression.kind .referenceInherits)
    let filled ← refer rules expression expression.kind
    let kind ← ofExcept (rules.table.resolveKind expression.kind)
    return (kind, filled)

/-- The parameters an expression of some kind fills in when it inherits, the target being of the
same kind. -/
def inherited (rules : Rules σ) (expression : Expression) (kind : Kind) :
    EStateM Error σ (List String) := do
  match expression.get? "inherits" with
  | none => return []
  | some (.text target) =>
    let filled ← refer rules expression target
    let targetKind ← ofExcept (rules.table.resolveKind target)
    if targetKind ≠ kind then
      throw (.reference (.kindMismatch kind.name target targetKind.name))
    return filled
  | some other => throw (.shape kind.name (.mistyped "inherits" "string" other.typeName))

/-- A kind may stand where it stands. -/
def checkPlace (expression : Expression) (kind : Kind) (context : Context) : Except Error Unit :=
  match kind with
  | .page => if expression.parent.isSome then .error (.scope .nestedPage) else .ok ()
  | .form => if context.inForm then .error (.scope .nestedForm) else .ok ()
  | .option => if !context.inSelect then .error (.scope .strayOption) else .ok ()
  | _ => .ok ()

/-- The id of an expression. The second result is what the ids below it are relative to. -/
def checkId (subject : Subject) (kind : Kind) (context : Context) (ids : IdScope) :
    Except Error (IdScope × String) :=
  match subject.expression.get? "id" with
  | none =>
    if subject.concrete && (kind = .list || kind = .input) then subject.fail .needsId
    else .ok (ids, context.stem)
  | some value =>
    if kind = .page || kind = .text then subject.fail .takesNoId
    else
      match value with
      | .text raw =>
        if raw.isEmpty then subject.fail .emptyId
        else
          match ScopedId.parse? raw with
          | none => subject.fail (.invalidId raw)
          | some id =>
            if id.isTracked then do
              let ids ← ids.declare (id.fullId context.stem)
              return (ids, id.fullId context.stem)
            else
              .ok (ids, context.stem)
      | value =>
        if subject.isPlaceholder value then .ok (ids, context.stem)
        else subject.fail (.mistyped "id" "string" value.typeName)

/-- Requests the item type of a list: a definition without parameters that is no page. -/
def checkItemType (rules : Rules σ) (target : String) : EStateM Error σ Unit := do
  match rules.table.find? target with
  | none => throw (.reference (.unknownItemType target))
  | some definition =>
    rules.request target
    if definition.expression.isGeneric then
      throw (.reference (.genericItemType target))
    let kind ← ofExcept (rules.table.resolveKind target)
    if kind = .page then
      throw (.reference (.pageItemType target))

/-- A list has a node in the page's tree. -/
def checkListId (subject : Subject) : Except Error Unit :=
  match subject.expression.text? "id" with
  | some raw => if (ScopedId.split raw).isTracked then .ok () else subject.fail .literalListId
  | none => .ok ()

def checkRows (subject : Subject) (rowLimit : Nat) : Except Error Unit := do
  let initial ← subject.number "initial"
  let min ← subject.number "min"
  let max ← subject.number "max"
  subject.ordered min initial max
  if let some initial := initial then
    if initial > rowLimit then subject.fail (.tooManyRows initial rowLimit)

/-- The arguments of an input, by its type. -/
def checkInput (subject : Subject) : Except Error Unit := do
  match ← subject.text "type" true with
  | none => return
  | some type =>
    if !Kind.inputTypes.contains type then
      subject.fail (.unknownInputType type)
    if type = "number" then
      let min ← subject.number "min"
      let max ← subject.number "max"
      let initial ← subject.number "initial"
      subject.ordered min initial max
    else if type = "date" then
      discard <| subject.text "min" false
      discard <| subject.text "max" false
      discard <| subject.text "initial" false
    else if type = "checkbox" then
      if let some initial ← subject.number "initial" then
        if initial > 1 then subject.fail .checkboxInitial
    else
      discard <| subject.number "min"
      discard <| subject.number "max"
      discard <| subject.text "initial" false

/-- The target of a label, put off to the end of the walk. -/
def checkTarget (subject : Subject) (context : Context) (ids : IdScope) :
    Except Error IdScope := do
  match ← subject.text "for" false with
  | none => return ids
  | some raw =>
    match ScopedId.parse? raw with
    | none => subject.fail (.invalidTarget raw)
    | some target =>
      if target.isTracked && subject.concrete then
        return ids.expect ⟨target.fullId context.stem, raw⟩
      else
        return ids

/-- The arguments that are particular to a kind. -/
def checkArguments (rules : Rules σ) (subject : Subject) (kind : Kind) (context : Context)
    (ids : IdScope) : EStateM Error σ IdScope := do
  match kind with
  | .page => ofExcept do
    discard <| subject.text "title" false
    discard <| subject.text "icon" false
    subject.texts "style_sheets"
    subject.texts "scripts"
    subject.block "body" true
    return ids
  | .div | .form | .h1 | .p | .span | .button => ofExcept do
    subject.block "body" false
    return ids
  | .list =>
    ofExcept (checkListId subject)
    if let some type ← ofExcept (subject.text "type" true) then
      checkItemType rules type
    ofExcept (checkRows subject rules.rowLimit)
    return ids
  | .select => ofExcept do
    subject.block "options" true
    return ids
  | .option => ofExcept do
    discard <| subject.text "text" true
    discard <| subject.text "value" false
    return ids
  | .label => ofExcept do
    let ids ← checkTarget subject context ids
    subject.block "body" false
    return ids
  | .input => ofExcept do
    checkInput subject
    return ids
  | .text => ofExcept do
    discard <| subject.text "value" true
    return ids

/-- Checks everything about an expression but what is in its block. -/
def enter (rules : Rules σ) (expression : Expression) (context : Context) (ids : IdScope) :
    EStateM Error σ Entered := do
  ofExcept (checkNesting expression)
  ofExcept (checkParameters expression)
  let (kind, byKind) ← kindOf rules expression
  let byInherits ← inherited rules expression kind
  let subject : Subject :=
    { expression
      kind := kind.name
      concrete := context.concrete && expression.isConcrete }
  let ids := if expression.isReference then ids.markIncomplete else ids
  ofExcept (checkPlace expression kind context)
  let (ids, stem) ← ofExcept (checkId subject kind context ids)
  ofExcept (subject.texts "styles")
  ofExcept (subject.texts "classes")
  let ids ← checkArguments rules subject kind context ids
  return {
    kind
    subject
    filled := byKind ++ byInherits
    below :=
      { stem
        inForm := context.inForm || kind = .form
        inSelect := kind = .select
        concrete := true }
    ids }

/-- The arguments that were asked for are all there are. -/
def Entered.close (entered : Entered) : Except Error Unit :=
  entered.subject.onlyHas
    (commonNames ++ entered.filled
      ++ entered.kind.argumentNames (entered.subject.expression.text? "type"))

/-- The block that is walked, by the name of its argument. -/
def Entered.content? (entered : Entered) : Option String :=
  if entered.subject.concrete then entered.kind.content? else none

mutual

/-- Walks an expression and what is below it. -/
def walk (rules : Rules σ) : Expression → Context → IdScope → EStateM Error σ IdScope
  | ⟨id, parent, kind, arguments⟩, context, ids => do
    let entered ← enter rules ⟨id, parent, kind, arguments⟩ context ids
    let ids ←
      match entered.content? with
      | none => pure entered.ids
      | some name => walkArgument rules name arguments entered.below entered.ids
    ofExcept entered.close
    return ids

/-- Walks the block that the argument `name` holds. -/
def walkArgument (rules : Rules σ) (name : String) :
    List (String × Argument) → Context → IdScope → EStateM Error σ IdScope
  | [], _, ids => pure ids
  | (other, value) :: rest, context, ids =>
    if name = other then walkValue rules value context ids
    else walkArgument rules name rest context ids

def walkValue (rules : Rules σ) : Argument → Context → IdScope → EStateM Error σ IdScope
  | .block children, context, ids => walkBlock rules children context ids
  | _, _, ids => pure ids

/-- Walks the expressions of a block; the block of a select holds options only. -/
def walkBlock (rules : Rules σ) :
    List Expression → Context → IdScope → EStateM Error σ IdScope
  | [], _, ids => pure ids
  | child :: rest, context, ids => do
    if context.inSelect && child.kind != "option" then
      throw (.shape "select" (.notAnOption child.kind))
    let ids ← walk rules child context ids
    walkBlock rules rest context ids

end

/-- Walks a definition under its name. The ids of a concrete one are returned, and the targets of
its labels are among them. -/
def walkDefinition (rules : Rules σ) (expression : Expression) (name : String) :
    EStateM Error σ (Option IdScope) := do
  if expression.isConcrete then
    let ids ← walk rules expression { stem := rootStem expression name, concrete := true } {}
    ofExcept ids.checkTargets
    return some ids
  else
    discard <| walk rules expression { stem := name, concrete := false } {}
    return none

end

end Pagewright
