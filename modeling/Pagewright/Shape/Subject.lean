import Pagewright.Error
import Pagewright.Expression.Basic

/-!
# Typed access to arguments

The rules of a kind ask for arguments of a certain form. While an expression is
not concrete, an atom may stand for a parameter; such an atom is left alone, and
nothing is required yet.
-/

namespace Pagewright

/-- An expression whose arguments are checked, under the name of the kind it turned out to have. -/
structure Subject where
  expression : Expression
  kind : String
  /-- Every argument is final. -/
  concrete : Bool

namespace Subject

def fail {α : Type} (subject : Subject) (fault : ShapeFault) : Except Error α :=
  .error (.shape subject.kind fault)

/-- An argument that may stand for a parameter. -/
def isPlaceholder (subject : Subject) : Argument → Bool
  | .atom _ => !subject.concrete
  | _ => false

/-- An argument that is not given. -/
def absent (subject : Subject) (name : String) (required : Bool) : Except Error Unit :=
  if required && subject.concrete then subject.fail (.missing name) else .ok ()

def text (subject : Subject) (name : String) (required : Bool) : Except Error (Option String) :=
  match subject.expression.get? name with
  | none => (subject.absent name required).map fun _ => none
  | some (.text value) => .ok (some value)
  | some value =>
    if subject.isPlaceholder value then .ok none
    else subject.fail (.mistyped name "string" value.typeName)

/-- A number argument, never a required one. -/
def number (subject : Subject) (name : String) : Except Error (Option Nat) :=
  match subject.expression.get? name with
  | none => .ok none
  | some (.number digits) =>
    match numberValue? digits with
    | some value => .ok (some value)
    | none => subject.fail (.notANumber name digits)
  | some value =>
    if subject.isPlaceholder value then .ok none
    else subject.fail (.mistyped name "number" value.typeName)

/-- An entry of a list of texts. -/
def isTextItem (subject : Subject) (item : Argument) : Bool :=
  item.text?.isSome || subject.isPlaceholder item

/-- A list argument that holds only texts. -/
def texts (subject : Subject) (name : String) : Except Error Unit :=
  match subject.expression.get? name with
  | none => .ok ()
  | some (.list items) =>
    match items.find? fun item => !subject.isTextItem item with
    | none => .ok ()
    | some item => subject.fail (.notOnlyTexts name item.typeName)
  | some value =>
    if subject.isPlaceholder value then .ok ()
    else subject.fail (.mistyped name "list" value.typeName)

def block (subject : Subject) (name : String) (required : Bool) : Except Error Unit :=
  match subject.expression.get? name with
  | none => subject.absent name required
  | some (.block _) => .ok ()
  | some value =>
    if subject.isPlaceholder value then .ok ()
    else subject.fail (.mistyped name "block" value.typeName)

/-- The bounds and the value between them are in order, as far as they are given. -/
def ordered (subject : Subject) (min initial max : Option Nat) : Except Error Unit := do
  if let (some min, some max) := (min, max) then
    if min > max then subject.fail (.minAboveMax min max)
  if let (some min, some initial) := (min, initial) then
    if initial < min then subject.fail (.initialBelowMin initial min)
  if let (some initial, some max) := (initial, max) then
    if initial > max then subject.fail (.initialAboveMax initial max)

/-- Every argument is one of those named. -/
def onlyHas (subject : Subject) (names : List String) : Except Error Unit :=
  match subject.expression.arguments.find? fun entry => !names.contains entry.1 with
  | none => .ok ()
  | some entry => subject.fail (.unused entry.1)

end Subject

end Pagewright
