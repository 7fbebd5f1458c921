import Pagewright.Expression.Basic

/-!
# Kinds

The element kinds every program can use. Any other kind written in a program is
the name of a definition.
-/

namespace Pagewright

inductive Kind where
  | page
  | div
  | form
  | list
  | select
  | option
  | label
  | input
  | text
  | h1
  | p
  | span
  | button
  deriving DecidableEq, Repr

namespace Kind

def all : List Kind :=
  [.page, .div, .form, .list, .select, .option, .label, .input, .text, .h1, .p, .span, .button]

def name : Kind → String
  | .page => "page"
  | .div => "div"
  | .form => "form"
  | .list => "list"
  | .select => "select"
  | .option => "option"
  | .label => "label"
  | .input => "input"
  | .text => "text"
  | .h1 => "h1"
  | .p => "p"
  | .span => "span"
  | .button => "button"

/-- The kind of this name, if it is one of the built-in ones. -/
def ofName? (name : String) : Option Kind :=
  all.find? fun kind => kind.name = name

/-- Kinds that become a bare element of their own name. -/
def isSimple : Kind → Bool
  | .h1 | .p | .span | .button => true
  | _ => false

/-- A name that is one of the built-in kinds. -/
def isBuiltIn (name : String) : Bool :=
  (ofName? name).isSome

theorem ofName?_name (kind : Kind) : ofName? kind.name = some kind := by
  cases kind <;> decide

theorem name_of_ofName? {name : String} {kind : Kind} (found : ofName? name = some kind) :
    kind.name = name := by
  simpa using List.find?_some found

/-- A name stands for one kind only. -/
theorem eq_of_ofName? {name : String} {kind other : Kind} (found : ofName? name = some kind)
    (written : name = other.name) : kind = other := by
  rw [written, ofName?_name] at found
  exact (Option.some.inj found).symm

end Kind

namespace Expression

/-- An expression of a built-in kind that neither takes parameters nor inherits. -/
def isConcrete (expression : Expression) : Bool :=
  !expression.has "parameters" && !expression.has "inherits" && Kind.isBuiltIn expression.kind

/-- An expression that takes something from a definition, by `inherits` or by its kind. -/
def isReference (expression : Expression) : Bool :=
  expression.has "inherits" || !Kind.isBuiltIn expression.kind

end Expression

end Pagewright
