import Pagewright.Entries
import Pagewright.Expression.Number

/-!
# Expressions

A program is a list of expressions. An expression has a kind, a number that
identifies it, the number of the expression whose block it stands in, and named
arguments. An argument is a bare atom, a text, a number, a block of expressions
or a list of arguments.
-/

namespace Pagewright

/-- Identifies an expression within one compilation. -/
abbrev ExpressionId := UInt32

mutual

structure Expression where
  id : ExpressionId
  /-- Set for an expression that stands in a block of another one. -/
  parent : Option ExpressionId
  kind : String
  /-- In increasing order of name. -/
  arguments : List (String × Argument)

inductive Argument where
  /-- A bare word. It may stand for a parameter. -/
  | atom (name : String)
  | text (value : String)
  /-- The digits as written. -/
  | number (digits : String)
  | block (children : List Expression)
  | list (items : List Argument)

end

abbrev Arguments := Entries Argument

namespace Argument

/-- How messages call the form of an argument. -/
def typeName : Argument → String
  | .atom _ => "atom"
  | .text _ => "string"
  | .number _ => "number"
  | .block _ => "block"
  | .list _ => "list"

def atom? : Argument → Option String
  | .atom name => some name
  | _ => none

def text? : Argument → Option String
  | .text value => some value
  | _ => none

/-- The value of a number that fits in sixty-four bits. -/
def number? : Argument → Option Nat
  | .number digits => numberValue? digits
  | _ => none

def block? : Argument → Option (List Expression)
  | .block children => some children
  | _ => none

def list? : Argument → Option (List Argument)
  | .list items => some items
  | _ => none

end Argument

namespace Expression

def get? (expression : Expression) (name : String) : Option Argument :=
  expression.arguments.lookup name

def has (expression : Expression) (name : String) : Bool :=
  (expression.get? name).isSome

def text? (expression : Expression) (name : String) : Option String :=
  (expression.get? name).bind Argument.text?

def number? (expression : Expression) (name : String) : Option Nat :=
  (expression.get? name).bind Argument.number?

def block? (expression : Expression) (name : String) : Option (List Expression) :=
  (expression.get? name).bind Argument.block?

def list? (expression : Expression) (name : String) : Option (List Argument) :=
  (expression.get? name).bind Argument.list?

/-- The texts in a list argument; entries of other forms are passed over. -/
def texts (expression : Expression) (name : String) : List String :=
  ((expression.list? name).getD []).filterMap Argument.text?

def defines? (expression : Expression) : Option String :=
  expression.text? "defines"

/-- A generic expression takes parameters. -/
def isGeneric (expression : Expression) : Bool :=
  expression.has "parameters"

/-- The formal parameters, in the order in which they are declared. -/
def parameters (expression : Expression) : List String :=
  ((expression.list? "parameters").getD []).filterMap Argument.atom?

def set (expression : Expression) (name : String) (value : Argument) : Expression :=
  { expression with arguments := Entries.insert name value expression.arguments }

def unset (expression : Expression) (name : String) : Expression :=
  { expression with arguments := Entries.erase expression.arguments name }

end Expression

end Pagewright
