import Pagewright.Expression.Basic

/-!
# Fresh copies

Identifiers come from a supply that hands them out in order. A copy of an
expression takes a new identifier for every expression in it, parents before
children and arguments in order of name, and links each child to its new parent.
-/

namespace Pagewright

/-- Hands out identifiers one after the other, starting at one. The count goes on for ever; an
identifier is its lowest thirty-two bits. -/
structure Supply where
  next : Nat := 1
  deriving DecidableEq, Repr

namespace Supply

/-- The next identifier, and the supply without it. -/
def take (supply : Supply) : ExpressionId × Supply :=
  (supply.next.toUInt32, ⟨supply.next + 1⟩)

end Supply

mutual

def Expression.copy : Expression → Option ExpressionId → Supply → Expression × Supply
  | ⟨_, _, kind, arguments⟩, parent, supply =>
    let (id, supply) := supply.take
    let (arguments, supply) := copyArguments arguments id supply
    (⟨id, parent, kind, arguments⟩, supply)

def copyArguments :
    List (String × Argument) → ExpressionId → Supply → List (String × Argument) × Supply
  | [], _, supply => ([], supply)
  | (name, value) :: rest, owner, supply =>
    let (value, supply) := value.copy owner supply
    let (rest, supply) := copyArguments rest owner supply
    ((name, value) :: rest, supply)

def Argument.copy : Argument → ExpressionId → Supply → Argument × Supply
  | .block children, owner, supply =>
    let (children, supply) := copyBlock children owner supply
    (.block children, supply)
  | .list items, owner, supply =>
    let (items, supply) := copyItems items owner supply
    (.list items, supply)
  | .atom name, _, supply => (.atom name, supply)
  | .text value, _, supply => (.text value, supply)
  | .number digits, _, supply => (.number digits, supply)

def copyBlock : List Expression → ExpressionId → Supply → List Expression × Supply
  | [], _, supply => ([], supply)
  | child :: rest, owner, supply =>
    let (child, supply) := child.copy (some owner) supply
    let (rest, supply) := copyBlock rest owner supply
    (child :: rest, supply)

def copyItems : List Argument → ExpressionId → Supply → List Argument × Supply
  | [], _, supply => ([], supply)
  | item :: rest, owner, supply =>
    let (item, supply) := item.copy owner supply
    let (rest, supply) := copyItems rest owner supply
    (item :: rest, supply)

end

end Pagewright
