/-!
# Positions in a source text

Lines and columns count from one. Walking over a line feed starts a new line,
walking over any other character moves one column to the right.
-/

namespace Pagewright

structure Position where
  line : Nat
  column : Nat
  deriving DecidableEq, Repr

namespace Position

/-- The place of a text's first character. -/
def start : Position :=
  ⟨1, 1⟩

/-- The place after one character. -/
def step (position : Position) (c : Char) : Position :=
  if c = '\n' then ⟨position.line + 1, 1⟩ else ⟨position.line, position.column + 1⟩

/-- The place after a run of characters. -/
def advance (position : Position) (passed : List Char) : Position :=
  passed.foldl step position

end Position

end Pagewright
