/-!
# Characters of a YAML text

Not every character may stand in a text. A carriage return, with a line feed
behind it or without one, and the next-line character are ways to write a line
feed; the line separator and the paragraph separator break a line as well, and
stay what they are. Places are counted in characters, a tab as one.
-/

namespace Pagewright

namespace Yaml

/-- The character may stand in a text. -/
def isAllowed (c : Char) : Bool :=
  c = '\t' || c = '\n' || c = '\r' || (0x20 ≤ c.toNat && c.toNat ≤ 0x7E) || c.toNat = 0x85
    || (0xA0 ≤ c.toNat && c.toNat ≤ 0xFFFD) || 0x10000 ≤ c.toNat

/-- Writes the line breaks that mean a line feed as line feeds. -/
def lineFeeds : List Char → List Char
  | [] => []
  | '\r' :: '\n' :: rest => '\n' :: lineFeeds rest
  | c :: rest => (if c = '\r' || c.toNat = 0x85 then '\n' else c) :: lineFeeds rest

def isSpace (c : Char) : Bool :=
  c = ' ' || c = '\t'

def isBreak (c : Char) : Bool :=
  c = '\n' || c.toNat = 0x2028 || c.toNat = 0x2029

def isWhite (c : Char) : Bool :=
  isSpace c || isBreak c

/-- White space comes next, or nothing. -/
def endsWord (input : List Char) : Bool :=
  input.head?.all isWhite

/-- Marks that mean something inside brackets. -/
def isFlowMark (c : Char) : Bool :=
  [',', '[', ']', '\x7b', '\x7d'].contains c

/-- The mark that says in which order bytes stand, a sign without meaning in front of a line. -/
def isByteOrderMark (c : Char) : Bool :=
  c.toNat = 0xFEFF

/-! ### Places -/

structure Place where
  /-- The number of characters in front. -/
  index : Nat := 0
  line : Nat := 0
  column : Nat := 0

namespace Place

/-- The place behind a character. -/
def step (place : Place) (c : Char) : Place :=
  if isBreak c then { index := place.index + 1, line := place.line + 1, column := 0 }
  else { place with index := place.index + 1, column := place.column + 1 }

def steps (place : Place) (characters : List Char) : Place :=
  characters.foldl step place

end Place

/-- Three of a mark in front of a line, which begin or end a document. -/
def isDocumentMark (mark : Char) (place : Place) (input : List Char) : Bool :=
  place.column = 0 && input.take 3 = [mark, mark, mark] && endsWord (input.drop 3)

/-- The line begins or ends a document. -/
def atDocumentMark (place : Place) (input : List Char) : Bool :=
  isDocumentMark '-' place input || isDocumentMark '.' place input

end Yaml

end Pagewright
