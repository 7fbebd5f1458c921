import Pagewright.Json.Basic

/-!
# Writing JSON

Two layouts: `pretty` puts every item and field on a line of its own, two spaces
deeper than what holds it, and `compact` writes no blanks at all. Only quotes,
backslashes and control characters are escaped in strings.
-/

namespace Pagewright

namespace Json

/-- The lower-case hexadecimal digit of a value below sixteen. -/
def hexDigit (value : Nat) : Char :=
  if value < 10 then Char.ofNat ('0'.toNat + value) else Char.ofNat ('a'.toNat + (value - 10))

/-- A character inside a string. -/
def escapeChar (c : Char) : List Char :=
  if c = '"' then ['\\', '"']
  else if c = '\\' then ['\\', '\\']
  else if c = '\n' then ['\\', 'n']
  else if c = '\r' then ['\\', 'r']
  else if c = '\t' then ['\\', 't']
  else if c.toNat = 8 then ['\\', 'b']
  else if c.toNat = 12 then ['\\', 'f']
  else if c.toNat < 0x20 then
    ['\\', 'u', '0', '0', hexDigit (c.toNat / 16), hexDigit (c.toNat % 16)]
  else [c]

def quote (text : String) : List Char :=
  '"' :: text.toList.flatMap escapeChar ++ ['"']

/-- A line end and the indentation of a depth. -/
def newLine (depth : Nat) : List Char :=
  '\n' :: List.replicate (2 * depth) ' '

mutual

/-- A value whose inside is indented one level deeper than `depth`. -/
def prettyAt (depth : Nat) : Json → List Char
  | .null => "null".toList
  | .bool true => "true".toList
  | .bool false => "false".toList
  | .number written => written.toList
  | .text value => quote value
  | .unpaired => "null".toList
  | .array [] => ['[', ']']
  | .array (item :: items) =>
    '[' :: newLine (depth + 1) ++ prettyAt (depth + 1) item ++ prettyItems depth items
  | .object [] => ['\x7b', '\x7d']
  | .object ((name, value) :: fields) =>
    '\x7b' :: newLine (depth + 1) ++ quote name ++ [':', ' '] ++ prettyAt (depth + 1) value
      ++ prettyFields depth fields

/-- The items behind the first one, and the closing bracket. -/
def prettyItems (depth : Nat) : List Json → List Char
  | [] => newLine depth ++ [']']
  | item :: items =>
    ',' :: newLine (depth + 1) ++ prettyAt (depth + 1) item ++ prettyItems depth items

/-- The fields behind the first one, and the closing brace. -/
def prettyFields (depth : Nat) : List (String × Json) → List Char
  | [] => newLine depth ++ ['\x7d']
  | (name, value) :: fields =>
    ',' :: newLine (depth + 1) ++ quote name ++ [':', ' '] ++ prettyAt (depth + 1) value
      ++ prettyFields depth fields

end

def pretty (json : Json) : String :=
  String.ofList (prettyAt 0 json)

mutual

def compact : Json → String
  | .null => "null"
  | .bool true => "true"
  | .bool false => "false"
  | .number written => written
  | .text value => String.ofList (quote value)
  | .unpaired => "null"
  | .array items => "[" ++ ",".intercalate (compactItems items) ++ "]"
  | .object fields => "\x7b" ++ ",".intercalate (compactFields fields) ++ "\x7d"

def compactItems : List Json → List String
  | [] => []
  | item :: items => item.compact :: compactItems items

def compactFields : List (String × Json) → List String
  | [] => []
  | (name, value) :: fields =>
    (String.ofList (quote name) ++ ":" ++ value.compact) :: compactFields fields

end

end Json

end Pagewright
