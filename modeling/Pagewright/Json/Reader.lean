import Pagewright.Json.Basic

/-!
# Reading JSON

A strict reader of the JSON grammar: no comments, no trailing commas, no
leading zeros, no control characters in strings, nothing but blanks around the
value.

The routines call each other at most twice for each character, which bounds
their budget.
-/

namespace Pagewright

namespace Json

/-- The characters that may stand between tokens. -/
def isSpace (c : Char) : Bool :=
  c == ' ' || c == '\t' || c == '\n' || c == '\r'

def skipSpaces (input : List Char) : List Char :=
  input.dropWhile isSpace

/-! ### Strings -/

/-- What a string literal is made of. -/
inductive Piece where
  | whole (c : Char)
  /-- A code of the range that only counts in pairs. -/
  | half (code : Nat)

def hexValue? (c : Char) : Option Nat :=
  if '0' ≤ c ∧ c ≤ '9' then some (c.toNat - '0'.toNat)
  else if 'a' ≤ c ∧ c ≤ 'f' then some (c.toNat - 'a'.toNat + 10)
  else if 'A' ≤ c ∧ c ≤ 'F' then some (c.toNat - 'A'.toNat + 10)
  else none

/-- The code that four hexadecimal digits name. -/
def hexCode? (a b c d : Char) : Option Nat := do
  let a ← hexValue? a
  let b ← hexValue? b
  let c ← hexValue? c
  let d ← hexValue? d
  return ((a * 16 + b) * 16 + c) * 16 + d

def isHighHalf (code : Nat) : Bool :=
  0xD800 ≤ code && code < 0xDC00

def isLowHalf (code : Nat) : Bool :=
  0xDC00 ≤ code && code < 0xE000

def Piece.ofCode (code : Nat) : Piece :=
  if isHighHalf code || isLowHalf code then .half code else .whole (Char.ofNat code)

/-- The character of a one-letter escape. -/
def shortEscape? : Char → Option Char
  | '"' => some '"'
  | '\\' => some '\\'
  | '/' => some '/'
  | 'b' => some (Char.ofNat 8)
  | 'f' => some (Char.ofNat 12)
  | 'n' => some '\n'
  | 'r' => some '\r'
  | 't' => some '\t'
  | _ => none

/-- The pieces of a string literal read from behind its opening quote, and what follows it. -/
def pieces? : List Char → Option (List Piece × List Char)
  | [] => none
  | '"' :: rest => some ([], rest)
  | '\\' :: 'u' :: a :: b :: c :: d :: rest => do
    let code ← hexCode? a b c d
    let (pieces, rest) ← pieces? rest
    return (.ofCode code :: pieces, rest)
  | '\\' :: c :: rest => do
    let c ← shortEscape? c
    let (pieces, rest) ← pieces? rest
    return (.whole c :: pieces, rest)
  | c :: rest =>
    if c.toNat < 0x20 then none
    else do
      let (pieces, rest) ← pieces? rest
      return (.whole c :: pieces, rest)

/-- The characters of a string literal; two halves that belong together are one character. -/
def joinPieces? : List Piece → Option (List Char)
  | [] => some []
  | .whole c :: rest => (joinPieces? rest).map (c :: ·)
  | .half high :: .half low :: rest =>
    if isHighHalf high && isLowHalf low then
      (joinPieces? rest).map (Char.ofNat (0x10000 + (high - 0xD800) * 0x400 + (low - 0xDC00)) :: ·)
    else none
  | .half _ :: _ => none

/-- A string literal whose quote has been read. -/
def string? (input : List Char) : Option (Option String × List Char) := do
  let (pieces, rest) ← pieces? input
  return ((joinPieces? pieces).map String.ofList, rest)

/-! ### Numbers -/

/-- Decimal digits, at least one. -/
def digits? (input : List Char) : Option (List Char × List Char) :=
  let digits := input.takeWhile Char.isDigit
  if digits.isEmpty then none else some (digits, input.dropWhile Char.isDigit)

/-- The digits before the point: a zero alone, or digits that do not start with one. -/
def whole? : List Char → Option (List Char × List Char)
  | '0' :: rest => some (['0'], rest)
  | input => digits? input

/-- The digits behind a point, with the point, if there is one. -/
def fraction? : List Char → Option (List Char × List Char)
  | '.' :: rest => do
    let (digits, rest) ← digits? rest
    return ('.' :: digits, rest)
  | input => some ([], input)

def sign : List Char → List Char × List Char
  | '+' :: rest => (['+'], rest)
  | '-' :: rest => (['-'], rest)
  | input => ([], input)

/-- An exponent, if there is one. -/
def exponent? : List Char → Option (List Char × List Char)
  | [] => some ([], [])
  | mark :: rest =>
    if mark = 'e' ∨ mark = 'E' then do
      let (sign, rest) := sign rest
      let (digits, rest) ← digits? rest
      return (mark :: sign ++ digits, rest)
    else some ([], mark :: rest)

/-- A number behind its minus sign. -/
def unsigned? (input : List Char) : Option (List Char × List Char) := do
  let (whole, rest) ← whole? input
  let (fraction, rest) ← fraction? rest
  let (exponent, rest) ← exponent? rest
  return (whole ++ fraction ++ exponent, rest)

def number? (input : List Char) : Option (Json × List Char) := do
  match input with
  | '-' :: rest =>
    let (written, rest) ← unsigned? rest
    return (.number (String.ofList ('-' :: written)), rest)
  | input =>
    let (written, rest) ← unsigned? input
    return (.number (String.ofList written), rest)

/-! ### Values -/

/-- An object, if all of its names are texts. -/
def ofFields (fields : List (Option String × Json)) : Json :=
  let named? := fields.mapM fun ((name, value) : Option String × Json) => name.map (·, value)
  (named?.map Json.object).getD .unpaired

mutual

/-- A value and what follows it. -/
def value? : Nat → List Char → Option (Json × List Char)
  | 0, _ => none
  | budget + 1, input =>
    match skipSpaces input with
    | [] => none
    | 'n' :: 'u' :: 'l' :: 'l' :: rest => some (.null, rest)
    | 't' :: 'r' :: 'u' :: 'e' :: rest => some (.bool true, rest)
    | 'f' :: 'a' :: 'l' :: 's' :: 'e' :: rest => some (.bool false, rest)
    | '"' :: rest => do
      let (value, rest) ← string? rest
      return ((value.map Json.text).getD .unpaired, rest)
    | '[' :: rest =>
      match skipSpaces rest with
      | ']' :: rest => some (.array [], rest)
      | rest => do
        let (items, rest) ← items? budget rest
        return (.array items, rest)
    | '\x7b' :: rest =>
      match skipSpaces rest with
      | '\x7d' :: rest => some (.object [], rest)
      | rest => do
        let (fields, rest) ← fields? budget rest
        return (ofFields fields, rest)
    | input => number? input

def items? : Nat → List Char → Option (List Json × List Char)
  | 0, _ => none
  | budget + 1, input => do
    let (item, rest) ← value? budget input
    match skipSpaces rest with
    | ',' :: rest =>
      let (items, rest) ← items? budget rest
      return (item :: items, rest)
    | ']' :: rest => return ([item], rest)
    | _ => none

/-- The fields of an object up to its closing brace; a name that is no text is missing. -/
def fields? : Nat → List Char → Option (List (Option String × Json) × List Char)
  | 0, _ => none
  | budget + 1, input =>
    match skipSpaces input with
    | '"' :: rest => do
      let (name, rest) ← string? rest
      match skipSpaces rest with
      | ':' :: rest =>
        let (value, rest) ← value? budget rest
        match skipSpaces rest with
        | ',' :: rest =>
          let (fields, rest) ← fields? budget rest
          return ((name, value) :: fields, rest)
        | '\x7d' :: rest => return ([(name, value)], rest)
        | _ => none
      | _ => none
    | _ => none

end

def parse? (input : String) : Option Json := do
  let (value, rest) ← value? (2 * input.length + 2) input.toList
  if (skipSpaces rest).isEmpty then return value else none

end Json

end Pagewright
