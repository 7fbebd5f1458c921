import Pagewright.Yaml.Scalar

/-!
# YAML tokens

A text is read as a row of tokens in which indentation has become visible: where
a line is indented further a collection starts, and where it is indented less,
the collections of greater columns end.

A key in front of a colon is not marked as one, so wherever a key could start, its
place is remembered. When the colon follows on the same line and is not too far
away, the key token is put in front of what has been read since. Inside brackets
every level remembers a key of its own.
-/

namespace Pagewright

namespace Yaml

inductive Token where
  | documentStart
  | documentEnd
  | blockSequence
  | blockMapping
  /-- The end of a collection that indentation shows. -/
  | blockEnd
  | flowSequence
  | flowSequenceEnd
  | flowMapping
  | flowMappingEnd
  /-- The dash in front of an item. -/
  | item
  | comma
  | key
  | value
  | scalar (text : String) (plain : Bool)
  deriving DecidableEq

/-- Where a key could have started. -/
structure PossibleKey where
  place : Place
  /-- The number of tokens in front of it. -/
  position : Nat
  /-- Nothing but a key can stand there. -/
  required : Bool

/-- What is known at some place of a text. -/
structure Scanner where
  rest : List Char
  place : Place := {}
  /-- The tokens read so far. -/
  tokens : Array Token := #[]
  /-- The columns of the collections that indentation has opened, innermost first. -/
  columns : List Nat := []
  /-- The key that could have started on this level of brackets. -/
  key : Option PossibleKey := none
  /-- The keys that could have started outside, for each bracket that is open. -/
  outer : List (Option PossibleKey) := []
  /-- A key could start here. -/
  keyAllowed : Bool := true

namespace Scanner

def inFlow (scanner : Scanner) : Bool :=
  !scanner.outer.isEmpty

/-- A key is at most this many characters long. -/
def keyLimit : Nat :=
  1024

def emit (scanner : Scanner) (token : Token) : Scanner :=
  { scanner with tokens := scanner.tokens.push token }

def pass (scanner : Scanner) (count : Nat) : Scanner :=
  { scanner with
    rest := scanner.rest.drop count
    place := scanner.place.steps (scanner.rest.take count) }

/-! ### Indentation -/

/-- The column is greater than those of all open collections. -/
def isDeeper (scanner : Scanner) (column : Nat) : Bool :=
  scanner.columns.head?.all (· < column)

/-- Opens a collection at a column, if none is open there, with its token at a position. -/
def openBlock (scanner : Scanner) (token : Token) (column position : Nat) : Scanner :=
  if !scanner.inFlow && scanner.isDeeper column then
    { scanner with
      columns := column :: scanner.columns
      tokens := scanner.tokens.insertIdxIfInBounds position token }
  else scanner

def openHere (scanner : Scanner) (token : Token) : Scanner :=
  scanner.openBlock token scanner.place.column scanner.tokens.size

/-- Ends the innermost collections whose columns are to be left. -/
def closeBlocks (scanner : Scanner) (leaves : Nat → Bool) : Scanner :=
  if scanner.inFlow then scanner
  else
    { scanner with
      columns := scanner.columns.dropWhile leaves
      tokens := scanner.tokens
        ++ List.replicate (scanner.columns.takeWhile leaves).length Token.blockEnd }

/-! ### Possible keys -/

/-- Gives up the possible key of this level. -/
def forgetKey (scanner : Scanner) : Option Scanner :=
  if scanner.key.any (·.required) then none else some { scanner with key := none }

/-- Remembers that a key could start here. Outside of brackets, only a key can start at the column
of an open collection. -/
def rememberKey (scanner : Scanner) : Option Scanner :=
  if scanner.keyAllowed then do
    let key : PossibleKey :=
      { place := scanner.place
        position := scanner.tokens.size
        required := !scanner.inFlow && scanner.columns.head? = some scanner.place.column }
    let scanner ← scanner.forgetKey
    return { scanner with key }
  else some scanner

/-- A key that can still be one, seen from a later place. -/
def freshKey (place : Place) : Option PossibleKey → Option (Option PossibleKey)
  | none => some none
  | some key =>
    if key.place.line = place.line && place.index ≤ key.place.index + keyLimit then some (some key)
    else if key.required then none
    else some none

/-- Gives up the possible keys that stand on another line or too far in front. -/
def freshKeys (scanner : Scanner) : Option Scanner := do
  let key ← freshKey scanner.place scanner.key
  let outer ← scanner.outer.mapM (freshKey scanner.place)
  return { scanner with key, outer }

/-! ### Between tokens -/

/-- Leaves spaces, comments and line breaks behind. Outside of brackets a key can start behind a
line break; where a key can start, a tab is no space. -/
def skipWhite (flow : Bool) : Bool → Bool → Place → List Char → Bool × Place × List Char
  | _, keyAllowed, place, [] => (keyAllowed, place, [])
  | comment, keyAllowed, place, c :: rest =>
    if isBreak c then skipWhite flow false (keyAllowed || !flow) (place.step c) rest
    else if comment || c = '#' then skipWhite flow true keyAllowed (place.step c) rest
    else if c = ' ' || (c = '\t' && (flow || !keyAllowed))
        || (isByteOrderMark c && place.column = 0) then
      skipWhite flow false keyAllowed (place.step c) rest
    else (keyAllowed, place, c :: rest)

def toNext (scanner : Scanner) : Option Scanner := do
  let (keyAllowed, place, rest) :=
    skipWhite scanner.inFlow false scanner.keyAllowed scanner.place scanner.rest
  let scanner ← freshKeys { scanner with keyAllowed, place, rest }
  return scanner.closeBlocks (place.column < ·)

/-! ### Tokens -/

/-- A line that begins or ends a document. -/
def documentMark (scanner : Scanner) (token : Token) : Option Scanner := do
  let scanner ← (scanner.closeBlocks fun _ => true).forgetKey
  return ({ scanner with keyAllowed := false }.pass 3).emit token

/-- An opening bracket, with which a key could start. -/
def openBracket (scanner : Scanner) (token : Token) : Option Scanner := do
  let scanner ← scanner.rememberKey
  return ({ scanner with
    key := none, outer := scanner.key :: scanner.outer, keyAllowed := true }.pass 1).emit token

def closeBracket (scanner : Scanner) (token : Token) : Option Scanner := do
  let scanner ← scanner.forgetKey
  return ({ scanner with
    key := scanner.outer.head?.join, outer := scanner.outer.tail,
    keyAllowed := false }.pass 1).emit token

def commaMark (scanner : Scanner) : Option Scanner := do
  let scanner ← scanner.forgetKey
  return ({ scanner with keyAllowed := true }.pass 1).emit .comma

def itemMark (scanner : Scanner) : Option Scanner := do
  if !scanner.inFlow && !scanner.keyAllowed then none
  let scanner ← (scanner.openHere .blockSequence).forgetKey
  return ({ scanner with keyAllowed := true }.pass 1).emit .item

def keyMark (scanner : Scanner) : Option Scanner := do
  if !scanner.inFlow && !scanner.keyAllowed then none
  let scanner ← (scanner.openHere .blockMapping).forgetKey
  return ({ scanner with keyAllowed := !scanner.inFlow }.pass 1).emit .key

def valueMark (scanner : Scanner) : Option Scanner :=
  match scanner.key with
  | some key =>
    let marked := { scanner with
      tokens := scanner.tokens.insertIdxIfInBounds key.position .key
      key := none
      keyAllowed := false }
    some (((marked.openBlock .blockMapping key.place.column key.position).pass 1).emit .value)
  | none => do
    if !scanner.inFlow && !scanner.keyAllowed then none
    let scanner := scanner.openHere .blockMapping
    return ({ scanner with keyAllowed := !scanner.inFlow }.pass 1).emit .value

def afterScalar (scanner : Scanner) (scanned : Scanned) (plain : Bool) : Scanner :=
  { scanner with
    rest := scanned.rest
    place := scanned.place
    keyAllowed := scanned.crossed }.emit (.scalar scanned.text plain)

def quotedScalar (scanner : Scanner) (double : Bool) : Option Scanner := do
  let scanner ← scanner.rememberKey
  let scanned ← quoted double (scanner.pass 1).place (scanner.pass 1).rest
  return scanner.afterScalar scanned false

/-- A plain scalar; its lines are indented further than the collection it stands in. -/
def plainScalar (scanner : Scanner) : Option Scanner := do
  let least := match scanner.columns with
    | [] => 0
    | column :: _ => column + 1
  let scanner ← scanner.rememberKey
  let scanned ← plain scanner.inFlow least {} [] scanner.place scanner.rest
  return scanner.afterScalar scanned true

/-- Reads one token. Directives, anchors, aliases, tags and block scalars are refused. -/
def next (scanner : Scanner) : Option Scanner :=
  let behind := scanner.rest.drop 1
  let stands := scanner.inFlow || endsWord behind
  match scanner.rest with
  | [] => none
  | c :: _ =>
    if scanner.place.column = 0 && c = '%' then none
    else if isDocumentMark '-' scanner.place scanner.rest then scanner.documentMark .documentStart
    else if isDocumentMark '.' scanner.place scanner.rest then scanner.documentMark .documentEnd
    else if c = '[' then scanner.openBracket .flowSequence
    else if c = '\x7b' then scanner.openBracket .flowMapping
    else if c = ']' then scanner.closeBracket .flowSequenceEnd
    else if c = '\x7d' then scanner.closeBracket .flowMappingEnd
    else if c = ',' then scanner.commaMark
    else if c = '-' && endsWord behind then scanner.itemMark
    else if c = '?' && stands then scanner.keyMark
    else if c = ':' && stands then scanner.valueMark
    else if c = '\'' then scanner.quotedScalar false
    else if c = '"' then scanner.quotedScalar true
    else if startsPlain scanner.inFlow scanner.rest then scanner.plainScalar
    else none

def run : Nat → Scanner → Option (List Token)
  | 0, _ => none
  | budget + 1, scanner => do
    let scanner ← scanner.toNext
    if scanner.rest.isEmpty then
      let scanner ← (scanner.closeBlocks fun _ => true).forgetKey
      return scanner.tokens.toList
    else run budget (← scanner.next)

end Scanner

def tokens? (input : String) : Option (List Token) :=
  if input.toList.all isAllowed then
    Scanner.run (input.length + 1) { rest := lineFeeds input.toList }
  else none

end Yaml

end Pagewright
