import Pagewright.Yaml.Basic
import Pagewright.Yaml.Character

/-!
# YAML scalars

A scalar is made of words with gaps between them. A gap inside a line stands for
itself. Of a gap with line breaks the spaces do not count: one line feed stands
for a blank, and of several the first is left out.

A plain scalar runs up to a colon or a comment; inside brackets also up to a
comma or a bracket, and outside of them up to a line that is not indented enough.
A quoted scalar runs up to its closing quote.
-/

namespace Pagewright

namespace Yaml

/-! ### Gaps -/

structure Gap where
  /-- The spaces, as long as no line break has been met. -/
  spaces : List Char := []
  breaks : List Char := []
  /-- The gap starts with a line break that is escaped, and so does not count. -/
  escaped : Bool := false

namespace Gap

def hasBreak (gap : Gap) : Bool :=
  gap.escaped || !gap.breaks.isEmpty

def isEmpty (gap : Gap) : Bool :=
  gap.spaces.isEmpty && !gap.hasBreak

/-- The gap with one more character of white space. -/
def add (gap : Gap) (c : Char) : Gap :=
  if isBreak c then { gap with spaces := [], breaks := gap.breaks ++ [c] }
  else if gap.hasBreak then gap
  else { gap with spaces := gap.spaces ++ [c] }

def text (gap : Gap) : List Char :=
  if gap.escaped then gap.breaks
  else
    match gap.breaks with
    | [] => gap.spaces
    | ['\n'] => [' ']
    | '\n' :: more => more
    | breaks => breaks

end Gap

structure Scanned where
  text : String
  /-- Where reading stopped. -/
  place : Place
  rest : List Char
  /-- The line breaks behind the scalar have been read with it. -/
  crossed : Bool := false

/-- The scalar whose text, given backwards, has been read up to a place. -/
def Scanned.upTo (text : List Char) (place : Place) (rest : List Char) (gap : Gap) : Scanned :=
  { text := String.ofList text.reverse, place, rest, crossed := gap.hasBreak }

/-! ### Plain scalars -/

/-- Whether a plain scalar can start here. -/
def startsPlain (flow : Bool) : List Char → Bool
  | [] => false
  | first :: rest =>
    if first = '-' then !endsWord rest
    else if first = '?' || first = ':' then !flow && !endsWord rest
    else !isWhite first && !isFlowMark first
      && !(['#', '&', '*', '!', '|', '>', '\'', '"', '%', '@', '\x60'].contains first)

/-- Reads a plain scalar on from a gap, behind the text read so far, which is given backwards. The
indentation is not made of tabs, and inside brackets a colon before a mark is refused. -/
def plain (flow : Bool) (least : Nat) (gap : Gap) (text : List Char) (place : Place) :
    List Char → Option Scanned
  | [] => some (.upTo text place [] gap)
  | c :: rest =>
    if isWhite c then
      if c = '\t' && gap.hasBreak && place.column < least then none
      else plain flow least (gap.add c) text (place.step c) rest
    else if !gap.isEmpty
        && (c = '#' || (!flow && place.column < least) || atDocumentMark place (c :: rest)) then
      some (.upTo text place (c :: rest) gap)
    else if flow && c = ':' && rest.head?.any (fun next => next = '?' || isFlowMark next) then none
    else if c = ':' && endsWord rest || flow && isFlowMark c then
      some (.upTo text place (c :: rest) gap)
    else plain flow least {} (c :: (gap.text.reverse ++ text)) (place.step c) rest

/-! ### Quoted scalars -/

/-- The character of a code written with some hexadecimal digits. -/
def coded? (digits : List Char) (count : Nat) : Option Char := do
  if digits.length < count then none
  let code ← digitsIn? 16 (digits.take count)
  if Nat.isValidChar code then some (Char.ofNat code) else none

/-- The character that an escape stands for, and how many characters stand for it behind the
backslash. -/
def escape? : List Char → Option (Char × Nat)
  | [] => none
  | c :: rest =>
    match c with
    | '0' => some (Char.ofNat 0, 1)
    | 'a' => some (Char.ofNat 7, 1)
    | 'b' => some (Char.ofNat 8, 1)
    | 't' | '\t' => some ('\t', 1)
    | 'n' => some ('\n', 1)
    | 'v' => some (Char.ofNat 11, 1)
    | 'f' => some (Char.ofNat 12, 1)
    | 'r' => some ('\r', 1)
    | 'e' => some (Char.ofNat 27, 1)
    | ' ' | '"' | '/' | '\\' => some (c, 1)
    | 'N' => some (Char.ofNat 0x85, 1)
    | '_' => some (Char.ofNat 0xA0, 1)
    | 'L' => some (Char.ofNat 0x2028, 1)
    | 'P' => some (Char.ofNat 0x2029, 1)
    | 'x' => (coded? rest 2).map (·, 3)
    | 'u' => (coded? rest 4).map (·, 5)
    | 'U' => (coded? rest 8).map (·, 9)
    | _ => none

/-- Reads a quoted scalar on from a gap, behind the text read so far, which is given backwards. No
line in it begins or ends a document. -/
def quotedFrom (double : Bool) : Nat → Gap → List Char → Place → List Char → Option Scanned
  | 0, _, _, _, _ => none
  | _, _, _, _, [] => none
  | budget + 1, gap, text, place, c :: rest =>
    if isWhite c then quotedFrom double budget (gap.add c) text (place.step c) rest
    else if atDocumentMark place (c :: rest) then none
    else
      let text := gap.text.reverse ++ text
      if double && c = '"' then some (.upTo text (place.step c) rest {})
      else if double && c = '\\' then
        match rest with
        | [] => none
        | next :: more =>
          if isBreak next then
            quotedFrom double budget { escaped := true } text ((place.step c).step next) more
          else do
            let (meant, count) ← escape? rest
            quotedFrom double budget {} (meant :: text) ((place.step c).steps (rest.take count))
              (rest.drop count)
      else if !double && c = '\'' then
        match rest with
        | '\'' :: more => quotedFrom double budget {} (c :: text) ((place.step c).step c) more
        | _ => some (.upTo text (place.step c) rest {})
      else quotedFrom double budget {} (c :: text) (place.step c) rest

/-- Reads a quoted scalar whose opening quote stands in front of the place. -/
def quoted (double : Bool) (place : Place) (input : List Char) : Option Scanned :=
  quotedFrom double input.length {} [] place input

end Yaml

end Pagewright
