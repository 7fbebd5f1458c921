import Pagewright.Error
import Pagewright.Text.Blank
import Pagewright.Text.Identifier

/-!
# Tokens

A source text splits into words, numbers, quoted texts, marks and line ends,
each with the place of its first character. Words and numbers are as long as
possible. Between tokens stand only blanks.

Each step of `scan` either reports a fault or passes over at least one
character, so a budget of one step for each character is enough.
-/

namespace Pagewright

inductive Lexeme where
  | word (name : String)
  /-- The text between the quotes, with its escapes replaced. -/
  | quoted (text : String)
  | digits (text : String)
  | mark (c : Char)
  | endOfLine
  deriving DecidableEq, Repr

structure Token where
  lexeme : Lexeme
  position : Position
  deriving DecidableEq, Repr

namespace Lexeme

/-- How messages show a lexeme. -/
def written : Lexeme → String
  | .word name => name
  | .quoted text => text
  | .digits text => text
  | .mark c => c.toString
  | .endOfLine => ""

end Lexeme

namespace Token

def marks : List Char :=
  ['(', ')', '\x7b', '\x7d', '[', ']', ',', ':']

/-- A character that continues a number. -/
def isNumberPart (c : Char) : Bool :=
  c.isDigit || c == '_'

/-- The character that an escape stands for. -/
def unescape : Char → Char
  | 'n' => '\n'
  | 't' => '\t'
  | c => c

/-- A quoted text read from behind its opening quote. -/
structure Quotation where
  /-- The text with its escapes replaced. -/
  value : List Char
  /-- The characters passed over, with the closing quote. -/
  passed : List Char
  /-- What follows the closing quote. -/
  rest : List Char

/-- Reads to the closing quote; `none` if there is none. -/
def quotation? : List Char → Option Quotation
  | [] => none
  | '"' :: rest => some ⟨[], ['"'], rest⟩
  | '\\' :: c :: rest =>
    (quotation? rest).map fun quotation =>
      { quotation with
        value := unescape c :: quotation.value
        passed := '\\' :: c :: quotation.passed }
  | c :: rest =>
    (quotation? rest).map fun quotation =>
      { quotation with
        value := c :: quotation.value
        passed := c :: quotation.passed }

/-- The tokens of a text that starts at `position`, in at most `budget` steps. -/
def scan : Nat → Position → List Char → Except Error (List Token)
  | _, _, [] => .ok []
  | 0, _, _ :: _ => .ok []
  | budget + 1, position, c :: rest =>
    if c = '\n' then do
      let tokens ← scan budget (position.step c) rest
      return ⟨.endOfLine, position⟩ :: tokens
    else if isBlank c then
      scan budget (position.step c) rest
    else if isWordStart c then do
      let word := c :: rest.takeWhile isWordPart
      let tokens ← scan budget (position.advance word) (rest.dropWhile isWordPart)
      return ⟨.word (String.ofList word), position⟩ :: tokens
    else if c.isDigit then do
      let digits := c :: rest.takeWhile isNumberPart
      let tokens ← scan budget (position.advance digits) (rest.dropWhile isNumberPart)
      return ⟨.digits (String.ofList digits), position⟩ :: tokens
    else if c = '"' then
      match quotation? rest with
      | none => .error (.lexical position .unclosedQuote)
      | some quotation => do
        let tokens ← scan budget (position.advance (c :: quotation.passed)) quotation.rest
        return ⟨.quoted (String.ofList quotation.value), position⟩ :: tokens
    else if marks.contains c then do
      let tokens ← scan budget (position.step c) rest
      return ⟨.mark c, position⟩ :: tokens
    else
      .error (.lexical position (.unexpected c))

end Token

def tokenize (source : String) : Except Error (List Token) :=
  Token.scan source.length Position.start source.toList

end Pagewright
