import Pagewright.Expression.Copy
import Pagewright.Expression.Token

/-!
# Expressions of a source text

A recursive descent over tokens. An expression is a name followed by arguments
`name: value` on one line, or the same between parentheses over several lines.
A value is an atom, a text, a number, a block of expressions between braces or
a list of values between brackets.

An expression takes its identifier when it begins, before anything inside it is
read; identifiers taken by a text that turns out to be malformed stay taken.

The routines call each other at most twice for each token, so a budget of two
calls for each token and two more is never used up.
-/

namespace Pagewright

/-- The tokens still to be read, and the identifiers still to be handed out. -/
structure Cursor where
  tokens : List Token
  ids : Supply

/-- Reads tokens; identifiers taken before a fault stay taken. -/
abbrev Reading := EStateM Error Cursor

namespace Reading

/-- Reports a fault at the next token, or at `last` when there is none. -/
def failHere {α : Type} (last : Position) (fault : GrammarFault) : Reading α := do
  match (← get).tokens with
  | token :: _ => throw (.grammar token.position fault)
  | [] => throw (.grammar last fault)

def skipLines : Reading Unit :=
  modify fun cursor =>
    { cursor with tokens := cursor.tokens.dropWhile fun token => token.lexeme == .endOfLine }

/-- Passes over the mark `c` if it comes next, and tells whether it did. -/
def accept (c : Char) : Reading Bool := do
  match (← get).tokens with
  | token :: rest =>
    if token.lexeme = .mark c then
      modify fun cursor => { cursor with tokens := rest }
      return true
    else
      return false
  | [] => return false

def atEnd : Reading Bool := do
  return (← get).tokens.isEmpty

/-- The name and the place of an argument that comes next, whose name and colon are passed over. -/
def argumentName? : Reading (Option (String × Position)) := do
  match (← get).tokens with
  | ⟨.word name, position⟩ :: ⟨.mark ':', _⟩ :: rest =>
    modify fun cursor => { cursor with tokens := rest }
    return some (name, position)
  | _ => return none

def atArgument : Reading Bool := do
  match (← get).tokens with
  | ⟨.word _, _⟩ :: ⟨.mark ':', _⟩ :: _ => return true
  | _ => return false

def takeId : Reading ExpressionId :=
  modifyGet fun cursor =>
    let (id, ids) := cursor.ids.take
    (id, { cursor with ids })

def kindName (last : Position) : Reading String := do
  match (← get).tokens with
  | ⟨.word name, _⟩ :: rest =>
    modify fun cursor => { cursor with tokens := rest }
    return name
  | ⟨lexeme, position⟩ :: _ => throw (.grammar position (.notAName lexeme.written))
  | [] => throw (.grammar last .nameAtEnd)

/-- The next argument, whose value is read by `value`, and then those that `more` reads after the
arguments there are by then. -/
def argumentThen (last : Position) (enclosed : Bool) (read : Arguments) (value : Reading Argument)
    (more : Arguments → Reading Arguments) : Reading Arguments := do
  match ← argumentName? with
  | none =>
    if enclosed then failHere last .notAnArgument else return read
  | some (name, position) =>
    let value ← value
    if Entries.has read name then
      throw (.grammar position (.repeatedArgument name))
    let read := Entries.insert name value read
    if ← accept ',' then
      skipLines
      if ← atArgument then more read else failHere last .noArgumentAfterComma
    else if enclosed then
      more read
    else
      return read

mutual

/-- An expression below `parent`. -/
def expression (last : Position) : Nat → Option ExpressionId → Reading Expression
  | 0, _ => failHere last .nameAtEnd
  | budget + 1, parent => do
    let id ← takeId
    if ← accept '(' then
      skipLines
      let kind ← kindName last
      let arguments ← arguments last budget id true []
      return ⟨id, parent, kind, arguments⟩
    else
      let kind ← kindName last
      let arguments ← arguments last budget id false []
      return ⟨id, parent, kind, arguments⟩

/-- The arguments of the expression `owner` that follow those already `read`; `enclosed` ones go on
over line ends to a closing parenthesis. -/
def arguments (last : Position) : Nat → ExpressionId → Bool → Arguments → Reading Arguments
  | 0, _, _, _ => failHere last .nameAtEnd
  | budget + 1, owner, enclosed, read => do
    if enclosed then
      skipLines
      if ← accept ')' then
        return read
      if ← atEnd then
        failHere last .unclosedParenthesis
    argumentThen last enclosed read (value last budget owner)
      (arguments last budget owner enclosed)

/-- The value of an argument of the expression `owner`. -/
def value (last : Position) : Nat → ExpressionId → Reading Argument
  | 0, _ => failHere last .valueAtEnd
  | budget + 1, owner => do
    match (← get).tokens with
    | [] => throw (.grammar last .valueAtEnd)
    | ⟨lexeme, position⟩ :: rest =>
      let pass : Reading Unit := modify fun cursor => { cursor with tokens := rest }
      match lexeme with
      | .word name =>
        pass
        return .atom name
      | .quoted text =>
        pass
        return .text text
      | .digits digits =>
        pass
        return .number digits
      | .mark '\x7b' =>
        pass
        return .block (← block last budget owner position [])
      | .mark '[' =>
        pass
        return .list (← items last budget owner [])
      | lexeme => throw (.grammar position (.notAValue lexeme.written))

/-- The rest of a block that was opened at `opened`, after the expressions already `read`, which
are kept latest first. -/
def block (last : Position) :
    Nat → ExpressionId → Position → List Expression → Reading (List Expression)
  | 0, _, _, _ => failHere last .nameAtEnd
  | budget + 1, owner, opened, read => do
    skipLines
    if ← accept '\x7d' then
      return read.reverse
    if ← atEnd then
      throw (.grammar opened .unclosedBlock)
    let child ← expression last budget (some owner)
    block last budget owner opened (child :: read)

/-- The rest of a list, after the values already `read`, which are kept latest first. -/
def items (last : Position) : Nat → ExpressionId → List Argument → Reading (List Argument)
  | 0, _, _ => failHere last .valueAtEnd
  | budget + 1, owner, read => do
    skipLines
    let item ← value last budget owner
    skipLines
    if ← accept ',' then
      items last budget owner (item :: read)
    else if ← accept ']' then
      return (item :: read).reverse
    else
      failHere last (.missingMark ']')

end

/-- The expressions of a whole text, after those already `read`, which are kept latest first. -/
def program (last : Position) : Nat → List Expression → Reading (List Expression)
  | 0, read => return read.reverse
  | budget + 1, read => do
    skipLines
    if ← atEnd then
      return read.reverse
    let next ← expression last budget none
    match (← get).tokens with
    | [] => return (next :: read).reverse
    | ⟨.endOfLine, _⟩ :: _ => program last budget (next :: read)
    | ⟨lexeme, position⟩ :: _ => throw (.grammar position (.trailing lexeme.written))

end Reading

/-- The top-level expressions of a source text. -/
def parseSource (source : String) : EStateM Error Supply (List Expression) := fun ids =>
  match tokenize source with
  | .error error => .error error ids
  | .ok tokens =>
    let last := (tokens.getLast?.map Token.position).getD Position.start
    match Reading.program last (2 * tokens.length + 2) [] ⟨tokens, ids⟩ with
    | .ok expressions cursor => .ok expressions cursor.ids
    | .error error cursor => .error error cursor.ids

end Pagewright
