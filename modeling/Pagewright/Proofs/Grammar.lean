import Pagewright.Expression.Token
import Pagewright.Proofs.Outline

/-!
# The grammar of sources

How lexemes make up the expressions of a source, where `EOL` is a line end:

    Source     = EOL* (Expression (EOL+ Expression)* EOL*)?
    Expression = Name (Argument (',' EOL* Argument)*)?
               | '(' EOL* Name (Separator Argument)* EOL* ')'
    Argument   = Name ':' Value
    Value      = Atom | Text | Number
               | '{' (EOL* Expression)* EOL* '}'
               | '[' EOL* Value EOL* (',' EOL* Value EOL*)* ']'

Before the first argument between parentheses a separator is `EOL*`; between two of them it may
also be a comma that directly follows the value, and then `EOL*`. No argument is given twice.

The grammar derives outlines: it says nothing about identifiers, and an expression has a parent
if it stands in a block.
-/

namespace Pagewright.Grammar

variable {text gap lexemes rest : List Lexeme} {given arguments : Arguments} {tree : Expression}
  {parent : Option ExpressionId} {children : List Expression} {enclosed : Bool} {lexeme : Lexeme}
  {name : String}

def LineEnds (lexemes : List Lexeme) : Prop :=
  ∀ lexeme ∈ lexemes, lexeme = .endOfLine

inductive Separates : Bool → List Lexeme → Prop
  | comma (enclosed : Bool) {gap : List Lexeme} : LineEnds gap → Separates enclosed (.mark ',' :: gap)
  | lineEnds {gap : List Lexeme} : LineEnds gap → Separates true gap

/-- The arguments of an expression, from those given one after the other. -/
structure Gathers (given : List (String × Argument)) (arguments : Arguments) : Prop where
  distinct : (given.map Prod.fst).Nodup
  ordered : arguments.Ordered
  same : arguments.Perm given

mutual

/-- `Name Body`, or `'(' EOL* Name Body` where the body ends with the closing parenthesis. -/
inductive IsExpression : Option ExpressionId → List Lexeme → Expression → Prop
  | line {parent : Option ExpressionId} {kind : String} {text : List Lexeme}
      {given : List (String × Argument)} {arguments : Arguments} :
      IsBody false text given → Gathers given arguments →
      IsExpression parent (.word kind :: text) ⟨0, parent, kind, arguments⟩
  | enclosed {parent : Option ExpressionId} {kind : String} {start text : List Lexeme}
      {given : List (String × Argument)} {arguments : Arguments} :
      LineEnds start → IsBody true text given → Gathers given arguments →
      IsExpression parent (.mark '(' :: start ++ .word kind :: text) ⟨0, parent, kind, arguments⟩

/-- What follows the name: on a line `(Argument (',' EOL* Argument)*)?`, between parentheses
`(Separator Argument)* EOL* ')'`. -/
inductive IsBody : Bool → List Lexeme → List (String × Argument) → Prop
  | empty : IsBody false [] []
  | line {text : List Lexeme} {given : List (String × Argument)} :
      IsArguments false text given → IsBody false text given
  | closed {stop : List Lexeme} : LineEnds stop → IsBody true (stop ++ [.mark ')']) []
  | enclosed {start text stop : List Lexeme} {given : List (String × Argument)} :
      LineEnds start → IsArguments true text given → LineEnds stop →
      IsBody true (start ++ text ++ stop ++ [.mark ')']) given

/-- `Argument (Separator Argument)*`. -/
inductive IsArguments : Bool → List Lexeme → List (String × Argument) → Prop
  | last {enclosed : Bool} {name : String} {text : List Lexeme} {value : Argument} :
      IsValue text value → IsArguments enclosed (.word name :: .mark ':' :: text) [(name, value)]
  | more {enclosed : Bool} {name : String} {text gap rest : List Lexeme} {value : Argument}
      {given : List (String × Argument)} :
      IsValue text value → Separates enclosed gap → IsArguments enclosed rest given →
      IsArguments enclosed (.word name :: .mark ':' :: text ++ gap ++ rest) ((name, value) :: given)

inductive IsValue : List Lexeme → Argument → Prop
  | atom (name : String) : IsValue [.word name] (.atom name)
  | text (value : String) : IsValue [.quoted value] (.text value)
  | number (digits : String) : IsValue [.digits digits] (.number digits)
  | block {text : List Lexeme} {children : List Expression} :
      IsBlock text children → IsValue (.mark '\x7b' :: text) (.block children)
  | list {text : List Lexeme} {items : List Argument} :
      IsItems text items → IsValue (.mark '[' :: text) (.list items)

/-- `(EOL* Expression)* EOL* '}'`. -/
inductive IsBlock : List Lexeme → List Expression → Prop
  | closed {stop : List Lexeme} : LineEnds stop → IsBlock (stop ++ [.mark '\x7d']) []
  | more {gap text rest : List Lexeme} {child : Expression} {children : List Expression} :
      LineEnds gap → IsExpression (some 0) text child → IsBlock rest children →
      IsBlock (gap ++ text ++ rest) (child :: children)

/-- `EOL* Value EOL* (',' EOL* Value EOL*)* ']'`. -/
inductive IsItems : List Lexeme → List Argument → Prop
  | last {start text stop : List Lexeme} {item : Argument} :
      LineEnds start → IsValue text item → LineEnds stop →
      IsItems (start ++ text ++ stop ++ [.mark ']']) [item]
  | more {start text stop rest : List Lexeme} {item : Argument} {items : List Argument} :
      LineEnds start → IsValue text item → LineEnds stop → IsItems rest items →
      IsItems (start ++ text ++ stop ++ .mark ',' :: rest) (item :: items)

end

/-- `Expression (EOL+ Expression)*`. -/
inductive IsLines : List Lexeme → List Expression → Prop
  | last {text : List Lexeme} {e : Expression} : IsExpression none text e → IsLines text [e]
  | more {text gap rest : List Lexeme} {e : Expression} {es : List Expression} :
      IsExpression none text e → LineEnds gap → gap ≠ [] → IsLines rest es →
      IsLines (text ++ gap ++ rest) (e :: es)

inductive IsSource : List Lexeme → List Expression → Prop
  | empty {gap : List Lexeme} : LineEnds gap → IsSource gap []
  | lines {start text stop : List Lexeme} {es : List Expression} :
      LineEnds start → IsLines text es → LineEnds stop → IsSource (start ++ text ++ stop) es

/-! ### Line ends -/

theorem LineEnds.nil : LineEnds [] := by
  simp [LineEnds]

theorem LineEnds.append {first second : List Lexeme} (before : LineEnds first)
    (after : LineEnds second) : LineEnds (first ++ second) := by
  intro lexeme member
  rcases List.mem_append.mp member with inFirst | inSecond
  · exact before lexeme inFirst
  · exact after lexeme inSecond

/-- Passing over line ends stops at the first lexeme that is none. -/
theorem LineEnds.dropWhile_append (ends : LineEnds gap) (stops : rest.head? ≠ some .endOfLine) :
    (gap ++ rest).dropWhile (· == .endOfLine) = rest := by
  rw [List.dropWhile_append_of_pos (by simpa [LineEnds] using ends)]
  cases rest with
  | nil => rfl
  | cons first rest =>
    have other : first ≠ .endOfLine := by simpa using stops
    simp [other]

theorem LineEnds.dropWhile_eq_nil (ends : LineEnds gap) : gap.dropWhile (· == .endOfLine) = [] := by
  rw [← List.append_nil gap]
  exact ends.dropWhile_append (by simp)

/-- Behind line ends comes what follows them, or a line end. -/
theorem LineEnds.head?_append (ends : LineEnds gap) (first : (gap ++ rest).head? = some lexeme) :
    lexeme = .endOfLine ∨ gap = [] ∧ rest.head? = some lexeme := by
  cases gap with
  | nil => exact .inr ⟨rfl, first⟩
  | cons line gap =>
    obtain rfl : line = lexeme := by simpa using first
    exact .inl (ends line (by simp))

/-! ### Arguments in order -/

theorem Gathers.nil : Gathers [] [] :=
  ⟨List.nodup_nil, List.Pairwise.nil, .refl []⟩

theorem Gathers.has_iff (gathers : Gathers given arguments) :
    Entries.has arguments name = true ↔ name ∈ given.map Prod.fst := by
  rw [← (gathers.same.map Prod.fst).mem_iff, Entries.has, Option.isSome_iff_exists]
  constructor
  · rintro ⟨value, found⟩
    exact List.mem_map_of_mem (Entries.mem_of_lookup found)
  · intro member
    obtain ⟨⟨_, value⟩, among, rfl⟩ := List.mem_map.mp member
    exact ⟨value, gathers.ordered.lookup_of_mem among⟩

theorem Gathers.add (gathers : Gathers given arguments) (fresh : name ∉ given.map Prod.fst)
    (value : Argument) :
    Gathers (given ++ [(name, value)]) (Entries.insert name value arguments) where
  distinct := by
    rw [List.map_append]
    exact (List.perm_append_singleton name _).nodup_iff.mpr
      (List.nodup_cons.mpr ⟨fresh, gathers.distinct⟩)
  ordered := gathers.ordered.insert name value
  same := by
    have missing : name ∉ arguments.map Prod.fst := by
      rwa [(gathers.same.map Prod.fst).mem_iff]
    have inFront : (Entries.insert name value arguments).Perm ((name, value) :: given) :=
      (Entries.insert_perm missing value).trans (gathers.same.cons _)
    exact inFront.trans (List.perm_append_singleton _ _).symm

/-- What is given makes up one set of arguments. -/
theorem Gathers.unique {first second : Arguments} (gathers : Gathers given first)
    (also : Gathers given second) : first = second := by
  apply (gathers.same.trans also.same.symm).eq_of_pairwise ?_ gathers.ordered also.ordered
  intro a b _ _ below above
  exact absurd below above.asymm

/-! ### First lexemes

What the next lexemes can be tells where an expression on a line ends. -/

def AtArgument (lexemes : List Lexeme) : Prop :=
  ∃ name rest, lexemes = .word name :: .mark ':' :: rest

/-- An expression on a line does not go on here. -/
structure Stops (lexemes : List Lexeme) : Prop where
  argument : ¬AtArgument lexemes
  comma : lexemes.head? ≠ some (.mark ',')

private theorem AtArgument.head? (argument : AtArgument lexemes) :
    ∃ name, lexemes.head? = some (.word name) := by
  obtain ⟨name, rest, rfl⟩ := argument
  exact ⟨name, rfl⟩

private theorem IsArguments.atArgument (arguments : IsArguments enclosed text given)
    (rest : List Lexeme) : AtArgument (text ++ rest) := by
  cases arguments with
  | last | more => exact ⟨_, _, rfl⟩

section

variable (expression : IsExpression parent text tree)

include expression

theorem IsExpression.head? (rest : List Lexeme) :
    (text ++ rest).head? = some (.mark '(') ∨ ∃ kind, (text ++ rest).head? = some (.word kind) := by
  cases expression with
  | line => exact .inr ⟨_, rfl⟩
  | enclosed => exact .inl rfl

theorem IsExpression.length_pos : 0 < text.length := by
  cases expression with
  | line | enclosed => simp

theorem IsExpression.isEmpty (rest : List Lexeme) : (text ++ rest).isEmpty = false := by
  cases expression <;> rfl

theorem IsExpression.head?_ne_endOfLine (rest : List Lexeme) :
    (text ++ rest).head? ≠ some .endOfLine := by
  rcases expression.head? rest with opening | ⟨kind, word⟩
  · simp [opening]
  · simp [word]

end

theorem IsValue.head?_ne_endOfLine {value : Argument} (valued : IsValue text value)
    (rest : List Lexeme) : (text ++ rest).head? ≠ some .endOfLine := by
  cases valued <;> simp

theorem IsBlock.length_pos (block : IsBlock text children) : 0 < text.length := by
  cases block with
  | closed => simp
  | more _ expression _ =>
    have := expression.length_pos
    simp only [List.length_append]
    omega

private theorem IsBlock.head? (block : IsBlock text children) (rest : List Lexeme)
    (first : (text ++ rest).head? = some lexeme) : lexeme ≠ .mark ',' ∧ lexeme ≠ .mark ':' := by
  cases block with
  | closed ends =>
    rw [List.append_assoc] at first
    rcases ends.head?_append first with rfl | ⟨-, closing⟩
    · simp
    · obtain rfl : .mark '\x7d' = lexeme := by simpa using closing
      simp
  | more ends expression =>
    rw [List.append_assoc, List.append_assoc] at first
    rcases ends.head?_append first with rfl | ⟨-, starting⟩
    · simp
    · rcases expression.head? _ with opening | ⟨kind, word⟩
      · obtain rfl : .mark '(' = lexeme := by simpa using opening.symm.trans starting
        simp
      · obtain rfl : .word kind = lexeme := by simpa using word.symm.trans starting
        simp

/-- An expression is not an argument, whatever may follow it in a block. -/
theorem IsExpression.not_atArgument (expression : IsExpression parent text tree)
    (colon : rest.head? ≠ some (.mark ':')) : ¬AtArgument (text ++ rest) := by
  rintro ⟨name, after, same⟩
  cases expression with
  | enclosed => simp at same
  | line body =>
    cases body with
    | empty =>
      obtain ⟨-, rfl⟩ : _ ∧ rest = .mark ':' :: after := by simpa using same
      exact colon rfl
    | line arguments =>
      obtain ⟨second, more, named⟩ := arguments.atArgument rest
      rw [List.cons_append, named] at same
      simp at same

theorem IsBlock.stops (block : IsBlock text children) (rest : List Lexeme) :
    Stops (text ++ rest) where
  comma comma := (block.head? rest comma).1 rfl
  argument argument := by
    obtain ⟨name, word⟩ := argument.head?
    cases block with
    | closed ends =>
      rw [List.append_assoc] at word
      rcases ends.head?_append word with line | ⟨-, closing⟩
      · cases line
      · simp at closing
    | more ends expression more =>
      -- the colon would have to come from behind the expression
      rw [List.append_assoc, List.append_assoc] at word argument
      rcases ends.head?_append word with line | ⟨rfl, -⟩
      · cases line
      · exact expression.not_atArgument (fun colon => (more.head? rest colon).2 rfl) argument

/-- Nothing goes on at the end of a line or of the text. -/
theorem stops_of_line (ends : ∀ lexeme, lexemes.head? = some lexeme → lexeme = .endOfLine) :
    Stops lexemes where
  comma comma := by simpa using ends _ comma
  argument argument := by
    obtain ⟨name, word⟩ := argument.head?
    simpa using ends _ word

/-! ### One expression and the rest -/

private theorem IsLines.head?_ne_endOfLine {es : List Expression} (lines : IsLines text es)
    (rest : List Lexeme) : (text ++ rest).head? ≠ some .endOfLine := by
  cases lines with
  | last expression => exact expression.head?_ne_endOfLine rest
  | more expression =>
    simp only [List.append_assoc]
    exact expression.head?_ne_endOfLine _

theorem IsSource.cons {start text rest : List Lexeme} {e : Expression} {es : List Expression}
    (ends : LineEnds start) (expression : IsExpression none text e) (source : IsSource rest es)
    (line : rest.head? = some .endOfLine) : IsSource (start ++ text ++ rest) (e :: es) := by
  cases source with
  | empty gap => exact .lines ends (.last expression) gap
  | @lines gap others stop _ between lines stops =>
    -- line ends come first, so that there is at least one between the expressions
    have nonempty : gap ≠ [] := by
      rintro rfl
      exact lines.head?_ne_endOfLine stop line
    have whole := IsSource.lines ends (.more expression between nonempty lines) stops
    simpa using whole

theorem IsSource.uncons {trees : List Expression} (source : IsSource lexemes trees) :
    LineEnds lexemes ∧ trees = [] ∨
      ∃ start text rest tree others, LineEnds start ∧ lexemes = start ++ (text ++ rest) ∧
        trees = tree :: others ∧ IsExpression none text tree ∧
        (rest = [] ∧ others = [] ∨ rest.head? = some .endOfLine ∧ IsSource rest others) := by
  cases source with
  | empty gap => exact .inl ⟨gap, rfl⟩
  | @lines start _ stop _ ends lines stops =>
    refine .inr ?_
    cases lines with
    | last expression =>
      refine ⟨start, _, stop, _, [], ends, List.append_assoc .., rfl, expression, ?_⟩
      cases stop with
      | nil => exact .inl ⟨rfl, rfl⟩
      | cons line more => exact .inr ⟨congrArg some (stops line (by simp)), .empty stops⟩
    | @more text gap others e es expression between nonempty lines =>
      refine ⟨start, text, gap ++ others ++ stop, e, es, ends, by simp, rfl, expression, .inr ?_⟩
      refine ⟨?_, .lines between lines stops⟩
      cases gap with
      | nil => exact absurd rfl nonempty
      | cons line more => exact congrArg some (between line (by simp))

/-! ### One argument and the rest

The rules give arguments from left to right, so that one argument can be taken off the front. -/

/-- What follows the value of an argument, up to the end of the body. -/
inductive FollowsValue : Bool → List Lexeme → List (String × Argument) → Prop
  | comma {enclosed : Bool} {gap text : List Lexeme} {given : List (String × Argument)} :
      LineEnds gap → IsBody enclosed text given → given ≠ [] →
      FollowsValue enclosed (.mark ',' :: gap ++ text) given
  | enclosed {text : List Lexeme} {given : List (String × Argument)} :
      IsBody true text given → FollowsValue true text given
  | done : FollowsValue false [] []

theorem IsBody.after {start : List Lexeme} (ends : LineEnds start) (body : IsBody true text given) :
    IsBody true (start ++ text) given := by
  cases body with
  | closed stop =>
    rw [← List.append_assoc]
    exact .closed (ends.append stop)
  | enclosed more arguments stop =>
    simp only [← List.append_assoc]
    exact .enclosed (ends.append more) arguments stop

theorem IsBody.cons {enclosed : Bool} {text after : List Lexeme} {value : Argument}
    {given : Arguments} (name : String) (valued : IsValue text value)
    (follows : FollowsValue enclosed after given) :
    IsBody enclosed (.word name :: .mark ':' :: text ++ after) ((name, value) :: given) := by
  cases follows with
  | done =>
    rw [List.append_nil]
    exact .line (.last valued)
  | comma ends body nonempty =>
    cases body with
    | empty => exact absurd rfl nonempty
    | line arguments =>
      have whole : IsArguments false (.word name :: .mark ':' :: text ++ _ ++ _) _ :=
        .more valued (.comma false ends) arguments
      simpa using IsBody.line whole
    | closed => exact absurd rfl nonempty
    | enclosed start arguments stop =>
      have whole : IsArguments true (.word name :: .mark ':' :: text ++ _ ++ _) _ :=
        .more valued (.comma true (ends.append start)) arguments
      simpa using IsBody.enclosed .nil whole stop
  | enclosed body =>
    cases body with
    | closed stop =>
      have whole : IsArguments true (.word name :: .mark ':' :: text) _ := .last valued
      simpa using IsBody.enclosed .nil whole stop
    | enclosed start arguments stop =>
      have whole : IsArguments true (.word name :: .mark ':' :: text ++ _ ++ _) _ :=
        .more valued (.lineEnds start) arguments
      simpa using IsBody.enclosed .nil whole stop

theorem IsArguments.ne_nil (arguments : IsArguments enclosed text given) : given ≠ [] := by
  cases arguments with
  | last | more => simp

theorem IsBody.uncons (body : IsBody enclosed text given) (nonempty : given ≠ []) :
    ∃ start name inner value after more, LineEnds start ∧ (enclosed = false → start = []) ∧
      text = start ++ (.word name :: .mark ':' :: inner ++ after) ∧ given = (name, value) :: more ∧
      IsValue inner value ∧ FollowsValue enclosed after more := by
  cases body with
  | empty | closed => exact absurd rfl nonempty
  | line arguments =>
    cases arguments with
    | last valued => exact ⟨[], _, _, _, [], [], .nil, fun _ => rfl, by simp, rfl, valued, .done⟩
    | more valued between arguments =>
      cases between with
      | comma _ ends =>
        have follows := FollowsValue.comma ends (.line arguments) arguments.ne_nil
        exact ⟨[], _, _, _, _, _, .nil, fun _ => rfl, by simp, rfl, valued, follows⟩
  | enclosed start arguments stop =>
    cases arguments with
    | last valued =>
      exact ⟨_, _, _, _, _, _, start, nofun, by simp, rfl, valued, .enclosed (.closed stop)⟩
    | more valued between arguments =>
      cases between with
      | comma _ ends =>
        have follows := FollowsValue.comma ends (.enclosed .nil arguments stop) arguments.ne_nil
        exact ⟨_, _, _, _, _, _, start, nofun, by simp, rfl, valued, follows⟩
      | lineEnds gap =>
        have follows := FollowsValue.enclosed (.enclosed gap arguments stop)
        exact ⟨_, _, _, _, _, _, start, nofun, by simp, rfl, valued, follows⟩

/-- Between parentheses no argument comes first in an empty body. -/
theorem IsBody.ne_nil (body : IsBody true text given) (argument : AtArgument (text ++ rest)) :
    given ≠ [] := by
  rintro rfl
  obtain ⟨name, word⟩ := argument.head?
  cases body with
  | closed stop =>
    rw [List.append_assoc] at word
    rcases stop.head?_append word with line | ⟨-, closing⟩
    · cases line
    · simp at closing
  | enclosed _ arguments => exact absurd rfl arguments.ne_nil

/-- Between parentheses no comma comes first. -/
theorem IsBody.head?_ne_comma (body : IsBody true text given) (rest : List Lexeme) :
    (text ++ rest).head? ≠ some (.mark ',') := by
  intro comma
  cases body with
  | closed stop =>
    rw [List.append_assoc] at comma
    rcases stop.head?_append comma with line | ⟨-, closing⟩
    · cases line
    · simp at closing
  | enclosed start arguments stop =>
    simp only [List.append_assoc] at comma
    rcases start.head?_append comma with line | ⟨-, starting⟩
    · cases line
    · obtain ⟨name, word⟩ := (arguments.atArgument _).head?
      rw [word] at starting
      cases starting

end Pagewright.Grammar
