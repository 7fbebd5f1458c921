import Pagewright.File.Fault
import Pagewright.Text.Position

/-!
# Errors

Every error is a cause in one of a few categories. `Error.describe` holds all
the wording. An error met while a definition is processed is wrapped once in
the name of that definition; the innermost name is the one that stays.

Each category has a constructor `other` for a cause that is known by its text
only.
-/

namespace Pagewright

/-- Why a text does not split into tokens. -/
inductive LexicalFault where
  | unclosedQuote
  | unexpected (c : Char)
  | other (text : String)
  deriving DecidableEq, Repr

/-- Why a sequence of tokens is no sequence of expressions. -/
inductive GrammarFault where
  | trailing (found : String)
  | notAName (found : String)
  | nameAtEnd
  | unclosedParenthesis
  | notAnArgument
  | noArgumentAfterComma
  | repeatedArgument (name : String)
  | valueAtEnd
  | unclosedBlock
  | missingMark (mark : Char)
  | notAValue (found : String)
  | other (text : String)
  deriving DecidableEq, Repr

/-- Why top-level expressions do not make a table of definitions. -/
inductive TableFault where
  | unnamed (kind : String)
  | nameNotText (found : String)
  | invalidName (name : String)
  | repeatedName (name : String)
  | other (text : String)
  deriving DecidableEq, Repr

/-- Why an expression does not fit the rules of its kind. -/
inductive ShapeFault where
  | unrecognized
  | strayParameters
  | notOnlyAtoms
  | repeatedParameter (name : String)
  | referenceInherits
  | needsId
  | takesNoId
  | emptyId
  | invalidId (raw : String)
  | literalListId
  | missing (name : String)
  | mistyped (name expected found : String)
  | notOnlyTexts (name found : String)
  | notANumber (name digits : String)
  | minAboveMax (min max : Nat)
  | initialBelowMin (initial min : Nat)
  | initialAboveMax (initial max : Nat)
  | tooManyRows (initial limit : Nat)
  | notAnOption (found : String)
  | invalidTarget (raw : String)
  | unknownInputType (type : String)
  | checkboxInitial
  | unused (name : String)
  | other (text : String)
  deriving DecidableEq, Repr

/-- Why a name does not lead to what it should. -/
inductive ReferenceFault where
  | unknownDefinition (name : String)
  | unknownTarget (kind target : String)
  | missingParameter (parameter target : String)
  | kindMismatch (kind target targetKind : String)
  | unknownItemType (type : String)
  | genericItemType (type : String)
  | pageItemType (type : String)
  | undeclaredTarget (raw fullId : String)
  | generic (name : String)
  | other (text : String)
  deriving DecidableEq, Repr

/-- Why something cannot stand where it stands. -/
inductive ScopeFault where
  | nestedDefinition (name : String)
  | nestedPage
  | nestedForm
  | strayOption
  | duplicateId (fullId : String)
  | other (text : String)
  deriving DecidableEq, Repr

/-- Why actual arguments cannot take the place of parameters. -/
inductive SubstitutionFault where
  | spliceWithArguments (kind : String)
  | notAnExpression (kind found : String)
  | inheritsNotText (kind found : String)
  | other (text : String)
  deriving DecidableEq, Repr

/-- Why a configuration cannot be used. -/
inductive ConfigFault where
  | noIncludeDirectory
  | notAFileName (field name : String)
  | sameScripts
  | unreadable (path : String) (fault : FileFault)
  | notUtf8 (path : String)
  | other (text : String)
  deriving DecidableEq, Repr

/-- Why a file was not read or written. -/
inductive IoFault where
  | system (fault : FileFault)
  | repeatedPath (path : String)
  | outside (path : String)
  | notFound (name : String)
  | unreadable (path : String) (fault : FileFault)
  | notUtf8 (path : String)
  | other (text : String)
  deriving DecidableEq, Repr

/-- What no analysed program should lead to. -/
inductive InternalFault where
  | unresolvedInstance (name : String)
  | untrackedInstance (name : String)
  | untypedList
  | notAPage (kind : String)
  | unrenderable (kind : String)
  | unbuildable (kind : String)
  | unnamedExport (kind : String)
  | unnamedPage
  | other (text : String)
  deriving DecidableEq, Repr

inductive Error where
  | io (fault : IoFault)
  | lexical (position : Position) (fault : LexicalFault)
  | grammar (position : Position) (fault : GrammarFault)
  | table (fault : TableFault)
  | shape (kind : String) (fault : ShapeFault)
  | reference (fault : ReferenceFault)
  | scope (fault : ScopeFault)
  /-- A definition reaches itself. -/
  | cycle (symbol : String)
  | substitution (fault : SubstitutionFault)
  | config (fault : ConfigFault)
  /-- A data text does not hold what was asked of it. -/
  | encoding (text : String)
  /-- An error met while the definition `symbol` was processed. -/
  | definition (symbol : String) (source : Error)
  | internal (fault : InternalFault)
  deriving DecidableEq, Repr

namespace LexicalFault

def describe : LexicalFault → String
  | .unclosedQuote => "string without closing '\"'"
  | .unexpected c => s!"unexpected character '{c}'"
  | .other text => text

end LexicalFault

namespace GrammarFault

def describe : GrammarFault → String
  | .trailing found => s!"expected end of line, found '{found}'"
  | .notAName found => s!"expected expression name, found '{found}'"
  | .nameAtEnd => "unexpected end of file"
  | .unclosedParenthesis => "reached end of file inside '(' expression"
  | .notAnArgument => "expected 'name: value' or ')'"
  | .noArgumentAfterComma => "expected argument after ','"
  | .repeatedArgument name => s!"argument '{name}' given more than once"
  | .valueAtEnd => "expected value, reached end of file"
  | .unclosedBlock => "block without closing '\x7d'"
  | .missingMark mark => s!"expected '{mark}'"
  | .notAValue found => s!"invalid argument value '{found}'"
  | .other text => text

end GrammarFault

namespace TableFault

def describe : TableFault → String
  | .unnamed kind => s!"top-level '{kind}' expression has no 'defines' argument"
  | .nameNotText found => s!"'defines' must be a string, found {found}"
  | .invalidName name => s!"'{name}' is not a valid definition name"
  | .repeatedName name => s!"'{name}' is defined more than once"
  | .other text => text

end TableFault

namespace ShapeFault

def describe : ShapeFault → String
  | .unrecognized => "unrecognized expression type"
  | .strayParameters => "'parameters' is only allowed on definitions"
  | .notOnlyAtoms => "'parameters' must only contain atoms"
  | .repeatedParameter name => s!"parameter '{name}' declared more than once"
  | .referenceInherits => "a reference to a definition cannot also use 'inherits'"
  | .needsId => "requires an 'id'"
  | .takesNoId => "does not take an 'id'"
  | .emptyId => "'id' must not be empty"
  | .invalidId raw => s!"'{raw}' is not a valid id"
  | .literalListId => "a list needs a tree node, its 'id' cannot be literal"
  | .missing name => s!"missing required argument '{name}'"
  | .mistyped name expected found => s!"'{name}' must be a {expected}, found {found}"
  | .notOnlyTexts name found => s!"'{name}' must only contain strings, found {found}"
  | .notANumber name digits => s!"'{name}' is not a valid number: {digits}"
  | .minAboveMax min max => s!"min {min} is greater than max {max}"
  | .initialBelowMin initial min => s!"initial {initial} is less than min {min}"
  | .initialAboveMax initial max => s!"initial {initial} is greater than max {max}"
  | .tooManyRows initial limit => s!"initial {initial} exceeds the limit of {limit} rows"
  | .notAnOption found => s!"options must be 'option' expressions, found '{found}'"
  | .invalidTarget raw => s!"'for' names an invalid id '{raw}'"
  | .unknownInputType type => s!"unknown input type '{type}'"
  | .checkboxInitial => "checkbox 'initial' must be 0 or 1"
  | .unused name => s!"unused argument '{name}'"
  | .other text => text

end ShapeFault

namespace ReferenceFault

def describe : ReferenceFault → String
  | .unknownDefinition name => s!"unknown definition '{name}'"
  | .unknownTarget kind target => s!"'{kind}' refers to unknown definition '{target}'"
  | .missingParameter parameter target => s!"missing parameter '{parameter}' of '{target}'"
  | .kindMismatch kind target targetKind =>
    s!"'{kind}' cannot inherit '{target}' of kind '{targetKind}'"
  | .unknownItemType type => s!"unknown list item type '{type}'"
  | .genericItemType type => s!"list item type '{type}' takes parameters"
  | .pageItemType type => s!"list item type '{type}' is a page"
  | .undeclaredTarget raw fullId => s!"label refers to '{raw}' ({fullId}), which is not declared"
  | .generic name => s!"'{name}' takes parameters and cannot be instantiated on its own"
  | .other text => text

end ReferenceFault

namespace ScopeFault

def describe : ScopeFault → String
  | .nestedDefinition name => s!"definition '{name}' cannot be nested"
  | .nestedPage => "pages cannot be nested"
  | .nestedForm => "forms cannot be nested"
  | .strayOption => "'option' is only allowed inside a select"
  | .duplicateId fullId => s!"duplicate id '{fullId}'"
  | .other text => text

end ScopeFault

namespace SubstitutionFault

def describe : SubstitutionFault → String
  | .spliceWithArguments kind => s!"'{kind}' is replaced by a block and cannot take arguments"
  | .notAnExpression kind found =>
    s!"'{kind}' is bound to a {found} and cannot stand for an expression"
  | .inheritsNotText kind found =>
    s!"'inherits' of '{kind}' resolved to a {found}, expected a string"
  | .other text => text

end SubstitutionFault

namespace ConfigFault

def describe (system : FileFault → String) : ConfigFault → String
  | .noIncludeDirectory => "at least one include directory is required"
  | .notAFileName field name => s!"{field} must be a plain file name, got '{name}'"
  | .sameScripts => "runtime_script and instantiate_script must differ"
  | .unreadable path fault => s!"cannot read {path}: " ++ system fault
  | .notUtf8 path => s!"cannot read {path}: stream did not contain valid UTF-8"
  | .other text => text

end ConfigFault

namespace IoFault

def describe (system : FileFault → String) : IoFault → String
  | .system fault => system fault
  | .repeatedPath path => s!"'{path}' would be written more than once"
  | .outside path => s!"refusing to write '{path}' outside the output directory"
  | .notFound name => s!"could not find '{name}' in any include directory"
  | .unreadable path fault => s!"could not read {path}: " ++ system fault
  | .notUtf8 path => s!"{path} is not valid UTF-8"
  | .other text => text

end IoFault

namespace InternalFault

def describe : InternalFault → String
  | .unresolvedInstance name => s!"instance of '{name}' still refers to other definitions"
  | .untrackedInstance name => s!"instance of '{name}' was not tracked"
  | .untypedList => "list without an item type"
  | .notAPage kind => s!"cannot render '{kind}' as a page"
  | .unrenderable kind => s!"cannot render '{kind}'"
  | .unbuildable kind => s!"cannot build '{kind}'"
  | .unnamedExport kind => s!"exported '{kind}' has no name"
  | .unnamedPage => "exported page has no name"
  | .other text => text

end InternalFault

namespace Error

/-- The text of an error, where `system` gives the words for the faults of the file system. -/
def describe (system : FileFault → String) : Error → String
  | .io fault => "io error: " ++ fault.describe system
  | .lexical position fault =>
    s!"lexical error at {position.line}:{position.column}: " ++ fault.describe
  | .grammar position fault =>
    s!"syntax error at {position.line}:{position.column}: " ++ fault.describe
  | .table fault => "definition error: " ++ fault.describe
  | .shape kind fault => s!"invalid '{kind}' expression: " ++ fault.describe
  | .reference fault => "reference error: " ++ fault.describe
  | .scope fault => "scope error: " ++ fault.describe
  | .cycle symbol => s!"circular dependency involving '{symbol}'"
  | .substitution fault => "substitution error: " ++ fault.describe
  | .config fault => "configuration error: " ++ fault.describe system
  | .encoding text => "serialization error: " ++ text
  | .definition symbol source => s!"in definition '{symbol}': " ++ source.describe system
  | .internal fault => "internal error: " ++ fault.describe

/-- The text of an error in the system's own words. -/
def message (error : Error) : String :=
  error.describe FileFault.message

/-- Names the definition that was being processed, unless a definition is named already. -/
def inDefinition (symbol : String) : Error → Error
  | .definition inner source => .definition inner source
  | error => .definition symbol error

/-- The error below all names of definitions. -/
def root : Error → Error
  | .definition _ source => source.root
  | error => error

/-- The texts of an error and of everything that caused it, outermost first. -/
def chain (system : FileFault → String) : Error → List String
  | .definition symbol source =>
    (Error.definition symbol source).describe system :: source.chain system
  | error => [error.describe system]

end Error

end Pagewright
