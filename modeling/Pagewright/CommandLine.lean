import Pagewright.Config.Load
import Pagewright.Deploy.Deployment

/-!
# The command line

Arguments are read from left to right, and the first one that settles the
outcome does: a request for the version or for help, or a mistake. Options may
stand between sources. The value of an option is joined to it or is the next
argument, which then may not look like an option itself.

A request loads its configuration, parses its sources, analyses them and deploys
the exports. An error is printed with everything that caused it, outermost
first.
-/

namespace Pagewright

/-- What a command line asks to compile. -/
structure Request where
  includeDirs : List String := []
  outputRoot : Option String := none
  /-- The path of the configuration file. -/
  config : Option String := none
  noManifest : Bool := false
  sources : List String := []
  deriving DecidableEq, Repr

/-- What a command line asks for. -/
inductive Invocation where
  | compile (request : Request)
  | version
  | help
  /-- A command line that is not understood. -/
  | misuse
  deriving DecidableEq, Repr

/-- An option that takes a value. -/
inductive ValueOption where
  | includeDir
  | outputRoot
  | config
  deriving DecidableEq, Repr

namespace ValueOption

def ofLong? (name : String) : Option ValueOption :=
  if name = "include" then some .includeDir
  else if name = "output" then some .outputRoot
  else if name = "config" then some .config
  else none

def ofShort? (name : Char) : Option ValueOption :=
  if name = 'i' then some .includeDir
  else if name = 'o' then some .outputRoot
  else none

/-- Gives the option a value. Only include directories may be given more than once, and a path of a
configuration file is not empty. -/
def give (option : ValueOption) (value : String) (request : Request) : Option Request :=
  match option with
  | .includeDir => some { request with includeDirs := request.includeDirs ++ [value] }
  | .outputRoot =>
    if request.outputRoot.isSome then none else some { request with outputRoot := some value }
  | .config =>
    if request.config.isSome || value.isEmpty then none
    else some { request with config := some value }

end ValueOption

namespace Invocation

/-- How the reading of one argument goes on. -/
inductive Next where
  /-- With what is known by now. -/
  | go (request : Request)
  /-- With the next argument as the value of an option. -/
  | value (option : ValueOption) (request : Request)
  | settled (invocation : Invocation)

/-- Gives an option the value that is joined to it, or asks for the next argument. -/
def give (option : ValueOption) (value : Option String) (request : Request) : Next :=
  match value with
  | none => .value option request
  | some value =>
    match option.give value request with
    | some request => .go request
    | none => .settled .misuse

/-- Splits what follows two dashes at its first equals sign. -/
def splitLong (text : List Char) : String × Option String :=
  let name := String.ofList (text.takeWhile (· != '='))
  match text.dropWhile (· != '=') with
  | [] => (name, none)
  | _ :: value => (name, some (String.ofList value))

/-- An option behind two dashes. -/
def long (text : List Char) (request : Request) : Next :=
  let (name, value) := splitLong text
  match ValueOption.ofLong? name with
  | some option => give option value request
  | none =>
    if value.isSome then .settled .misuse
    else if name = "version" then .settled .version
    else if name = "help" then .settled .help
    else if name = "no-manifest" && !request.noManifest then
      .go { request with noManifest := true }
    else .settled .misuse

/-- An option behind one dash. -/
def short (name : Char) (text : List Char) (request : Request) : Next :=
  match ValueOption.ofShort? name with
  | some option =>
    match text with
    | [] => give option none request
    | '=' :: value => give option (some (String.ofList value)) request
    | value => give option (some (String.ofList value)) request
  | none =>
    if name = 'V' then .settled .version
    else if name = 'h' then .settled .help
    else .settled .misuse

/-- One argument before the mark that ends the options. -/
def argument (text : String) (request : Request) : Next :=
  match text.toList with
  | '-' :: '-' :: rest => long rest request
  | '-' :: name :: rest => short name rest request
  | _ => .go { request with sources := request.sources ++ [text] }

def looksLikeOption (text : String) : Bool :=
  match text.toList with
  | '-' :: _ :: _ => true
  | _ => false

/-- There has to be a source. -/
def finish (request : Request) : Invocation :=
  if request.sources.isEmpty then .misuse else .compile request

/-- Reads the arguments, where `waiting` is the option that takes the next one. -/
def read (waiting : Option ValueOption) (request : Request) : List String → Invocation
  | [] => if waiting.isSome then .misuse else finish request
  | text :: rest =>
    match waiting with
    | some option =>
      if looksLikeOption text then .misuse
      else
        match option.give text request with
        | some request => read none request rest
        | none => .misuse
    | none =>
      if text = "--" then finish { request with sources := request.sources ++ rest }
      else
        match argument text request with
        | .go request => read none request rest
        | .value option request => read (some option) request rest
        | .settled invocation => invocation

def parse (arguments : List String) : Invocation :=
  read none {} arguments

end Invocation

/-! ### Compiling -/

/-- An error, and what was being done when it was met. -/
structure Failure where
  context : List String := []
  error : Error

/-- The text of a failure, where `system` gives the words for the faults of the file system. -/
def Failure.describe (system : FileFault → String) (failure : Failure) : String :=
  ": ".intercalate (failure.context ++ failure.error.chain system)

namespace Request

/-- The configuration of the file that is named, or else the default one. -/
def baseConfig (request : Request) (tree : FileTree) : Except Failure Config :=
  match request.config with
  | none => .ok {}
  | some path =>
    match Config.load tree path with
    | .ok config => .ok config
    | .error error =>
      .error { context := [s!"loading configuration from {path}"], error }

/-- A configuration with what the command line says in place of what it said. -/
def override (request : Request) (config : Config) : Config :=
  { config with
    includeDirs := if request.includeDirs.isEmpty then config.includeDirs else request.includeDirs
    outputRoot := request.outputRoot.getD config.outputRoot
    writeManifest := config.writeManifest && !request.noManifest }

/-- The configuration that a request is carried out under. -/
def resolveConfig (request : Request) (tree : FileTree) : Except Failure Config := do
  let config := request.override (← request.baseConfig tree)
  match config.validate with
  | .ok () => return config
  | .error error => throw { error }

def exports (request : Request) (config : Config) (tree : FileTree) : Except Error ExportSet :=
  let steps : Compiling ExportSet := do
    request.sources.forM fun source => discard (Session.parseFile tree source)
    Session.analyze
  match steps { config } with
  | .ok set _ => .ok set
  | .error error _ => .error error

def carryOut (request : Request) (now : Timestamp) : EStateM Failure FileTree Unit := do
  let tree ← get
  let config ← ofExcept (request.resolveConfig tree)
  let set ← ofExcept ((request.exports config tree).mapError fun error => { error })
  discard ((deploy config now set).adaptExcept fun error => { error })

end Request

/-! ### Answers -/

/-- What a command line is answered with. -/
structure Answer where
  exitCode : UInt32
  printed : String := ""
  deriving DecidableEq, Repr

def helpLines : List String :=
  ["Compile UI definitions into HTML pages and DOM construction scripts",
    "",
    "Usage: wsc [OPTIONS] <SOURCE>...",
    "",
    "Arguments:",
    "  <SOURCE>...  Source files, looked up through the include directories",
    "",
    "Options:",
    "  -i, --include <DIR>  Directory searched for sources and referenced files (repeatable)",
    "  -o, --output <DIR>   Output directory",
    "      --config <FILE>  JSON or YAML configuration file",
    "      --no-manifest    Do not write manifest.json",
    "  -h, --help           Print help",
    "  -V, --version        Print version"]

def helpText : String :=
  String.join (helpLines.map fun line => line ++ "\n")

/-- Carries out a command line in a file tree. -/
def answer (system : FileFault → String) (now : Timestamp) (arguments : List String)
    (tree : FileTree) : Answer × FileTree :=
  match Invocation.parse arguments with
  | .misuse => ({ exitCode := 2 }, tree)
  | .version => ({ exitCode := 0, printed := s!"wsc {programVersion}\n" }, tree)
  | .help => ({ exitCode := 0, printed := helpText }, tree)
  | .compile request =>
    match request.carryOut now tree with
    | .ok () tree => ({ exitCode := 0 }, tree)
    | .error failure tree =>
      ({ exitCode := 1, printed := "error: " ++ failure.describe system ++ "\n" }, tree)

end Pagewright
