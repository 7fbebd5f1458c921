import Pagewright.Config.Basic
import Pagewright.Expression.Source
import Pagewright.File.Search
import Pagewright.Instance.Build

/-!
# Sessions

A session collects the expressions of several sources under one configuration
and analyses them together. Identifiers are handed out from one supply for as
long as the session lives, also when a step fails.
-/

namespace Pagewright

/-- What a successful analysis gives. -/
structure ExportSet where
  /-- The instances of all definitions without parameters, in the order of definition. -/
  exports : List Expression := []
  /-- Style sheets and scripts that pages name, in increasing order. -/
  files : List String := []

namespace ExportSet

def get? (set : ExportSet) (name : String) : Option Expression :=
  set.exports.find? fun expression => expression.defines? = some name

def names (set : ExportSet) : List String :=
  set.exports.filterMap Expression.defines?

def size (set : ExportSet) : Nat :=
  set.exports.length

def isEmpty (set : ExportSet) : Bool :=
  set.exports.isEmpty

end ExportSet

structure Session where
  config : Config := {}
  ids : Supply := {}
  /-- The top-level expressions of all sources so far. -/
  expressions : List Expression := []

abbrev Compiling := EStateM Error Session

namespace Session

/-- Adds the expressions of a source, and says how many there are. -/
def parse (source : String) : Compiling Nat := fun session =>
  match parseSource source session.ids with
  | .ok added ids =>
    .ok added.length { session with ids, expressions := session.expressions ++ added }
  | .error error ids => .error error { session with ids }

/-- Adds the expressions of a source file, which is looked for in the include directories. -/
def parseFile (tree : FileTree) (name : String) : Compiling Nat := do
  let (_, source) ← ofExcept (readSource tree (← get).config.includeDirs name)
  parse source

/-- What the definitions of a table are built from under a configuration. -/
def plan (config : Config) (table : Table) : Plan :=
  { table, rowLimit := config.maxListRows, defaultScripts := config.defaultScripts }

/-- Checks all definitions of a table, then builds the exports. -/
def buildExports (plan : Plan) : Building ExportSet := do
  Building.onMarkers (checkAll plan.table plan.rowLimit)
  let exports ← instantiateAll plan
  return { exports, files := (← get).files }

/-- Checks everything parsed so far and builds its exports. -/
def analyze : Compiling ExportSet := fun session =>
  match Table.ofExpressions session.expressions with
  | .error error => .error error session
  | .ok table =>
    match buildExports (plan session.config table) { ids := session.ids } with
    | .ok set workshop => .ok set { session with ids := workshop.ids }
    | .error error workshop => .error error { session with ids := workshop.ids }

end Session

/-- The exports of one source under the default configuration. -/
def compile (source : String) : Except Error ExportSet :=
  let steps : Compiling ExportSet := do
    discard (Session.parse source)
    Session.analyze
  match steps {} with
  | .ok set _ => .ok set
  | .error error _ => .error error

end Pagewright
