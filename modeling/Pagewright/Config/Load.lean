import Pagewright.Config.Yaml
import Pagewright.File.Tree
import Pagewright.Json.Reader
import Pagewright.Yaml.Document

/-!
# Configuration files

A file whose extension is `yaml` or `yml` holds YAML; any other holds JSON.
-/

namespace Pagewright

namespace Settings

def parse (path text : String) : Except Error Settings :=
  if Path.extension? path = some "yaml" ∨ Path.extension? path = some "yml" then
    match Yaml.parse? text with
    | some value => ofYaml value
    | none => .error (.encoding "invalid YAML")
  else
    match Json.parse? text with
    | some json => ofJson json
    | none => .error (.encoding "invalid JSON")

end Settings

namespace Config

def readText (tree : FileTree) (path : String) : Except Error String :=
  match tree.read path with
  | .error fault => .error (.config (.unreadable path fault))
  | .ok content =>
    match String.fromUTF8? content with
    | some text => .ok text
    | none => .error (.config (.notUtf8 path))

/-- The configuration in a file, filled in by the defaults. -/
def load (tree : FileTree) (path : String) : Except Error Config := do
  let text ← readText tree path
  let settings ← Settings.parse path text
  let config := settings.complete
  config.validate
  return config

end Config

end Pagewright
