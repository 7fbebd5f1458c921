import Pagewright.Config.Basic
import Pagewright.Json.Fields

/-!
# Configurations in JSON

Settings are read from a record without unknown fields; a null field is left
open.
-/

namespace Pagewright

def Config.fieldNames : List String :=
  ["include_dirs", "output_prefix", "runtime_script", "instantiate_script", "html_lang",
    "write_manifest", "max_list_rows", "atomic_write"]

def Settings.ofJson (json : Json) : Except Error Settings := do
  let fields ← json.record Config.fieldNames true
  let text (name : String) := Json.optional fields name (Json.expect Json.text?)
  let bool (name : String) := Json.optional fields name (Json.expect Json.bool?)
  return {
    includeDirs := ← Json.optional fields "include_dirs" Json.texts
    outputRoot := ← text "output_prefix"
    runtimeScript := ← text "runtime_script"
    instantiateScript := ← text "instantiate_script"
    htmlLang := ← text "html_lang"
    writeManifest := ← bool "write_manifest"
    maxListRows := ← Json.optional fields "max_list_rows" (Json.expect Json.word?)
    atomicWrite := ← bool "atomic_write" }

def Config.toJson (config : Config) : Json :=
  .object
    [("include_dirs", .array (config.includeDirs.map Json.text)),
      ("output_prefix", .text config.outputRoot),
      ("runtime_script", .text config.runtimeScript),
      ("instantiate_script", .text config.instantiateScript),
      ("html_lang", .text config.htmlLang),
      ("write_manifest", .bool config.writeManifest),
      ("max_list_rows", .ofNat config.maxListRows),
      ("atomic_write", .bool config.atomicWrite)]

end Pagewright
