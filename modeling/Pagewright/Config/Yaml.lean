import Pagewright.Config.Json
import Pagewright.Yaml.Basic

/-!
# Configurations in YAML

Settings are read from a mapping without unknown keys; a null value is left
open. A text with nothing in it leaves everything open.
-/

namespace Pagewright

namespace Yaml

variable {α : Type}

/-- The value of a field that may be missing or null. -/
def optional (fields : List (String × Yaml)) (name : String) (read : Yaml → Option α) :
    Except Error (Option α) :=
  match fields.lookup name with
  | none => .ok none
  | some value =>
    if value.isNull then .ok none
    else
      match read value with
      | some value => .ok (some value)
      | none => .error (.encoding s!"{name}: invalid type")

def texts? (value : Yaml) : Option (List String) :=
  value.sequence?.bind fun items => items.mapM text?

/-- The fields are among the names, each at most once. -/
def checkFields (names : List String) : List (String × Yaml) → Except Error Unit
  | [] => .ok ()
  | (name, _) :: rest =>
    if !names.contains name then .error (.encoding s!"unknown field `{name}`")
    else if (rest.lookup name).isSome then .error (.encoding s!"duplicate field `{name}`")
    else checkFields names rest

/-- The fields of a mapping by the texts of their keys. -/
def named? (fields : List (Yaml × Yaml)) : Option (List (String × Yaml)) :=
  fields.mapM fun (key, value) => key.text?.map (·, value)

/-- The fields of a record. Nothing is a record without fields; a sequence is no record. -/
def record (names : List String) (value : Yaml) : Except Error (List (String × Yaml)) :=
  match value with
  | .mapping fields =>
    match named? fields with
    | none => .error (.encoding "invalid type")
    | some fields => do
      checkFields names fields
      return fields
  | .sequence _ => .error (.encoding "invalid type")
  | .scalar text plain =>
    if plain && text.isEmpty then .ok [] else .error (.encoding "invalid type")

end Yaml

def Settings.ofYaml (value : Yaml) : Except Error Settings := do
  let fields ← value.record Config.fieldNames
  return {
    includeDirs := ← Yaml.optional fields "include_dirs" Yaml.texts?
    outputRoot := ← Yaml.optional fields "output_prefix" Yaml.text?
    runtimeScript := ← Yaml.optional fields "runtime_script" Yaml.text?
    instantiateScript := ← Yaml.optional fields "instantiate_script" Yaml.text?
    htmlLang := ← Yaml.optional fields "html_lang" Yaml.text?
    writeManifest := ← Yaml.optional fields "write_manifest" Yaml.bool?
    maxListRows := ← Yaml.optional fields "max_list_rows" Yaml.word?
    atomicWrite := ← Yaml.optional fields "atomic_write" Yaml.bool? }

end Pagewright
