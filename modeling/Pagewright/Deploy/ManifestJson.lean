import Pagewright.Deploy.Manifest
import Pagewright.Json.Fields
import Pagewright.Json.Printer
import Pagewright.Json.Reader

/-!
# Manifests in JSON

A manifest is written with two blanks for each level. The reader ignores fields
it does not know.
-/

namespace Pagewright

/-! ### Writing -/

def ManifestFile.toJson (file : ManifestFile) : Json :=
  .object
    [("path", .text file.path),
      ("size", .ofNat file.size.toNat),
      ("hash", .text file.hash),
      ("origin", .text file.origin.name)]

namespace Manifest

/-- What a manifest says besides when it was made. -/
def contentFields (manifest : Manifest) : List (String × Json) :=
  [("total_size", .ofNat manifest.totalSize.toNat),
    ("files", .array (manifest.files.map ManifestFile.toJson)),
    ("metadata", .object (manifest.metadata.map fun (name, value) => (name, .text value)))]

def toJson (manifest : Manifest) : Json :=
  .object
    (("version", .text manifest.version)
      :: ("created_at", .text manifest.createdAt.render)
      :: manifest.contentFields)

def render (manifest : Manifest) : String :=
  manifest.toJson.pretty

end Manifest

/-! ### Reading -/

/-- The name of an origin stands as a text, or as the only field of an object, which is null. -/
def Origin.nameOfJson? : Json → Option String
  | .text name => some name
  | .object [(name, .null)] => some name
  | _ => none

def Origin.ofJson : Json → Except Error Origin :=
  Json.expect fun json => (nameOfJson? json).bind ofName?

/-- A number below `2 ^ 64`. -/
def Json.size (json : Json) : Except Error UInt64 :=
  (Json.expect Json.word? json).map Nat.toUInt64

def ManifestFile.ofJson (json : Json) : Except Error ManifestFile := do
  let fields ← json.record ["path", "size", "hash", "origin"] false
  return {
    path := ← Json.required fields "path" (Json.expect Json.text?)
    size := ← Json.required fields "size" Json.size
    hash := ← Json.required fields "hash" (Json.expect Json.text?)
    origin := ← Json.required fields "origin" Origin.ofJson }

namespace Manifest

/-- Facts by name; of a repeated one, the last counts. -/
def metadataOfJson (json : Json) : Except Error (Entries String) := do
  let fields ← Json.expect Json.object? json
  let facts ← fields.mapM fun (name, value) => do
    return (name, ← Json.expect Json.text? value)
  return Entries.ofList facts

def timestampOfJson (json : Json) : Except Error Timestamp :=
  Json.expect (fun json => json.text?.bind Timestamp.parse?) json

def ofJson (json : Json) : Except Error Manifest := do
  let fields ← json.record ["version", "created_at", "total_size", "files", "metadata"] false
  return {
    version := ← Json.required fields "version" (Json.expect Json.text?)
    createdAt := ← Json.required fields "created_at" timestampOfJson
    totalSize := ← Json.required fields "total_size" Json.size
    files := ← Json.required fields "files" fun files => do
      (← Json.expect Json.array? files).mapM ManifestFile.ofJson
    metadata := ← Json.required fields "metadata" metadataOfJson }

def parse (text : String) : Except Error Manifest :=
  match Json.parse? text with
  | none => Json.refuse "invalid manifest JSON"
  | some json => ofJson json

end Manifest

end Pagewright
