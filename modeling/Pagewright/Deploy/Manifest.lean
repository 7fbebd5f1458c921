import Pagewright.Entries
import Pagewright.Time.Timestamp

/-!
# Manifests

A manifest records one deployment: every file with its size, its digest and
where it came from, and the size of all of them together. Sizes are words of 64
bits.
-/

namespace Pagewright

def programVersion : String :=
  "0.1.0"

/-- Where a deployed file comes from. -/
inductive Origin where
  /-- Made from the exports. -/
  | generated
  /-- The support script. -/
  | runtime
  /-- Copied from an include directory. -/
  | copied
  deriving DecidableEq, Repr

namespace Origin

def name : Origin → String
  | .generated => "Generated"
  | .runtime => "Runtime"
  | .copied => "Copied"

def ofName? (name : String) : Option Origin :=
  [generated, runtime, copied].find? fun origin => origin.name = name

end Origin

/-- A file written below the output directory. -/
structure WrittenFile where
  path : String
  size : UInt64
  hash : String
  deriving DecidableEq, Repr

structure ManifestFile where
  path : String
  size : UInt64
  hash : String
  origin : Origin
  deriving DecidableEq, Repr

structure Manifest where
  version : String := programVersion
  createdAt : Timestamp
  totalSize : UInt64 := 0
  files : List ManifestFile := []
  /-- Further facts, in increasing order of name. -/
  metadata : Entries String := []
  deriving DecidableEq, Repr

namespace Manifest

/-- Records a written file. -/
def addFile (manifest : Manifest) (file : WrittenFile) (origin : Origin) : Manifest :=
  { manifest with
    totalSize := manifest.totalSize + file.size
    files := manifest.files ++ [⟨file.path, file.size, file.hash, origin⟩] }

/-- Records a fact, in place of an earlier one of that name. -/
def addMetadata (manifest : Manifest) (name value : String) : Manifest :=
  { manifest with metadata := Entries.insert name value manifest.metadata }

def file? (manifest : Manifest) (path : String) : Option ManifestFile :=
  manifest.files.find? fun file => file.path = path

end Manifest

end Pagewright
