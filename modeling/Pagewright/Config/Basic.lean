import Pagewright.Error

/-!
# Configuration

What a compilation and a deployment can be told. `Settings` are what a file or a
caller gives; what they leave open is filled in by the defaults.
-/

namespace Pagewright

structure Config where
  /-- Directories searched, in order, for sources and referenced files. -/
  includeDirs : List String := ["."]
  /-- The directory that every output is written to. -/
  outputRoot : String := "wsc-output"
  /-- File name of the support script that every page loads first. -/
  runtimeScript : String := "wsc_runtime.js"
  /-- File name of the construction script that every page loads second. -/
  instantiateScript : String := "instantiate.js"
  /-- The language of generated pages. -/
  htmlLang : String := "en"
  writeManifest : Bool := true
  /-- The largest number of rows a list may start with. -/
  maxListRows : Nat := 1000
  /-- Write to a temporary file beside the target, then rename it. -/
  atomicWrite : Bool := true
  deriving DecidableEq, Repr

namespace Config

/-- The scripts that every page loads before its own. -/
def defaultScripts (config : Config) : List String :=
  [config.runtimeScript, config.instantiateScript]

/-- A name of a file, not of a path. -/
def isFileName (name : String) : Bool :=
  !name.isEmpty && name.toList.all fun c => c != '/' && c != '\\'

def checkFileName (field name : String) : Except Error Unit :=
  if isFileName name then .ok () else .error (.config (.notAFileName field name))

/-- A configuration that can be used. -/
def validate (config : Config) : Except Error Unit := do
  if config.includeDirs.isEmpty then
    throw (.config .noIncludeDirectory)
  checkFileName "runtime_script" config.runtimeScript
  checkFileName "instantiate_script" config.instantiateScript
  if config.runtimeScript = config.instantiateScript then
    throw (.config .sameScripts)

end Config

/-- A configuration of which any part may be left open. -/
structure Settings where
  includeDirs : Option (List String) := none
  outputRoot : Option String := none
  runtimeScript : Option String := none
  instantiateScript : Option String := none
  htmlLang : Option String := none
  writeManifest : Option Bool := none
  maxListRows : Option Nat := none
  atomicWrite : Option Bool := none
  deriving DecidableEq, Repr

namespace Settings

/-- Adds a directory behind those already given. -/
def addIncludeDir (settings : Settings) (dir : String) : Settings :=
  { settings with includeDirs := some (settings.includeDirs.getD [] ++ [dir]) }

def complete (settings : Settings) : Config :=
  let base : Config := {}
  { includeDirs := settings.includeDirs.getD base.includeDirs
    outputRoot := settings.outputRoot.getD base.outputRoot
    runtimeScript := settings.runtimeScript.getD base.runtimeScript
    instantiateScript := settings.instantiateScript.getD base.instantiateScript
    htmlLang := settings.htmlLang.getD base.htmlLang
    writeManifest := settings.writeManifest.getD base.writeManifest
    maxListRows := settings.maxListRows.getD base.maxListRows
    atomicWrite := settings.atomicWrite.getD base.atomicWrite }

end Settings

end Pagewright
