import Pagewright.Deploy.ManifestJson
import Pagewright.Deploy.Writer
import Pagewright.Render.Output
import Pagewright.Render.SupportScript
import Pagewright.Session

/-!
# Deployments

A deployment writes the generated files, the support script and the files that
pages name, in this order, and last a manifest of them all. All generated files
are rendered before the first one is written. No path is written twice. Files
that were written before an error stay.
-/

namespace Pagewright

/-- The file that the manifest is written to. -/
def manifestName : String :=
  "manifest.json"

/-- What a deployment has done. -/
structure DeployReport where
  /-- The written files, in order. -/
  files : List WrittenFile
  filesCreated : Nat
  bytesWritten : Nat
  /-- The manifest, if one was asked for. -/
  manifest : Option Manifest

/-- A deployment under way. -/
structure Deployment where
  writer : Writer
  manifest : Manifest
  files : List WrittenFile := []

abbrev Deploying := EStateM Error Deployment

namespace Deployment

/-- Writes a file under a path that was not written before. -/
def writeOnce (path : String) (content : ByteArray) : Deploying WrittenFile := fun deployment =>
  if deployment.files.any fun file => file.path = path then
    .error (.io (.repeatedPath path)) deployment
  else
    match Writer.write path content deployment.writer with
    | .ok file writer =>
      .ok file { deployment with writer, files := deployment.files ++ [file] }
    | .error error writer => .error error { deployment with writer }

/-- Writes a file and records it in the manifest. -/
def add (origin : Origin) (path : String) (content : ByteArray) : Deploying Unit := do
  let file ← writeOnce path content
  modify fun deployment => { deployment with manifest := deployment.manifest.addFile file origin }

/-- Copies a file from the include directories. -/
def copy (config : Config) (name : String) : Deploying Unit := do
  let (_, content) ← ofExcept (readInclude (← get).writer.tree config.includeDirs name)
  add .copied name content

/-- Writes the manifest of the files so far. -/
def writeManifest : Deploying Manifest := do
  let manifest := (← get).manifest
  discard (writeOnce manifestName manifest.render.toUTF8)
  return manifest

/-- Writes everything that belongs to a deployment. -/
def run (config : Config) (set : ExportSet) : Deploying DeployReport := do
  let outputs ← ofExcept (renderOutputs config set.exports)
  outputs.forM fun output => add .generated output.path output.contents.toUTF8
  add .runtime config.runtimeScript supportScript.toUTF8
  set.files.forM (copy config)
  let manifest ← if config.writeManifest then some <$> writeManifest else pure none
  let deployment ← get
  return {
    files := deployment.files
    filesCreated := deployment.writer.filesCreated
    bytesWritten := deployment.writer.bytesWritten
    manifest }

/-- A deployment that starts at a time. -/
def start (config : Config) (now : Timestamp) (tree : FileTree) : Deployment :=
  { writer := { root := config.outputRoot, atomic := config.atomicWrite, tree }
    manifest :=
      ({ createdAt := now } : Manifest)
        |>.addMetadata "runtime_script" config.runtimeScript
        |>.addMetadata "instantiate_script" config.instantiateScript }

end Deployment

def deploy (config : Config) (now : Timestamp) (set : ExportSet) :
    EStateM Error FileTree DeployReport := fun tree =>
  match Deployment.run config set (Deployment.start config now tree) with
  | .ok report deployment => .ok report deployment.writer.tree
  | .error error deployment => .error error deployment.writer.tree

end Pagewright
