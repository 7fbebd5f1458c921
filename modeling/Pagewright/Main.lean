import Pagewright.CommandLine
import Std.Time.DateTime.Timestamp

/-!
# The program

Takes the directories that a command line names into a file tree, answers the
command line there, and brings the files that differ back.
-/

namespace Pagewright

/-- Everything at a path of the file system; what cannot be read is left out. -/
partial def entryAt (path : String) : IO (Option FileEntry) := do
  try
    let full ← IO.FS.realPath path
    if ← full.isDir then
      let mut entries : Entries FileEntry := []
      for child in ← full.readDir do
        if let some entry ← entryAt child.path.toString then
          entries := Entries.insert child.fileName entry entries
      return some (.directory entries)
    else
      return some (.file (← IO.FS.readBinFile full))
  catch _ => return none

def locationOf (path : String) : Location :=
  (Path.components path).filterMap fun
    | .name name => some name
    | _ => none

/-- The directories on the way to a location. -/
def FileTree.withDirectories (tree : FileTree) (location : Location) : FileTree :=
  (tree.makeDirectories
    { fromRoot := true
      steps := location.map .down
      trailing := false
      invalid := false
      tooLong := false }).1

/-- Takes what is at a path into a tree. -/
def FileTree.takeIn (tree : FileTree) (path : String) : IO FileTree := do
  match ← entryAt path with
  | none => return tree
  | some entry =>
    let location := locationOf (← IO.FS.realPath path).toString
    return { tree.withDirectories location.dropLast with
      root := (tree.withDirectories location.dropLast).root.put location entry }

/-- The paths that a configuration and a request read from and write to. -/
def Request.places (request : Request) (config : Config) : List String :=
  config.includeDirs ++ [config.outputRoot] ++ request.config.toList
    ++ request.sources.filter Path.isAbsolute

/-- The tree that a command line is answered in. -/
def treeFor (arguments : List String) : IO FileTree := do
  let current := locationOf (← IO.currentDir).toString
  let tree := ({ root := .directory [], current } : FileTree).withDirectories current
  match Invocation.parse arguments with
  | .compile request =>
    let tree ← request.config.toList.foldlM FileTree.takeIn tree
    match request.resolveConfig tree with
    | .error _ => return tree
    | .ok config => (request.places config).foldlM FileTree.takeIn tree
  | _ => return tree

/-- Brings the files that differ back. -/
def writeBack (before after : FileTree) : IO Unit := do
  let path (location : Location) := "/" ++ "/".intercalate location
  let content (tree : FileTree) (location : Location) : Option (Array UInt8) :=
    match tree.at? location with
    | some (.file content) => some content.data
    | _ => none
  for (location, bytes) in after.root.files do
    if content before location != some bytes.data then
      IO.FS.createDirAll (path location.dropLast)
      IO.FS.writeBinFile (path location) bytes
  for (location, _) in before.root.files do
    if (content after location).isNone then
      IO.FS.removeFile (path location)

end Pagewright

open Pagewright in
def main (arguments : List String) : IO UInt32 := do
  let time ← Std.Time.Timestamp.now
  let elapsed := time.toNanosecondsSinceUnixEpoch.val
  let now := Timestamp.ofUnix (elapsed.fdiv 1000000000) (elapsed.fmod 1000000000).toNat
  let before ← treeFor arguments
  let (answer, after) := answer FileFault.message now arguments before
  writeBack before after
  IO.print answer.printed
  if answer.exitCode = 2 then
    IO.eprint helpText
  return answer.exitCode
