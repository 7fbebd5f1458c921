import Pagewright.Entries
import Pagewright.File.Path

/-!
# File trees

A file system is a tree of directories and files, with a current directory from
which relative paths are followed. Operations answer with a new tree or with the
fault the system would report. There are no links, so every path that can be
followed leads to one location.
-/

namespace Pagewright

inductive FileEntry where
  | file (content : ByteArray)
  | directory (entries : List (String × FileEntry))

/-- The names on the way from the root. -/
abbrev Location := List String

namespace FileEntry

/-- What is at a location below an entry. -/
def at? : FileEntry → Location → Option FileEntry
  | entry, [] => some entry
  | .file _, _ :: _ => none
  | .directory entries, name :: rest => (entries.lookup name).bind fun entry => entry.at? rest

/-- Puts a new entry at a location whose directories exist. -/
def put : FileEntry → Location → FileEntry → FileEntry
  | _, [], new => new
  | .file content, _ :: _, _ => .file content
  | .directory entries, name :: rest, new =>
    let inner := (entries.lookup name).getD (.directory [])
    .directory (Entries.insert name (inner.put rest new) entries)

def remove : FileEntry → Location → FileEntry
  | entry, [] => entry
  | .file content, _ :: _ => .file content
  | .directory entries, [name] => .directory (Entries.erase entries name)
  | .directory entries, name :: rest =>
    match entries.lookup name with
    | none => .directory entries
    | some inner => .directory (Entries.insert name (inner.remove rest) entries)

mutual

/-- The files below an entry, with their locations. -/
def files : FileEntry → List (Location × ByteArray)
  | .file content => [([], content)]
  | .directory entries => filesIn entries

def filesIn : List (String × FileEntry) → List (Location × ByteArray)
  | [] => []
  | (name, entry) :: rest =>
    (files entry).map (fun file => (name :: file.1, file.2)) ++ filesIn rest

end

end FileEntry

structure FileTree where
  root : FileEntry
  /-- The current directory. -/
  current : Location

namespace FileTree

/-- Names are at most this many bytes long. -/
def nameLimit : Nat :=
  255

def at? (tree : FileTree) (location : Location) : Option FileEntry :=
  tree.root.at? location

def needDirectory (tree : FileTree) (location : Location) : Except FileFault Unit :=
  match tree.at? location with
  | some (.directory _) => .ok ()
  | some (.file _) => .error .notDirectory
  | none => .error .missing

/-- Takes one step from a location; whether something is there is not asked. -/
def take (tree : FileTree) (location : Location) (step : Path.Step) :
    Except FileFault Location := do
  tree.needDirectory location
  match step with
  | .stay => return location
  | .up => return location.dropLast
  | .down name =>
    if name.utf8ByteSize > nameLimit then throw .nameTooLong
    return location ++ [name]

def follow (tree : FileTree) : Location → List Path.Step → Except FileFault Location
  | location, [] => .ok location
  | location, step :: rest => do
    let location ← tree.take location step
    tree.follow location rest

/-- Where a route starts; there is no route of an empty path. -/
def start (tree : FileTree) (route : Path.Route) : Except FileFault Location :=
  match route.fault? with
  | some fault => .error fault
  | none =>
    if route.fromRoot then .ok []
    else if route.steps.isEmpty then .error .missing
    else .ok tree.current

/-- The location and the entry that a route leads to. -/
def locate (tree : FileTree) (route : Path.Route) :
    Except FileFault (Location × FileEntry) := do
  let start ← tree.start route
  let location ← tree.follow start route.steps
  match tree.at? location with
  | none => throw .missing
  | some (.directory entries) => return (location, .directory entries)
  | some (.file content) =>
    if route.trailing then throw .notDirectory
    return (location, .file content)

/-- The location of the name at the end of a route. The directory that holds it exists. -/
def locateName (tree : FileTree) (route : Path.Route) (otherwise : FileFault) :
    Except FileFault Location := do
  let start ← tree.start route
  let directory ← tree.follow start route.steps.dropLast
  tree.needDirectory directory
  match route.steps.getLast? with
  | some (.down name) => tree.take directory (.down name)
  | _ => throw otherwise

/-! ### Operations -/

def isFile (tree : FileTree) (path : String) : Bool :=
  match tree.locate (Path.route path) with
  | .ok (_, .file _) => true
  | _ => false

def read (tree : FileTree) (path : String) : Except FileFault ByteArray := do
  match ← tree.locate (Path.route path) with
  | (_, .file content) => return content
  | (_, .directory _) => throw .isDirectory

/-- Makes the directories along steps that do not exist; those made before a fault stay. -/
def makeAlong (tree : FileTree) : Location → List Path.Step → FileTree × Except FileFault Unit
  | location, [] => (tree, tree.needDirectory location)
  | location, step :: rest =>
    match tree.take location step with
    | .error fault => (tree, .error fault)
    | .ok next =>
      match tree.at? next with
      | some (.directory _) => makeAlong tree next rest
      | some (.file _) => (tree, .error .exists)
      | none =>
        makeAlong { tree with root := tree.root.put next (.directory []) } next rest

/-- Makes a directory and every directory on the way to it; the empty path is there already. -/
def makeDirectories (tree : FileTree) (route : Path.Route) : FileTree × Except FileFault Unit :=
  match route.fault? with
  | some fault => (tree, .error fault)
  | none => makeAlong tree (if route.fromRoot then [] else tree.current) route.steps

/-- Writes a file, over an older one of that name if need be. -/
def write (tree : FileTree) (route : Path.Route) (content : ByteArray) :
    Except FileFault FileTree := do
  let location ← tree.locateName route .isDirectory
  if route.trailing then throw .isDirectory
  match tree.at? location with
  | some (.directory _) => throw .isDirectory
  | _ => return { tree with root := tree.root.put location (.file content) }

/-- Gives a file another name, in place of an older file of that name if need be. -/
def rename (tree : FileTree) (source target : Path.Route) : Except FileFault FileTree := do
  let (sourceLocation, entry) ← tree.locate source
  let targetLocation ← tree.locateName target .busy
  if target.trailing then throw .notDirectory
  match tree.at? targetLocation with
  | some (.directory _) => throw .isDirectory
  | _ =>
    if sourceLocation = targetLocation then return tree
    return { tree with root := (tree.root.remove sourceLocation).put targetLocation entry }

/-! ### Listings -/

/-- The files below the current directory, by the path that leads to them from there. -/
def listing (tree : FileTree) : List (String × ByteArray) :=
  match tree.at? tree.current with
  | none => []
  | some entry =>
    let files := entry.files.map fun file => ("/".intercalate file.1, file.2)
    files.mergeSort fun first second => first.1 ≤ second.1

/-- The files below the current directory that were not there before with the same content. -/
def changes (before after : FileTree) : List (String × ByteArray) :=
  let old := before.listing
  after.listing.filter fun file => (old.lookup file.1).map ByteArray.data != some file.2.data

def empty : FileTree :=
  { root := .directory [("work", .directory [])], current := ["work"] }

/-- Puts a file, or an empty directory, at a path from the current directory, with the directories
on the way to it. -/
def place (tree : FileTree) (path : String) (content : Option ByteArray) : FileTree :=
  let route := Path.route path
  match content with
  | none => (tree.makeDirectories route).1
  | some content =>
    let made := (tree.makeDirectories { route with steps := route.steps.dropLast }).1
    match made.write route content with
    | .ok tree => tree
    | .error _ => made

end FileTree

end Pagewright
