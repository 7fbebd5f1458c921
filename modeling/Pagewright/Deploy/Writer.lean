import Pagewright.Deploy.Manifest
import Pagewright.Digest
import Pagewright.Error
import Pagewright.File.Tree

/-!
# Writing below an output directory

A path is refused if it could lead out of the output directory: it has to be
relative, and may not hold a step up. A file is written beside its target under
another name first and then renamed, unless the writer is told otherwise. What
was made before a fault stays in the tree.
-/

namespace Pagewright

/-- What a writer has done so far. -/
structure Writer where
  /-- The output directory. -/
  root : String
  /-- Write to a temporary file beside the target, then rename it. -/
  atomic : Bool := true
  filesCreated : Nat := 0
  bytesWritten : Nat := 0
  tree : FileTree

abbrev Writing := EStateM Error Writer

namespace Writer

/-- The path stays below the directory it is taken from. -/
def isBelow (path : String) : Bool :=
  !path.isEmpty && (Path.components path).all fun
    | .name _ | .current => true
    | .root | .parent => false

/-- The temporary file beside a target. -/
def temporary (target : String) : String :=
  let name := (Path.fileName? (Path.components target)).getD "output"
  Path.join ((Path.parent? target).getD ".") ("." ++ name ++ ".tmp")

/-- An operation on the tree that changes it only if it succeeds. -/
def change (operation : FileTree → Except FileFault FileTree) : Writing Unit := fun writer =>
  match operation writer.tree with
  | .ok tree => .ok () { writer with tree }
  | .error fault => .error (.io (.system fault)) writer

/-- Makes the directory that holds a target. -/
def makeParent (target : String) : Writing Unit := fun writer =>
  match Path.parent? target with
  | none => .ok () writer
  | some parent =>
    match writer.tree.makeDirectories (Path.route parent) with
    | (tree, .ok ()) => .ok () { writer with tree }
    | (tree, .error fault) => .error (.io (.system fault)) { writer with tree }

/-- Writes a file below the output directory. -/
def write (path : String) (content : ByteArray) : Writing WrittenFile := do
  if !isBelow path then
    throw (.io (.outside path))
  let writer ← get
  let target := Path.join writer.root path
  makeParent target
  if writer.atomic then
    change fun tree => tree.write (Path.route (temporary target)) content
    change fun tree => tree.rename (Path.route (temporary target)) (Path.route target)
  else
    change fun tree => tree.write (Path.route target) content
  modify fun writer =>
    { writer with
      filesCreated := writer.filesCreated + 1
      bytesWritten := writer.bytesWritten + content.size }
  return { path, size := content.size.toUInt64, hash := digest content }

end Writer

end Pagewright
