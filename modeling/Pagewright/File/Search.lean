import Pagewright.Error
import Pagewright.File.Tree

/-!
# Reading through include directories

A name is looked for in the include directories in order, and the first file
found is read. An absolute name is taken as it is.
-/

namespace Pagewright

/-- The path of the first file of this name. -/
def findFile? (tree : FileTree) (directories : List String) (name : String) : Option String :=
  if Path.isAbsolute name then
    if tree.isFile name then some name else none
  else
    (directories.map fun directory => Path.join directory name).find? tree.isFile

def contentAt (tree : FileTree) (path : String) : Except Error ByteArray :=
  match tree.read path with
  | .ok content => .ok content
  | .error fault => .error (.io (.unreadable path fault))

/-- The path and the content of the first file of this name. -/
def readInclude (tree : FileTree) (directories : List String) (name : String) :
    Except Error (String × ByteArray) :=
  match findFile? tree directories name with
  | none => .error (.io (.notFound name))
  | some path => (contentAt tree path).map fun content => (path, content)

/-- The path and the text of the first file of this name. -/
def readSource (tree : FileTree) (directories : List String) (name : String) :
    Except Error (String × String) := do
  let (path, content) ← readInclude tree directories name
  match String.fromUTF8? content with
  | some text => return (path, text)
  | none => throw (.io (.notUtf8 path))

end Pagewright
