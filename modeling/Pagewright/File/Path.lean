import Pagewright.File.Fault

/-!
# Paths

A path is a text with `/` between its parts. `components` reads it as a sequence
of names: repeated and trailing separators and parts that are a single dot are
left out, except a dot in front. `steps` reads it as the file system does, where
every dot and a separator at the end count.
-/

namespace Pagewright

namespace Path

/-- The parts between separators, empty ones included; there is always a first one. -/
def split : List Char → List Char × List (List Char)
  | [] => ([], [])
  | '/' :: rest =>
    let (part, parts) := split rest
    ([], part :: parts)
  | c :: rest =>
    let (part, parts) := split rest
    (c :: part, parts)

/-- The parts between separators, empty ones included. -/
def parts (path : String) : List String :=
  let (part, parts) := split path.toList
  (part :: parts).map String.ofList

def isAbsolute (path : String) : Bool :=
  path.toList.head? = some '/'

/-- Puts a path below a directory; an absolute path stays as it is. -/
def join (directory path : String) : String :=
  if isAbsolute path || directory.isEmpty then path
  else if directory.toList.getLast? = some '/' then directory ++ path
  else directory ++ "/" ++ path

/-! ### Components -/

inductive Component where
  /-- The root of the file system. -/
  | root
  /-- A dot in front of the path. -/
  | current
  | parent
  | name (name : String)
  deriving DecidableEq, Repr

/-- The component of a part behind the first one, if it counts. -/
def component? (part : String) : Option Component :=
  if part = "" ∨ part = "." then none
  else if part = ".." then some .parent
  else some (.name part)

def components (path : String) : List Component :=
  match parts path with
  | [] => []
  | first :: rest =>
    let front : List Component :=
      if isAbsolute path then [.root]
      else if first = "." then [.current]
      else (component? first).toList
    front ++ rest.filterMap component?

/-- Leaves out the parts at the end that are no components. -/
def trimParts (parts : List String) : List String :=
  (parts.reverse.dropWhile fun part => (component? part).isNone).reverse

/-- The path that a path lies in, written as the front of it; the root and the empty path lie in
none. -/
def parent? (path : String) : Option String :=
  match parts path, (components path).getLast? with
  | _, none | _, some .root | [], _ => none
  | first :: rest, some _ =>
    match trimParts rest with
    | [] => some ""
    | rest =>
      let kept := first :: trimParts rest.dropLast
      some (if kept = [""] then "/" else "/".intercalate kept)

def fileName? (components : List Component) : Option String :=
  match components.getLast? with
  | some (.name name) => some name
  | _ => none

/-- What follows the last dot of a file name, unless that dot is in front. -/
def extension? (path : String) : Option String :=
  match fileName? (components path) with
  | none => none
  | some name =>
    let reversed := name.toList.reverse
    let tail := reversed.takeWhile (· != '.')
    match reversed.dropWhile (· != '.') with
    | [] | [_] => none
    | _ => some (String.ofList tail.reverse)

/-! ### Steps -/

/-- A step of the way from a directory. -/
inductive Step where
  /-- Stay, in what has to be a directory. -/
  | stay
  | up
  | down (name : String)
  deriving DecidableEq, Repr

/-- A path is at most this many bytes long. -/
def limit : Nat :=
  4095

/-- A path as the file system follows it. -/
structure Route where
  fromRoot : Bool
  steps : List Step
  /-- The path ends with a separator. -/
  trailing : Bool
  /-- The path holds a NUL character. -/
  invalid : Bool
  /-- The path is longer than `limit`. -/
  tooLong : Bool
  deriving DecidableEq, Repr

def step? (part : String) : Option Step :=
  if part = "" then none
  else if part = "." then some .stay
  else if part = ".." then some .up
  else some (.down part)

def route (path : String) : Route :=
  let steps := (parts path).filterMap step?
  { fromRoot := isAbsolute path
    steps
    trailing := !steps.isEmpty && path.toList.getLast? = some '/'
    invalid := path.toList.any fun c => c.toNat = 0
    tooLong := path.utf8ByteSize > limit }

/-- The fault of a path that cannot be followed at all. -/
def Route.fault? (route : Route) : Option FileFault :=
  if route.invalid then some .nulInPath
  else if route.tooLong then some .nameTooLong
  else none

end Path

end Pagewright
