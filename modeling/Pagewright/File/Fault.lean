/-!
# Faults of file operations

What a file system says when an operation on a path cannot be done.
-/

namespace Pagewright

inductive FileFault where
  /-- A name on the way, or the last one, does not exist. -/
  | missing
  /-- Something on the way is a file. -/
  | notDirectory
  /-- A file was wanted where a directory is. -/
  | isDirectory
  /-- A directory cannot be made where a file is. -/
  | exists
  /-- The last step of the path is no name. -/
  | busy
  /-- A name, or the whole path, is longer than the file system holds. -/
  | nameTooLong
  /-- The path holds a NUL character; the file system is not asked at all. -/
  | nulInPath
  deriving DecidableEq, Repr

namespace FileFault

/-- The system's words for a fault, with its number where it has one. -/
def message : FileFault → String
  | .missing => "No such file or directory (os error 2)"
  | .notDirectory => "Not a directory (os error 20)"
  | .isDirectory => "Is a directory (os error 21)"
  | .exists => "File exists (os error 17)"
  | .busy => "Device or resource busy (os error 16)"
  | .nameTooLong => "File name too long (os error 36)"
  | .nulInPath => "file name contained an unexpected NUL byte"

end FileFault

end Pagewright
