import PackageAudit.Text.Quoted
import PackageAudit.Text.Utf8

/-! # What can go wrong with a file

An `Obstacle` is what the file system answers; a `FileFault` is what an operation reports, with the
path as it was written. Paths that no file system call takes (a zero code point, a surrogate) and
links that lead in a circle are faults of their own.
-/

namespace PackageAudit

/-- Refusals of the file system. -/
inductive Obstacle where
  | notFound
  | exists
  | notDirectory
  | isDirectory
  | nameTooLong
  | tooManyLinks
deriving Repr, DecidableEq

/-- The number of a refusal. -/
def Obstacle.number : Obstacle → Nat
  | .notFound => 2
  | .exists => 17
  | .notDirectory => 20
  | .isDirectory => 21
  | .nameTooLong => 36
  | .tooManyLinks => 40

/-- The words for a refusal. -/
def Obstacle.message : Obstacle → Text
  | .notFound => "No such file or directory"
  | .exists => "File exists"
  | .notDirectory => "Not a directory"
  | .isDirectory => "Is a directory"
  | .nameTooLong => "File name too long"
  | .tooManyLinks => "Too many levels of symbolic links"

/-- The name of the class that a refusal belongs to. -/
def Obstacle.kindName : Obstacle → Text
  | .notFound => "FileNotFoundError"
  | .exists => "FileExistsError"
  | .notDirectory => "NotADirectoryError"
  | .isDirectory => "IsADirectoryError"
  | .nameTooLong => "OSError"
  | .tooManyLinks => "OSError"

/-- Faults of operations on files. -/
inductive FileFault where
  /-- The file system refuses the path. -/
  | refused (cause : Obstacle) (path : Text)
  /-- The file system refuses a link to a target at the path. -/
  | refusedLink (cause : Obstacle) (target path : Text)
  /-- A file was to be put into a directory that is not there. -/
  | noSuchFolder (path : Text)
  /-- A file was to be copied onto itself. -/
  | sameFile (source target : Text)
  /-- The path, or a text that was to be written, has no UTF-8 form. -/
  | unencodable (e : Utf8.EncodeError)
  /-- The path holds a zero code point. -/
  | zeroInPath
  /-- Links lead from the path back to it. -/
  | linkLoop (path : Text)
  /-- Too many links lie in the targets of links. -/
  | linksTooDeep
  /-- There is no path at all. -/
  | noPath
deriving DecidableEq

namespace FileFault

/-- The words for a refusal in general. -/
def errorText (cause : Obstacle) : Text :=
  "[Errno " ++ Text.ofNat cause.number ++ "] " ++ cause.message

/-- The words for a fault. -/
def message : FileFault → Text
  | .refused cause path => errorText cause ++ ": " ++ path.quoted
  | .refusedLink cause target path =>
    errorText cause ++ ": " ++ target.quoted ++ " -> " ++ path.quoted
  | .noSuchFolder path => "Directory does not exist: " ++ path
  | .sameFile source target =>
    "PosixPath(" ++ source.quoted ++ ") and " ++ target.quoted ++ " are the same file"
  | .unencodable e => e.message
  | .zeroInPath => "embedded null byte"
  | .linkLoop path => "Symlink loop from " ++ path.quoted
  | .linksTooDeep => "maximum recursion depth exceeded"
  | .noPath => "unsupported operand type(s) for /: 'PosixPath' and 'NoneType'"

/-- The name of the class that a fault belongs to. -/
def kindName : FileFault → Text
  | .refused cause _ => cause.kindName
  | .refusedLink cause _ _ => cause.kindName
  | .noSuchFolder _ => "FileNotFoundError"
  | .sameFile _ _ => "SameFileError"
  | .unencodable _ => "UnicodeEncodeError"
  | .zeroInPath => "ValueError"
  | .linkLoop _ => "RuntimeError"
  | .linksTooDeep => "RecursionError"
  | .noPath => "TypeError"

/-- Does the file system itself refuse? The other faults lie in the path or the text. -/
def isRefusal : FileFault → Bool
  | .refused _ _ => true
  | .refusedLink _ _ _ => true
  | .noSuchFolder _ => true
  | .sameFile _ _ => true
  | _ => false

end FileFault

end PackageAudit
