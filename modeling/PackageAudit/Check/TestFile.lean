import PackageAudit.Package.Basic
import PackageAudit.Text.Regular

/-! # Test files

Whether a file belongs to a test is a matter of its path: it goes through a directory for tests, or
its last name has one of three forms. Case is ignored in some of the patterns only.
-/

namespace PackageAudit.TestFile

open Regular

/-- The names of the directories for tests. -/
def folderNames : List Text := ["__tests__", "__mocks__", "tests", "test"]

/-- The words that tell of a test between dots in a name. -/
def partNames : List Text := ["test", "spec"]

/-- Anything but a slash. -/
def notSlash (c : CodePoint) : Bool := c != Path.slash

/-- The beginning of a name. -/
def nameStart : Regular := either start (word "/")

/-- A telling part, and something behind it in the last name. -/
def partPattern : Regular :=
  inTurn [word ".", anyOf (partNames.map folded), word ".", one notSlash, many notSlash, finish]

/-- A directory for tests. -/
def folderPattern : Regular := inTurn [nameStart, anyOf (folderNames.map folded), word "/"]

/-- A last name with a telling beginning. -/
def beginningPattern : Regular :=
  inTurn [nameStart, word "test_", many notSlash, word ".py", finish]

/-- A last name with a telling ending. -/
def endingPattern : Regular := inTurn [nameStart, many notSlash, word "_test.py", finish]

/-- What tells of a test file. -/
def patterns : List Regular := [partPattern, folderPattern, beginningPattern, endingPattern]

/-- Does the path belong to a test? -/
def isTestFile (path : Text) : Bool := patterns.any fun r => r.isIn path

end PackageAudit.TestFile
