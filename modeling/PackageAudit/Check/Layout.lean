import PackageAudit.Check.Basic
import PackageAudit.Settings

/-! # Checks of the files that a package has

These checks look at the list of files only and read nothing.
-/

namespace PackageAudit.Check

/-- The directories that tests are looked for in, the first one that is there being decisive. -/
def testFolders : List Text := ["tests", "test", "__tests__", "src/__tests__"]

/-- One of the test directories has to be there, and the first that is has to hold files. -/
def testFolderFilled (p : Package) : Outcome :=
  match testFolders.find? p.hasFolder with
  | none =>
    let checked := Text.join ", " (testFolders.map (· ++ "/"))
    .failed ("No test directory found (checked: " ++ checked ++ ")")
  | some folder =>
    match p.regularFiles.countP fun f => f.path.startsWith (folder ++ "/") with
    | 0 =>
      let message := "Test directory " ++ folder ++ "/ exists but contains no files"
      ((Outcome.plain .partly message).about folder).unfixable
    | count =>
      ((Outcome.passed ("Test directory found at " ++ folder ++ "/")).about folder).detailed
        [("test_files", .ofNat count)]

/-- The ignore file has to be there. -/
def ignoreFilePresent (s : Settings) (p : Package) : Outcome :=
  let name := s.ignoreFileName
  if p.hasFile name then (Outcome.passed (name ++ " file exists")).about name
  else (Outcome.failed (name ++ " file is missing")).about name

/-- The endings of source files. -/
def sourceSuffixes : List Text := [".ts", ".tsx", ".js", ".jsx", ".py"]

/-- A source file written by hand with more lines than allowed, and its number of lines. -/
def oversized? (s : Settings) (f : PackageFile) : Option (Text × Int) :=
  match f.lineCount with
  | none => none
  | some lines =>
    if sourceSuffixes.contains f.suffix && !f.generated && (s.maxFileLines : Int) < lines then
      some (f.path, lines)
    else none

/-- No source file written by hand may have more lines than allowed. -/
def filesSmallEnough (s : Settings) (p : Package) : Outcome :=
  match p.regularFiles.filterMap (oversized? s) with
  | [] => .passed ("All source files are under " ++ Text.ofNat s.maxFileLines ++ " lines")
  | (path, lines) :: rest =>
    let found := (path, lines) :: rest
    let record (x : Text × Int) : Json := .obj [("file", .str x.1), ("lines", .int x.2)]
    let message :=
      Text.ofNat found.length ++ " files exceed " ++ Text.ofNat s.maxFileLines ++ "-line limit"
    ((Outcome.failed message).about path).detailed [("violating_files", .arr (found.map record))]

end PackageAudit.Check
