import PackageAudit.Check.Documents
import PackageAudit.Check.Layout
import PackageAudit.Check.TestFile

/-! # Mock data

Source and JSON files that are neither tests nor generated must not look like made-up data, neither
by name nor by content.
-/

namespace PackageAudit.Check

/-- The words that point to made-up data. -/
def mockWords : List Text :=
  ["mock", "fake", "dummy", "placeholder", "test-data", "example-data", "sample-data", "fixture"]

/-- Does one of the words occur in the text? -/
def looksMocked (t : Text) : Bool := t.anywhere fun here => mockWords.any here.startsWithFolded

/-- Is the file looked at? -/
def isMockScanned (f : PackageFile) : Bool :=
  !f.generated && (sourceSuffixes.contains f.suffix || f.suffix == ".json") &&
    !TestFile.isTestFile f.path

/-- A file that looks like made-up data: by its name, or from a line on. -/
structure MockFinding where
  file : Text
  line : Option Nat

/-- The record of a finding. -/
def MockFinding.record (m : MockFinding) : Json :=
  match m.line with
  | none => .obj [("file", .str m.file), ("reason", .str "name")]
  | some line => .obj [("file", .str m.file), ("reason", .str "content"), ("line", .ofNat line)]

/-- What is found about one file. -/
def mockFinding? (t : Tree) (p : Package) (f : PackageFile) :
    Except Fault (Option MockFinding) := do
  if !isMockScanned f then return none
  if looksMocked f.name then return some ⟨f.path, none⟩
  match ← textOf t p f.path with
  | none => return none
  | some text => return (text.firstLineWhere looksMocked).map fun line => ⟨f.path, some line⟩

/-- All that is found. -/
def mockFindings (t : Tree) (p : Package) : Except Fault (List MockFinding) := do
  let found ← p.regularFiles.mapM (mockFinding? t p)
  return found.filterMap id

/-- The outcome for the findings. -/
def mockOutcome : List MockFinding → Outcome
  | [] => .passed "No mock data detected in module"
  | first :: rest =>
    let place : Text := match first.line with
      | none => "file"
      | some _ => "content"
    let base := ((Outcome.failed ("Mock data " ++ place ++ " detected in: " ++ first.file)).about
      first.file).detailed [("violating_files", .arr ((first :: rest).map MockFinding.record))]
    match first.line with
    | none => base
    | some line => base.atLine line

/-- No file may look like made-up data. -/
def noMockData (t : Tree) (p : Package) : Except Fault Outcome := do
  return mockOutcome (← mockFindings t p)

end PackageAudit.Check
