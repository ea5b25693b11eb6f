import PackageAudit.Json.Writer
import PackageAudit.Repair.Basic

/-! # The remedies that come with the audit

Manifests are completed and keep all their other members; the other remedies write a file from a
template.
-/

namespace PackageAudit

/-- The remedies that come with the audit. -/
inductive BuiltinRemedy where
  | manifest
  | readme
  | typeConfig
  | testDirectory
  | buildScript
  | ignoreFile
deriving Repr, DecidableEq

namespace Remedies

/-- The last name of the package's root. -/
def rootName (site : Site) : Text := site.root.name

/-- The members of the manifest, if there is one that can be used. A number that is too long and a
path that no file system call takes are faults. -/
def manifest? (site : Site) : Except Fault (Option Json.Members) :=
  let path := site.root.join (.ofText site.settings.manifestName)
  match readManifest site.tree path with
  | .ok ms => .ok (some ms)
  | .error (.integerTooLong n) => .error (.integerTooLong n)
  | .error (.unreadable (.file f)) => if f.isRefusal then .ok none else .error (.file f)
  | .error _ => .ok none

/-- The name that the manifest declares, else the name of the root. -/
def packageName (site : Site) : Except Fault Text := do
  let manifest ← manifest? site
  let declared := ((manifest.getD []).text? "name").getD []
  return if declared.isEmpty then rootName site else declared

/-- A plan that writes a JSON file. -/
def writeJson (path description : Text) (members : Json.Members) : List Action :=
  [⟨some path, description, some (Json.document (.obj members))⟩]

/-- The manifest of a package that has none. -/
def freshManifest (name : Text) : Json.Members :=
  [("name", .str name), ("version", .str "1.0.0"), ("description", .str (name ++ " module")),
    ("scripts", .obj [("build", .str "tsc"), ("test", .str "jest")])]

/-- Does a member hold a text that is not blank? -/
def declares (manifest : Json.Members) (name : Text) : Bool :=
  (manifest.text? name).any fun t => !t.isBlank

/-- Completes the name and the version of the manifest. -/
def completeManifest (site : Site) : Except Fault (List Action) := do
  let path := site.settings.manifestName
  match ← manifest? site with
  | none => return writeJson path ("Generated " ++ path) (freshManifest (rootName site))
  | some manifest =>
    let wanted : List (Text × Text) := [("name", rootName site), ("version", "1.0.0")]
    let missing := wanted.filter fun (name, _) => !declares manifest name
    if missing.isEmpty then return []
    let completed :=
      missing.foldl (fun ms (name, value) => Json.Members.insert ms name (.str value)) manifest
    let names := Text.join ", " (missing.map (·.1))
    return writeJson path ("Added missing manifest fields: " ++ names) completed

/-- The text of a readme. -/
def readmeText (name : Text) : Text :=
  "# " ++ name ++ "\n\n## Overview\n\nThe " ++ name ++ " module.\n\n" ++
  "## Installation\n\n```bash\nnpm install " ++ name ++
  "\n```\n\n## Usage\n\nImport " ++ name ++
  " from your code and call its exported functions.\n\n## Contributing\n\n" ++
  "Follow the coding standards and add tests for any new functionality.\n"

/-- Writes a readme. -/
def writeReadme (site : Site) : Except Fault (List Action) := do
  let name ← packageName site
  let path := site.settings.readmeName
  return [⟨some path, "Generated " ++ path, some (readmeText name)⟩]

/-- The type configuration that is written. -/
def typeConfigTemplate : Json.Members :=
  [("compilerOptions", .obj
      [("target", .str "ES2020"), ("module", .str "commonjs"), ("strict", .bool true),
        ("declaration", .bool true), ("outDir", .str "./dist"), ("rootDir", .str "./src"),
        ("esModuleInterop", .bool true), ("skipLibCheck", .bool true)]),
    ("include", Json.ofTexts ["src/**/*"]), ("exclude", Json.ofTexts ["node_modules", "dist"])]

/-- Writes a type configuration. -/
def writeTypeConfig (site : Site) : Except Fault (List Action) :=
  let path := site.settings.typeConfigName
  .ok (writeJson path ("Generated " ++ path) typeConfigTemplate)

/-- The text of a first test. -/
def smokeTest (name manifestName : Text) : Text :=
  "describe('" ++ name ++ "', () => \x7b\n  it('declares a name in its manifest', () => \x7b\n" ++
  "    const manifest = require('../" ++ manifestName ++
  "');\n    expect(manifest.name).toBeTruthy();\n  \x7d);\n\x7d);\n"

/-- Makes a test directory with a first test. -/
def addTests (site : Site) : Except Fault (List Action) := do
  let name ← packageName site
  let test := smokeTest name site.settings.manifestName
  return [⟨some "tests", "Created tests/ directory", none⟩,
    ⟨some "tests/smoke.test.js", "Added smoke test", some test⟩]

/-- Declares a build script in a manifest that can be used. -/
def addBuildScript (site : Site) (v : Verdict) : Except Fault (List Action) := do
  let path := site.settings.manifestName
  match ← manifest? site with
  | none => throw (.failure (.repairFailed v.ruleId (path ++ " is missing or invalid")))
  | some manifest =>
    let scripts := ((manifest.members? "scripts").getD []).insert "build" (.str "tsc")
    let completed := Json.Members.insert manifest "scripts" (.obj scripts)
    return writeJson path "Added build script" completed

/-- The lines of an ignore file. -/
def ignoredEntries : List Text :=
  ["node_modules/", "dist/", "coverage/", "*.log", ".env", ".DS_Store"]

/-- Writes an ignore file. -/
def writeIgnoreFile (site : Site) : Except Fault (List Action) :=
  let path := site.settings.ignoreFileName
  .ok [⟨some path, "Generated " ++ path, some (Text.join "\n" ignoredEntries ++ "\n")⟩]

end Remedies

namespace BuiltinRemedy

def all : List BuiltinRemedy :=
  [manifest, readme, typeConfig, testDirectory, buildScript, ignoreFile]

/-- The name that a remedy is asked for by. -/
def name : BuiltinRemedy → Text
  | manifest => "fix_manifest"
  | readme => "fix_readme"
  | typeConfig => "fix_type_config"
  | testDirectory => "fix_test_directory"
  | buildScript => "fix_build_script"
  | ignoreFile => "fix_ignore_file"

/-- The rule whose violations a remedy answers. -/
def ruleId : BuiltinRemedy → Text
  | manifest => "MANIFEST_VALID"
  | readme => "README_EXISTS"
  | typeConfig => "TYPE_CONFIG_REQUIRED"
  | testDirectory => "TEST_DIRECTORY_REQUIRED"
  | buildScript => "BUILD_SCRIPT_REQUIRED"
  | ignoreFile => "IGNORE_FILE_REQUIRED"

/-- The plan of a remedy. -/
def plan (r : BuiltinRemedy) : Remedy := fun site v =>
  match r with
  | manifest => Remedies.completeManifest site
  | readme => Remedies.writeReadme site
  | typeConfig => Remedies.writeTypeConfig site
  | testDirectory => Remedies.addTests site
  | buildScript => Remedies.addBuildScript site v
  | ignoreFile => Remedies.writeIgnoreFile site

end BuiltinRemedy

/-- Remedies by the rule whose violations they answer. -/
abbrev Remedies := List (Text × Remedy)

namespace Remedies

/-- The remedies that come with the audit. -/
def builtin : Remedies := BuiltinRemedy.all.map fun r => (r.ruleId, r.plan)

/-- The remedy of a rule. -/
def find? (rs : Remedies) (id : Text) : Option Remedy := (List.find? (·.1 == id) rs).map (·.2)

/-- Adds or replaces the remedy of a rule. -/
def put (rs : Remedies) (id : Text) (r : Remedy) : Remedies :=
  (id, r) :: rs.filter (·.1 != id)

end Remedies

end PackageAudit
