import PackageAudit.Fault
import PackageAudit.Package.Listing
import PackageAudit.Package.Manifest

/-! # Describing a package

`describe` turns a directory with a manifest into a `Package`. The kind is guessed from what the
manifest depends on, then from the words in its name and in the directory's name, then from the
directories it has; the layout score adds points for what a well-kept package usually has.
-/

namespace PackageAudit

namespace Describe

/-! ## The kind of a package -/

/-- Dependencies that make a package a frontend. -/
def frontendDependencies : List Text := ["react", "vue", "svelte", "@angular/core", "angular"]

/-- The names that a manifest depends on. -/
def dependencies (manifest : Json.Members) : List Text :=
  let sections : List Text := ["dependencies", "devDependencies", "peerDependencies"]
  sections.flatMap fun name => ((manifest.members? name).getD []).names

/-- The words of a name, which are separated by hyphens or underscores. -/
def words (name : Text) : List Text := (name.replaceEach '_' "-").split '-'

/-- The kind that the words of a name point to. -/
def kindOfName? (name : Text) : Option PackageKind :=
  let has (candidates : List Text) : Bool := candidates.any (words name).contains
  if has ["api"] then some .api
  else if has ["core", "shared", "common", "types"] then some .core
  else if has ["backend", "server", "service", "functions"] then some .backend
  else none

/-- The kind that the directories of a package point to. -/
def kindOfFolders? (files : List PackageFile) : Option PackageKind :=
  let has (candidates : List Text) : Bool :=
    files.any fun f => f.isFolder && candidates.contains f.path
  if has ["routes", "src/routes", "api", "src/api"] then some .api
  else if has ["components", "src/components"] then some .frontend
  else none

/-- The kind of a package. The manifest's name counts more than the directory's. -/
def kind (folderName : Text) (manifest : Json.Members) (files : List PackageFile) : PackageKind :=
  if (dependencies manifest).any frontendDependencies.contains then .frontend
  else
    let declared := (((manifest.text? "name").getD []).afterLast Path.slash).lower
    (((kindOfName? declared).orElse fun _ => kindOfName? folderName.lower).orElse
      fun _ => kindOfFolders? files).getD .utility

/-! ## The layout score -/

/-- Points for the layout of a package, between zero and a hundred. -/
def layoutScore (s : Settings) (manifest : Json.Members) (files : List PackageFile) : Nat :=
  let paths := files.map (·.path)
  let points (b : Bool) (n : Nat) : Nat := if b then n else 0
  let isConfig (p : Text) : Bool :=
    p.startsWith ".eslintrc" || p.startsWith "eslint.config" || p.startsWith ".prettierrc"
  let gained :=
    points (!manifest.isEmpty) 20 + points (paths.contains s.typeConfigName) 15 +
    points (paths.any fun p => Text.holds "test" p || Text.holds "spec" p) 20 +
    points (paths.any fun p => Text.holds "readme" p.lower) 15 +
    points (paths.any fun p => p == "src" || p.startsWith "src/") 10 +
    points (paths.any isConfig) 10
  let crowded := 10 < files.countP fun f => f.isTopLevel && !f.isFolder
  min 100 (gained - points crowded 10)

end Describe

/-- The path of the manifest of the package at a path. -/
def manifestPath (s : Settings) (root : Path) : Path := root.join (.ofText s.manifestName)

/-- The manifest of the package at a path; what is wrong with it is a failure to load the
package, except for a number that is too long. -/
def loadManifest (t : Tree) (s : Settings) (root : Path) : Except Fault Json.Members :=
  let p := manifestPath s root
  let unloadable (reason : Text) : Except Fault Json.Members :=
    .error (.failure (.unloadable p.parent.toText reason))
  match readManifest t p with
  | .ok ms => .ok ms
  | .error (.unreadable (.file f)) =>
    if f.isRefusal then unloadable ("cannot read manifest: " ++ f.message) else .error (.file f)
  | .error (.unreadable (.undecodable e)) => unloadable ("cannot read manifest: " ++ e.message)
  | .error (.malformed e) => unloadable ("invalid JSON in manifest: " ++ e.message)
  | .error (.integerTooLong n) => .error (.integerTooLong n)
  | .error .noObject => unloadable "manifest is not a JSON object"

/-- An answer of the file system, its faults among all others. -/
def liftFile {α : Type} : Except FileFault α → Except Fault α
  | .ok a => .ok a
  | .error f => .error (.file f)

/-- The description of the package at a path without links. -/
def describeAt (t : Tree) (s : Settings) (o : SearchOptions) (root : Path) :
    Except Fault Package := do
  let rootText := root.toText
  if !(← liftFile (t.isFolder root)) then
    throw (.failure (.noPackage rootText "not a directory"))
  if !(← liftFile (t.isFile (manifestPath s root))) then
    throw (.failure (.noPackage rootText ("missing " ++ s.manifestName)))
  let manifest ← loadManifest t s root
  let files ← liftFile (listing t s o root)
  let folderName := root.name
  let declared := (manifest.text? "name").getD []
  let name := if declared.isEmpty then folderName else declared
  return {
    id := name
    name := name
    path := rootText
    kind := Describe.kind folderName manifest files
    version := (manifest.text? "version").getD "0.0.0"
    description := (manifest.text? "description").getD []
    manifest := manifest
    files := files
    layoutScore := Describe.layoutScore s manifest files }

/-- The description of the package that a path stands for. -/
def describe (t : Tree) (s : Settings) (path : Text) (o : SearchOptions) :
    Except Fault Package := do
  let root ← liftFile (t.resolve (.ofText path))
  describeAt t s o root

end PackageAudit
