import PackageAudit.Package.Basic
import PackageAudit.Settings
import PackageAudit.Tree.TextFile

/-! # The files of a package

`listing` walks a package's directory depth first: a directory comes right before what is below it,
and siblings come in the order of their names. Links are left out unless they are followed, and then
no directory is entered twice, by whatever names it is reached. Version control data, installed
dependencies and build output are never listed, other hidden entries only on request, apart from a
few that checks look at.
-/

namespace PackageAudit

/-- What is looked at when packages are searched and described. -/
structure SearchOptions where
  includeHidden : Bool
  followLinks : Bool
  maxDepth : Int
  readsContent : Bool
deriving DecidableEq

/-- The options when nothing is said about them. -/
def SearchOptions.default : SearchOptions := ⟨false, false, 10, true⟩

namespace Listing

/-- Directories that never belong to a package. -/
def ignoredFolders : List Text :=
  [".git", ".hg", ".svn", "node_modules", "__pycache__", ".venv", "venv", ".tox", ".mypy_cache",
    ".pytest_cache", "dist", "build", "coverage"]

/-- Is this a file of environment values, such as `.env` or `.env.local`? -/
def isEnvironmentFile (name : Text) : Bool := name == ".env" || name.startsWith ".env."

/-- Hidden entries that are listed all the same. -/
def isWellKnown (name : Text) : Bool :=
  isEnvironmentFile name || name.startsWith ".eslintrc" || name.startsWith ".prettierrc"

/-- Does the name begin with a dot? -/
def isHidden (name : Text) : Bool := name.head? == some (CodePoint.ofChar '.')

/-- Is an entry of this name listed? -/
def isListed (s : Settings) (o : SearchOptions) (name : Text) : Bool :=
  !isHidden name || o.includeHidden || name == s.ignoreFileName || isWellKnown name

/-- Is the file of this path made by a tool? -/
def isGenerated (path : Text) : Bool :=
  let name := path.afterLast Path.slash
  name.endsWith ".min.js" || name.endsWith ".d.ts" || name.endsWith ".map" ||
    name.endsWith "_pb2.py" || Text.holds ".generated." name

/-- Larger files are not read for their lines. -/
def maxCountedBytes : Nat := 5 * 1024 * 1024

/-- The number of lines of a text file, an unfinished last line included. Files that are too large
or have a zero byte near their beginning have none. -/
def countLines (bytes : List UInt8) : Option Int :=
  if maxCountedBytes < bytes.length then none
  else if (bytes.take 1024).contains 0 then none
  else if bytes.isEmpty then some 0
  else some (bytes.count 10 + (if bytes.getLast? = some 10 then 0 else 1) : Nat)

/-- A walk so far: the files that were listed, backwards, and the directories that were entered. -/
structure Walk where
  listed : List PackageFile
  entered : List Path

/-- The record of a regular file. -/
def fileRecord (o : SearchOptions) (path : Text) (bytes : List UInt8) : PackageFile :=
  ⟨path, false, bytes.length, if o.readsContent then countLines bytes else none, isGenerated path⟩

/-- Lists what is below a directory; nothing at the last level. -/
abbrev Descent := Option (Location → Walk → Except FileFault Walk)

/-- Enters the directory that a path leads to, unless this is the last level or it was entered
before. -/
def enter (t : Tree) (descend : Descent) (way : Location) (p : Path) (w : Walk) :
    Except FileFault Walk :=
  match descend with
  | none => .ok w
  | some below =>
    match t.resolve p with
    | .error f => .error f
    | .ok p =>
      if w.entered.contains p then .ok w else below way { w with entered := p :: w.entered }

/-- Lists one entry of the directory to which the way `folder` leads from the root and whose
location is `place`. -/
def visitEntry (t : Tree) (s : Settings) (o : SearchOptions) (root : Path) (descend : Descent)
    (folder place : Location) (w : Walk) (name : Text) : Except FileFault Walk :=
  let isLink := match t.get? (place ++ [name]) with
    | some (.link _) => true
    | _ => false
  let way := folder ++ [name]
  let p := root.append way
  if Tree.maxPathBytes < Name.size p.toText then .error (.refused .nameTooLong p.toText)
  else if isLink && !o.followLinks || !isListed s o name then .ok w
  else
    match t.status p with
    | .error .nameTooLong => .error (.refused .nameTooLong p.toText)
    | .error _ => .ok w
    | .ok (_, .link _) => .ok w
    | .ok (_, .file bytes) =>
      .ok { w with listed := fileRecord o (Text.join "/" way) bytes :: w.listed }
    | .ok (_, .folder) =>
      if ignoredFolders.contains name then .ok w
      else
        let record : PackageFile := ⟨Text.join "/" way, true, 0, none, false⟩
        enter t descend way p { w with listed := record :: w.listed }

/-- Lists the entries of a directory. -/
def visitFolder (t : Tree) (s : Settings) (o : SearchOptions) (root : Path) (descend : Descent)
    (folder : Location) (w : Walk) : Except FileFault Walk :=
  match t.status (root.append folder) with
  | .ok (place, .folder) => (t.names place).foldlM (visitEntry t s o root descend folder place) w
  | _ => .ok w

/-- Lists a directory and so many levels below it. -/
def visit (t : Tree) (s : Settings) (o : SearchOptions) (root : Path) :
    Nat → Location → Walk → Except FileFault Walk
  | 0 => visitFolder t s o root none
  | levels + 1 => visitFolder t s o root (some (visit t s o root levels))

end Listing

/-- The files of the package at a path without links. An entry whose kind the file system cannot
tell because its name or its target's is too long is a fault. -/
def listing (t : Tree) (s : Settings) (o : SearchOptions) (root : Path) :
    Except FileFault (List PackageFile) :=
  (Listing.visit t s o root o.maxDepth.toNat [] ⟨[], [root]⟩).map (·.listed.reverse)

end PackageAudit
