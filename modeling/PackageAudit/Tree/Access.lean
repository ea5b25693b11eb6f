import PackageAudit.Tree.Resolve

/-! # Reading and writing files

The operations that the audit uses, each with the refusals of the file system: asking what a path
is, reading, writing, making directories with their parents, copying and removing.
-/

namespace PackageAudit.Tree

/-- Asks a question about what is at the end of a path. A path that leads nowhere answers no; a name
that is too long is a fault. -/
def ask (t : Tree) (p : Path) (question : Entry → Bool) : Except FileFault Bool :=
  match vet p.toText with
  | .error _ => .ok false
  | .ok _ =>
    match t.status p with
    | .ok (_, e) => .ok (question e)
    | .error .nameTooLong => .error (.refused .nameTooLong p.toText)
    | .error _ => .ok false

def isFileEntry : Entry → Bool
  | .file _ => true
  | _ => false

def isFolderEntry : Entry → Bool
  | .folder => true
  | _ => false

/-- Is there a regular file at the end of a path? -/
def isFile (t : Tree) (p : Path) : Except FileFault Bool := t.ask p isFileEntry

/-- Is there a directory at the end of a path? -/
def isFolder (t : Tree) (p : Path) : Except FileFault Bool := t.ask p isFolderEntry

/-- A refusal as the fault of a path. -/
def refuse {α : Type} (p : Path) (cause : Obstacle) : Except FileFault α :=
  .error (.refused cause p.toText)

/-- The bytes of a file. -/
def read (t : Tree) (p : Path) : Except FileFault (List UInt8) := do
  vet p.toText
  match t.status p with
  | .ok (_, .file bytes) => return bytes
  | .ok _ => refuse p .isDirectory
  | .error cause => refuse p cause

/-- Writes a file, or the file that the path links to. -/
def write (t : Tree) (p : Path) (bytes : List UInt8) : Except FileFault Tree := do
  vet p.toText
  match t.locate .writing p with
  | .error cause => refuse p cause
  | .ok l =>
    match t.get? l with
    | some .folder => refuse p .isDirectory
    | _ => return t.put l (.file bytes)

/-- Makes one directory in a directory that is there. -/
def makeFolder (t : Tree) (p : Path) : Except Obstacle Tree :=
  match t.locate .entry p with
  | .error cause => .error cause
  | .ok l =>
    match t.get? l with
    | some _ => .error .exists
    | none => .ok (t.put l .folder)

/-- Makes a directory; a refusal is forgiven if there is a directory already. -/
def makeFolderOrKeep (t : Tree) (p : Path) : Tree × Option FileFault :=
  match t.makeFolder p with
  | .ok t' => (t', none)
  | .error .notFound => (t, some (.refused .notFound p.toText))
  | .error cause =>
    match t.isFolder p with
    | .ok true => (t, none)
    | .ok false => (t, some (.refused cause p.toText))
    | .error f => (t, some f)

/-- Makes a directory and those above it; the names are given from the last one up. -/
def makeFoldersUp (t : Tree) (anchor : Anchor) : List Text → Tree × Option FileFault
  | [] => makeFolderOrKeep t ⟨anchor, []⟩
  | name :: above =>
    let p : Path := ⟨anchor, (name :: above).reverse⟩
    match t.makeFolder p with
    | .error .notFound =>
      match makeFoldersUp t anchor above with
      | (t', none) => makeFolderOrKeep t' p
      | (t', some f) => (t', some f)
    | _ => makeFolderOrKeep t p

/-- Makes a directory and the missing ones above it, unless it is there. If a directory is refused,
those above it that were made are kept. -/
def makeFolders (t : Tree) (p : Path) : Tree × Option FileFault :=
  match vet p.toText with
  | .error f => (t, some f)
  | .ok _ => makeFoldersUp t p.anchor p.parts.reverse

/-- Replaces what is at the end of the text of a path by a file. -/
def overwrite (t : Tree) (path : Text) (bytes : List UInt8) : Except FileFault Tree :=
  match t.trace .writing path with
  | .error .isDirectory =>
    match t.statusOfText path with
    | .ok _ => .error (.refused .isDirectory path)
    | .error _ => .error (.noSuchFolder path)
  | .error cause => .error (.refused cause path)
  | .ok l =>
    if t.get? l = some .folder then .error (.refused .isDirectory path)
    else .ok (t.put l (.file bytes))

/-- Does the text of a path lead to a directory? -/
def leadsToFolder (t : Tree) (path : Text) : Bool :=
  match t.statusOfText path with
  | .ok (_, e) => isFolderEntry e
  | .error _ => false

/-- Copies a file to the text of a path; a directory there receives the file under its own name. -/
def copy (t : Tree) (source : Path) (target : Text) : Except FileFault Tree := do
  let target := if t.leadsToFolder target then Path.joinTexts target source.name else target
  vet target
  let bytes ← t.read source
  match t.status source, t.statusOfText target with
  | .ok (a, _), .ok (b, _) =>
    if a = b then throw (.sameFile source.toText target) else t.overwrite target bytes
  | _, _ => t.overwrite target bytes

/-- Removes what a path names, a link itself and not what it links to. -/
def remove (t : Tree) (p : Path) : Except FileFault Tree := do
  vet p.toText
  match t.locate .entry p with
  | .error cause => refuse p cause
  | .ok l =>
    match t.get? l with
    | none => refuse p .notFound
    | some _ => return t.erase l

/-- Adds a link, in a directory that is there and under a name that is free. -/
def addLink (t : Tree) (p : Path) (target : Text) : Except FileFault Tree := do
  vet target
  vet p.toText
  let fail (cause : Obstacle) : Except FileFault Tree := .error (.refusedLink cause target p.toText)
  if target = [] then fail .notFound
  else if maxPathBytes < Name.size target then fail .nameTooLong
  else
    match t.locate .entry p with
    | .error cause => fail cause
    | .ok l =>
      match t.get? l with
      | some _ => fail .exists
      | none => return t.put l (.link (Name.plain target))

/-- Everything below a path with its relative path, in the order of the relative paths. -/
def below (t : Tree) (p : Path) : List (Text × Entry) :=
  match t.status p with
  | .ok (l, .folder) =>
    let found := t.entries.filterMap fun x =>
      if l.isPrefixOf x.1 && l.length < x.1.length then
        some (Text.join "/" (x.1.drop l.length), x.2)
      else none
    found.mergeSort fun a b => !Text.before b.1 a.1
  | _ => []

end PackageAudit.Tree
