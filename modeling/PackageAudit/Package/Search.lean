import PackageAudit.Package.Describe

/-! # Searching for packages

`search` finds the directories below a root that hold a manifest. A directory with a manifest is not
searched further, and neither are ignored, hidden or too deep ones. A link to a directory counts as
a directory; what is below it is searched only if links are followed. All directories in a directory
are looked at before one of them is searched. The packages come in the order of their lists of
names.
-/

namespace PackageAudit

namespace Search

/-- Searches what is below a directory; nothing at the last level. -/
abbrev Descent := Option (Path → Except FileFault (List Path))

/-- Does a directory, by whatever way it is reached, hold a manifest? -/
def holdsManifest (t : Tree) (s : Settings) (folder : Path) : Except FileFault Bool :=
  t.isFile (manifestPath s folder)

/-- Is the entry at a location, to which a path leads, a directory or a link to one? -/
def isFolder (t : Tree) (l : Location) (p : Path) : Bool :=
  match t.get? l with
  | some .folder => true
  | some (.link _) =>
    match t.status p with
    | .ok (_, .folder) => true
    | _ => false
  | _ => false

/-- Is a directory of this name looked at? -/
def isSearched (o : SearchOptions) (name : Text) : Bool :=
  !Listing.ignoredFolders.contains name && (!Listing.isHidden name || o.includeHidden)

/-- What one entry of a directory is to the search. -/
inductive Sight where
  | nothing
  | package (p : Path)
  /-- A directory that may be searched. -/
  | container (p : Path)

/-- Looks at one entry of the directory `folder`, whose location is `place`. -/
def look (t : Tree) (s : Settings) (o : SearchOptions) (folder : Path) (place : Location)
    (name : Text) : Except FileFault Sight :=
  let l := place ++ [name]
  let p := folder.append [name]
  if !isFolder t l p || !isSearched o name then .ok .nothing
  else
    match holdsManifest t s p with
    | .error f => .error f
    | .ok true => .ok (.package p)
    | .ok false => .ok (if t.get? l = some .folder || o.followLinks then .container p else .nothing)

/-- The packages that come of what one entry is. -/
def packagesOf (descend : Descent) : Sight → Except FileFault (List Path)
  | .nothing => .ok []
  | .package p => .ok [p]
  | .container p =>
    match descend with
    | none => .ok []
    | some below => below p

/-- The packages in a directory. -/
def visitFolder (t : Tree) (s : Settings) (o : SearchOptions) (descend : Descent)
    (folder : Path) : Except FileFault (List Path) :=
  match t.status folder with
  | .ok (place, .folder) => do
    let sights ← (t.names place).mapM (look t s o folder place)
    let found ← sights.mapM (packagesOf descend)
    return found.flatten
  | _ => .ok []

/-- The packages in a directory and so many levels below it. -/
def visit (t : Tree) (s : Settings) (o : SearchOptions) :
    Nat → Path → Except FileFault (List Path)
  | 0 => visitFolder t s o none
  | levels + 1 => visitFolder t s o (some (visit t s o levels))

end Search

/-- The packages below a path without links, and the one at it if `includeRoot` asks for it. -/
def searchAt (t : Tree) (s : Settings) (o : SearchOptions) (includeRoot : Bool) (root : Path) :
    Except FileFault (List Path) := do
  if !(← t.isFolder root) then return []
  let own ← if includeRoot then Search.holdsManifest t s root else pure false
  let below ← Search.visit t s o o.maxDepth.toNat root
  let found := (if own then [root] else []) ++ below
  return found.mergeSort fun a b => !Location.before b.parts a.parts

/-- The packages below a path. -/
def search (t : Tree) (s : Settings) (root : Text) (o : SearchOptions) (includeRoot : Bool) :
    Except Fault (List Path) := do
  let root ← liftFile (t.resolve (.ofText root))
  liftFile (searchAt t s o includeRoot root)

end PackageAudit
