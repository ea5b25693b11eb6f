import PackageAudit.Tree.Basic
import PackageAudit.Tree.Name

/-! # Following paths

There are two ways to follow a path. `Tree.locate` is what the file system does for every access: it
goes name by name through directories that must be there, replaces each link by its target, and
gives up after forty links. A single dot stands for the directory that has been reached, and so does
the empty name behind a slash at the end, except that nothing can be written there.
`Tree.resolve` finds the path without links that a path stands for whether or not anything is there:
names that are missing are kept, a double dot drops the name before it, and a link that is met again
while it is being followed makes a loop, which leaves the rest of the path as it is written.
-/

namespace PackageAudit.Tree

/-! ## The way of the file system -/

/-- The longest name, in bytes of its UTF-8 form. -/
def maxNameBytes : Nat := 255

/-- The longest path, in bytes of its UTF-8 form. -/
def maxPathBytes : Nat := 4095

/-- The most links that one access follows. -/
def maxLinks : Nat := 40

/-- What a path is followed for. -/
inductive Purpose where
  /-- To get to what is at its end, be it a link. -/
  | entry
  /-- To get to what a link at its end leads to. -/
  | target
  /-- To write a file there. -/
  | writing
deriving Repr, DecidableEq

/-- Where a walk without links ends. -/
inductive Arrival where
  /-- At a location whose directory is there. -/
  | reached (l : Location)
  /-- At a link in a directory, with names still to go. -/
  | link (folder : Location) (target : Text) (rest : List Text)
  | blocked (cause : Obstacle)

/-- Walks from a directory until the names end, a link has to be followed or the way is blocked. No
file can be written under a name with a slash behind it. -/
def advance (t : Tree) (purpose : Purpose) (folder : Location) : List Text → Arrival
  | [] => .reached folder
  | name :: rest =>
    if name = [] ∨ name = "." then advance t purpose folder rest
    else if name = ".." then advance t purpose folder.dropLast rest
    else if purpose = .writing ∧ rest = [[]] then .blocked .isDirectory
    else if maxNameBytes < Name.size name then .blocked .nameTooLong
    else
      let l := folder ++ [Name.plain name]
      match t.get? l with
      | none => if rest = [] then .reached l else .blocked .notFound
      | some .folder => advance t purpose l rest
      | some (.file _) => if rest = [] then .reached l else .blocked .notDirectory
      | some (.link target) =>
        if rest = [] ∧ purpose = .entry then .reached l
        else .link folder target rest

/-- Walks through at most `budget` links. -/
def walk (t : Tree) (purpose : Purpose) : Nat → Location → List Text → Except Obstacle Location
  | budget, folder, names =>
    match advance t purpose folder names with
    | .reached l => .ok l
    | .blocked cause => .error cause
    | .link folder target rest =>
      match budget with
      | 0 => .error .tooManyLinks
      | budget + 1 =>
        let start := if (Path.ofText target).isAbsolute then [] else folder
        walk t purpose budget start (Path.steps target ++ rest)

/-- The location that the text of a path leads to. Its directory is there; it may itself be
empty. -/
def trace (t : Tree) (purpose : Purpose) (path : Text) : Except Obstacle Location :=
  if path = [] then .error .notFound
  else if maxPathBytes < Name.size path then .error .nameTooLong
  else walk t purpose maxLinks (t.start (.ofText path)) (Path.steps path)

/-- The location that a path leads to. Its directory is there; it may itself be empty. -/
def locate (t : Tree) (purpose : Purpose) (p : Path) : Except Obstacle Location :=
  if maxPathBytes < Name.size p.toText then .error .nameTooLong
  else walk t purpose maxLinks (t.start p) p.parts

/-- A location together with what it holds. -/
def occupied (t : Tree) (l : Location) : Except Obstacle (Location × Entry) :=
  match t.get? l with
  | some e => .ok (l, e)
  | none => .error .notFound

/-- What is at the end of a path, links followed. -/
def status (t : Tree) (p : Path) : Except Obstacle (Location × Entry) :=
  match t.locate .target p with
  | .error cause => .error cause
  | .ok l => t.occupied l

/-- What is at the end of the text of a path, links followed. -/
def statusOfText (t : Tree) (path : Text) : Except Obstacle (Location × Entry) :=
  match t.trace .target path with
  | .error cause => .error cause
  | .ok l => t.occupied l

/-- Refuses texts that no file system call takes. -/
def vet (path : Text) : Except FileFault Unit :=
  match path.findIdx? fun c => c.isSurrogate && !Name.standsForByte c with
  | some i => .error (.unencodable ⟨i, (path.drop i).takeWhile CodePoint.isSurrogate⟩)
  | none => if path.contains (CodePoint.ofNat 0) then .error .zeroInPath else .ok ()

/-! ## Paths without links -/

/-- A place on the way, as the way wrote it. A link that is met under two spellings counts as
two. -/
structure Place where
  /-- How many directories the way went up from the current directory before its names; nothing if
  it starts at the root. -/
  up : Option Nat
  names : List Text
deriving DecidableEq

namespace Place

/-- The root. -/
def root : Place := ⟨none, []⟩

/-- The current directory. -/
def here : Place := ⟨some 0, []⟩

/-- The place of the directory above. -/
def above (p : Place) : Place :=
  if p.names = [] then { p with up := p.up.map (· + 1) } else { p with names := p.names.dropLast }

/-- The place of a name. -/
def below (p : Place) (name : Text) : Place := { p with names := p.names ++ [name] }

/-- The names from the root to a place, as the way wrote them. -/
def written (p : Place) (here : Location) : List Text :=
  match p.up with
  | none => p.names
  | some n => here.take (here.length - n) ++ p.names

/-- The location of a place. -/
def location (p : Place) (here : Location) : Location := (p.written here).map Name.plain

/-- The spelling of a place. -/
def toText (p : Place) : Text :=
  match p.up with
  | none => Path.slash :: Text.join "/" p.names
  | some n => Text.join "/" (List.replicate n (Text.ofString "..") ++ p.names)

end Place

/-- Links that were met: without a place while they are being followed. -/
abbrev Seen := List (Place × Option Place)

/-- The outcome of resolving. -/
inductive Settled where
  | done (seen : Seen) (place : Place)
  /-- A loop: the text of the link and of what was to follow, which stay unresolved. -/
  | looped (path : Text)

/-- The target of the link at a place, if there is a link and its spelling is not too long. -/
def linkAt? (t : Tree) (p : Place) : Option Text :=
  match t.get? (p.location t.here) with
  | some (.link target) => if maxPathBytes < Name.size p.toText then none else some target
  | _ => none

/-- Resolves names one by one; `enter` resolves the target of a link. The first place on the way
that no file system call takes is a fault. -/
def settleNames (t : Tree) (enter : Seen → Place → Text → Except FileFault Settled) (seen : Seen)
    (place : Place) : List Text → Except FileFault Settled
  | [] => .ok (.done seen place)
  | name :: rest =>
    if name = [] ∨ name = "." then settleNames t enter seen place rest
    else if name = ".." then settleNames t enter seen place.above rest
    else
      let spot := place.below name
      match vet spot.toText with
      | .error f => .error f
      | .ok _ =>
        match t.linkAt? spot with
        | none => settleNames t enter seen spot rest
        | some target =>
          match seen.lookup spot with
          | some (some found) => settleNames t enter seen found rest
          | some none => .ok (.looped (Path.joinTexts spot.toText (Text.join "/" rest)))
          | none =>
            match enter ((spot, none) :: seen) place target with
            | .ok (.done seen found) =>
              settleNames t enter ((spot, some found) :: seen) found rest
            | .ok (.looped path) => .ok (.looped (Path.joinTexts path (Text.join "/" rest)))
            | .error f => .error f

/-- How deep links can be nested. Only links that lead to themselves under ever longer spellings and
very long chains get there. -/
def maxNesting : Nat := 980

/-- Resolves a text that is met at a place, through links that are nested at most so deep. -/
def settle (t : Tree) : Nat → Seen → Place → Text → Except FileFault Settled
  | 0 => fun _ _ _ => .error .linksTooDeep
  | depth + 1 => fun seen place path =>
    if path.head? = some Path.slash then
      settleNames t (settle t depth) seen .root (Text.split Path.slash (path.drop 1))
    else settleNames t (settle t depth) seen place (path.split Path.slash)

/-- Names with each double dot dropped together with the name before it. -/
def collapse (names : List Text) : Location :=
  let step (l : Location) (name : Text) : Location :=
    if name = ".." then l.dropLast else l ++ [name]
  names.foldl step []

/-- The path from the root that a path stands for if no name is a link. -/
def absolute (t : Tree) (p : Path) : Path :=
  let p := (Path.ofLocation t.here).join p
  { p with parts := collapse p.parts }

/-- The path without links that a path stands for. It is a fault if its links are nested too deep,
or if the file system, too, gets lost in links on what is left of the path. -/
def resolve (t : Tree) (p : Path) : Except FileFault Path := do
  let found := match ← settle t maxNesting [] .here p.toText with
    | .done _ place => Path.ofLocation (place.written t.here)
    | .looped path => t.absolute (.ofText path)
  vet found.toText
  match t.status found with
  | .error .tooManyLinks => throw (.linkLoop found.toText)
  | _ => return found

end PackageAudit.Tree
