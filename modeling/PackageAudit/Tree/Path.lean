import PackageAudit.Text.Case

/-! # Written paths

A path as it is written: where it starts and the names it goes through. Empty names and single dots
disappear when a path is read; double dots stay, because what they mean depends on the links in the
tree. A `Location` is a place in the tree reached from its root without dots or links.
-/

namespace PackageAudit

/-- A place in a file tree: the names from the root of the tree down. -/
abbrev Location := List Text

/-- Does a location come before another one? The names are compared one by one, so what is below a
directory comes right behind it. -/
def Location.before (k l : Location) : Bool := k.lex l Text.before

/-- Where a path starts: at the current directory, at the root, or at the root written with exactly
two slashes, which stay two. -/
inductive Anchor where
  | here
  | root
  | doubleRoot
deriving Repr, DecidableEq

/-- A written path. -/
structure Path where
  anchor : Anchor
  parts : List Text
deriving DecidableEq

namespace Path

/-- The separator of names. -/
def slash : CodePoint := CodePoint.ofChar '/'

/-- The names in a text, without empty ones and single dots. -/
def namesIn (t : Text) : List Text :=
  (t.split slash).filter fun name => !name.isEmpty && name != CodePoint.ofChar '.' :: []

/-- The anchor that a number of leading slashes stands for. -/
def anchorOf (slashes : Nat) : Anchor :=
  if slashes = 0 then .here else if slashes = 2 then .doubleRoot else .root

/-- Reads a path. -/
def ofText (t : Text) : Path := ⟨anchorOf (t.takeWhile (· == slash)).length, namesIn t⟩

/-- How the text of a path ends. -/
inductive Ending where
  | name
  /-- A single dot, perhaps with slashes behind it: what is in front of it has to be a directory. -/
  | dot
  /-- A name with slashes behind it: it has to name a directory. -/
  | slash
deriving Repr, DecidableEq

/-- The ending of the text of a path. -/
def ending (t : Text) : Ending :=
  match (t.split slash).reverse.dropWhile List.isEmpty with
  | [] => .name
  | last :: _ =>
    if last = "." then .dot
    else if t.getLast? = some slash ∧ last ≠ ".." then .slash
    else .name

/-- The names that a text goes through. Behind them stands a single dot or an empty name if the text
ends in a dot or in a slash and so asks for a directory. -/
def steps (t : Text) : List Text :=
  let demand : List Text :=
    match ending t with
    | .name => []
    | .dot => ["."]
    | .slash => [""]
  namesIn t ++ demand

/-- The second text as seen from the directory that the first one names; one that begins with a
slash stays as it is. -/
def joinTexts (folder t : Text) : Text :=
  if t.head? = some slash then t
  else if folder.isEmpty || folder.getLast? == some slash then folder ++ t
  else folder ++ slash :: t

/-- The path from the root to a location. -/
def ofLocation (l : Location) : Path := ⟨.root, l⟩

def isAbsolute (p : Path) : Bool := p.anchor != .here

/-- What stands in front of the first name. -/
def anchorText : Anchor → Text
  | .here => ""
  | .root => "/"
  | .doubleRoot => "//"

/-- Writes a path; the path that goes nowhere is a dot. -/
def toText (p : Path) : Text :=
  if p.anchor = .here ∧ p.parts = [] then "." else anchorText p.anchor ++ Text.join "/" p.parts

/-- The path that goes on through more names. -/
def append (p : Path) (names : List Text) : Path := ⟨p.anchor, p.parts ++ names⟩

/-- The second path as seen from the first; an absolute one stays as it is. -/
def join (p q : Path) : Path := if q.isAbsolute then q else p.append q.parts

/-- The path without its last name. -/
def parent (p : Path) : Path := ⟨p.anchor, p.parts.dropLast⟩

/-- The last name, or nothing. -/
def name (p : Path) : Text := p.parts.getLast?.getD []

/-- The last name from its last dot on, if that dot is neither its first nor its last code point. -/
def suffix (p : Path) : Text :=
  let tail := p.name.afterLast '.'
  if tail.length + 1 < p.name.length ∧ tail ≠ [] then CodePoint.ofChar '.' :: tail else []

end Path

end PackageAudit
