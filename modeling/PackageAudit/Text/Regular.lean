import PackageAudit.Text.Pattern

/-! # Regular expressions

Some patterns match in several ways at a place, and only some of these can be completed. Such a
pattern is a `Regular`: `Regular.ends` gives the places behind all of its matches there, and
`Regular.isIn` looks for a place where there is a match.
-/

namespace PackageAudit

/-- A regular expression. -/
inductive Regular where
  /-- A word as it stands. -/
  | word (w : Text)
  /-- A lower-case ASCII word up to case. -/
  | folded (w : Text)
  /-- One code point of a kind. -/
  | one (p : CodePoint → Bool)
  /-- Any number of code points of a kind. -/
  | many (p : CodePoint → Bool)
  /-- The beginning of the text. -/
  | start
  /-- The end of the text; it is also in front of a line feed that ends the text. -/
  | finish
  | next (r s : Regular)
  | either (r s : Regular)

namespace Regular

/-- One expression behind the other. -/
def inTurn (rs : List Regular) : Regular := rs.foldr next (word [])

/-- Any of the expressions. -/
def anyOf (rs : List Regular) : Regular := rs.foldr either (one fun _ => false)

/-- A place in a text: is it the first one, and what is left of the text there? -/
structure Place where
  isFirst : Bool
  here : Text

/-- The place so many code points further on. -/
def Place.further (x : Place) (n : Nat) : Place := ⟨x.isFirst && n == 0, x.here.drop n⟩

/-- The places behind the matches that begin at a place. -/
def ends : Regular → Place → List Place
  | word w, x => if x.here.startsWith w then [x.further w.length] else []
  | folded w, x => if x.here.startsWithFolded w then [x.further w.length] else []
  | one p, x => if x.here.head?.any p then [x.further 1] else []
  | many p, x => (List.range ((x.here.takeWhile p).length + 1)).map x.further
  | start, x => if x.isFirst then [x] else []
  | finish, x => if x.here.isEmpty || x.here == [CodePoint.ofChar '\n'] then [x] else []
  | next r s, x => (r.ends x).flatMap s.ends
  | either r s, x => r.ends x ++ s.ends x

/-- Is there a match somewhere in the text? -/
def isIn (r : Regular) (t : Text) : Bool :=
  t.anywhere fun here => !(r.ends ⟨here.length == t.length, here⟩).isEmpty

end Regular

end PackageAudit
