import PackageAudit.Text.Blank
import PackageAudit.Text.Case

/-! # Patterns in text

A pattern is tried at one place after the other (`Text.anywhere`). At a place it is a chain of
steps, each of which gives what is left of the text behind what it matched. All words are lower-case
ASCII and are compared without regard to case.
-/

namespace PackageAudit

/-- Is the code point a single or double quote? -/
def CodePoint.isQuote (c : CodePoint) : Bool := c.val == 39 || c.val == 34

namespace Text

/-- Does the pattern match at some place of the text, its end included? -/
def anywhere (p : Text → Bool) : Text → Bool
  | [] => p []
  | c :: rest => p (c :: rest) || anywhere p rest

/-- What is left behind a word. -/
def afterWord? (t word : Text) : Option Text :=
  if t.startsWithFolded word then some (t.drop word.length) else none

/-- What is left behind one code point of a kind. -/
def afterOne? (p : CodePoint → Bool) : Text → Option Text
  | [] => none
  | c :: rest => if p c then some rest else none

/-- What is left behind one code point of a kind, if there is one. -/
def skipOne (p : CodePoint → Bool) (t : Text) : Text := (afterOne? p t).getD t

/-- What is left behind blank code points. -/
def skipBlanks (t : Text) : Text := t.dropWhile CodePoint.isBlank

end Text

end PackageAudit
