import PackageAudit.Text.Basic

/-! # Blank code points

White space is the Unicode class of that name: it has the no-break space and the wide spaces, and
not the zero-width space U+200B, the Mongolian vowel separator U+180E and the byte order mark
U+FEFF. The blank code points are white space together with the four information separators U+001C
to U+001F.
-/

namespace PackageAudit

namespace CodePoint

/-- White space. -/
def isWhite (c : CodePoint) : Bool :=
  (9 ≤ c.val && c.val ≤ 13) || c.val == 0x20 || c.val == 0x85 || c.val == 0xa0 ||
  c.val == 0x1680 || (0x2000 ≤ c.val && c.val ≤ 0x200a) || c.val == 0x2028 || c.val == 0x2029 ||
  c.val == 0x202f || c.val == 0x205f || c.val == 0x3000

/-- White space or an information separator. -/
def isBlank (c : CodePoint) : Bool := c.isWhite || (0x1c ≤ c.val && c.val ≤ 0x1f)

end CodePoint

namespace Text

/-- Is there nothing but blank code points? -/
def isBlank (t : Text) : Bool := t.all CodePoint.isBlank

/-- The text without the code points of a class at its two ends. -/
def trimWhere (p : CodePoint → Bool) (t : Text) : Text :=
  ((t.dropWhile p).reverse.dropWhile p).reverse

/-- The text without the blank code points at its two ends. -/
def trim (t : Text) : Text := t.trimWhere CodePoint.isBlank

end Text

end PackageAudit
