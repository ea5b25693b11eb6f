import PackageAudit.Text.Basic

/-! # Lines

A line ends at a line feed, a carriage return (a line feed right after it belongs to it), a vertical
tab, a form feed, one of the separators U+001C to U+001E, the next-line control U+0085, or one of
U+2028 and U+2029. A text file is read with every carriage return, alone or before a line feed,
turned into a line feed.
-/

namespace PackageAudit

def CodePoint.isLineFeed (c : CodePoint) : Bool := c.val == 10

def CodePoint.isCarriageReturn (c : CodePoint) : Bool := c.val == 13

/-- Does a line end here? -/
def CodePoint.endsLine (c : CodePoint) : Bool :=
  (10 ≤ c.val && c.val ≤ 13) || (0x1c ≤ c.val && c.val ≤ 0x1e) || c.val == 0x85 ||
  c.val == 0x2028 || c.val == 0x2029

namespace Text

/-- Collects lines: `line` is the current one and `done` the finished ones, both backwards. -/
def collectLines (line : Text) (done : List Text) : Text → List Text
  | [] => (if line.isEmpty then done else line.reverse :: done).reverse
  | [c] =>
    if c.endsLine then (line.reverse :: done).reverse else ((c :: line).reverse :: done).reverse
  | c :: d :: rest =>
    if c.isCarriageReturn && d.isLineFeed then collectLines [] (line.reverse :: done) rest
    else if c.endsLine then collectLines [] (line.reverse :: done) (d :: rest)
    else collectLines (c :: line) done (d :: rest)

/-- The lines of a text without their ends. A text that ends with a line end has no empty last
line. -/
def lines (t : Text) : List Text := collectLines [] [] t

/-- Collects the text with its carriage returns turned into line feeds, backwards. -/
def collectUniform (done : Text) : Text → Text
  | [] => done.reverse
  | c :: rest =>
    if c.isCarriageReturn then
      match rest with
      | [] => (CodePoint.ofChar '\n' :: done).reverse
      | d :: rest' =>
        if d.isLineFeed then collectUniform (CodePoint.ofChar '\n' :: done) rest'
        else collectUniform (CodePoint.ofChar '\n' :: done) (d :: rest')
    else collectUniform (c :: done) rest

/-- Line ends in the form that a text file is read with. -/
def uniformLineEnds (t : Text) : Text := collectUniform [] t

/-- The number, counted from one, of the first line with a property. -/
def firstLineWhere (p : Text → Bool) (t : Text) : Option Nat :=
  (t.lines.findIdx? p).map (· + 1)

end Text

end PackageAudit
