import PackageAudit.Text.Basic
import PackageAudit.Text.CaseTable
import PackageAudit.Text.PrintTable

/-! # Quoted text in messages

A text inside a message stands between single quotes, or between double quotes if it holds a single
quote and no double quote. A backslash, the quote itself, the three usual line controls and
everything without a printed form are escaped.
-/

namespace PackageAudit

namespace CodePoint

/-- Has the code point a printed form? -/
def isPrintable (c : CodePoint) : Bool :=
  if c.val < 0x7f then 0x20 ≤ c.val else !CaseTable.inRuns PrintTable.unprintableRuns c.val

/-- A numeric escape of the least width that fits. -/
def numericEscape (c : CodePoint) : Text :=
  if c.val < 0x100 then "\\x" ++ Text.hex 2 c.val
  else if c.val < 0x10000 then "\\u" ++ Text.hex 4 c.val
  else "\\U" ++ Text.hex 8 c.val

/-- The form of a code point between quotes of one kind. -/
def inQuotes (quote c : CodePoint) : Text :=
  if c = quote ∨ c = ofChar '\\' then [ofChar '\\', c]
  else if c = ofChar '\t' then "\\t"
  else if c = ofChar '\n' then "\\n"
  else if c = ofChar '\r' then "\\r"
  else if c.isPrintable then [c]
  else c.numericEscape

end CodePoint

namespace Text

/-- The quotes that a text is shown in. -/
def quoteFor (t : Text) : CodePoint :=
  if t.contains (CodePoint.ofChar '\'') && !t.contains (CodePoint.ofChar '"') then '"' else '\''

/-- The text between quotes. -/
def quoted (t : Text) : Text :=
  t.quoteFor :: t.flatMap (CodePoint.inQuotes t.quoteFor) ++ [t.quoteFor]

end Text

end PackageAudit
