import PackageAudit.Json.Basic
import PackageAudit.Decimal.Layout

/-! # Writing JSON

Both forms are plain ASCII: every code point outside the printable ASCII range is an escape, one
above U+FFFF a pair of escapes. The flat form stands on one line with a blank behind each comma and
colon. The indented form puts each item and member on a line of its own, two blanks deeper than its
container; an empty container stays on one line.
-/

namespace PackageAudit.Json

/-- A numeric escape. -/
def unitEscape (n : Nat) : Text := "\\u" ++ Text.hex 4 n

/-- The form of a code point inside a string. -/
def escape (c : CodePoint) : Text :=
  if c.val = 34 then "\\\""
  else if c.val = 92 then "\\\\"
  else if c.val = 10 then "\\n"
  else if c.val = 13 then "\\r"
  else if c.val = 9 then "\\t"
  else if c.val = 12 then "\\f"
  else if c.val = 8 then "\\b"
  else if 32 ≤ c.val ∧ c.val ≤ 126 then [c]
  else if c.val < 0x10000 then unitEscape c.val
  else
    let n := c.val - 0x10000
    unitEscape (0xd800 + n / 0x400) ++ unitEscape (0xdc00 + n % 0x400)

/-- A string with its quotes. -/
def writeString (t : Text) : Text :=
  CodePoint.ofChar '"' :: t.flatMap escape ++ [CodePoint.ofChar '"']

/-- A value that is no container. -/
def writeScalar : Json → Text
  | .null => "null"
  | .bool true => "true"
  | .bool false => "false"
  | .int i => Text.ofInt i
  | .real x => Layout.json.shortestText x
  | .str t => writeString t
  | .arr _ => "[]"
  | .obj _ => "\x7b\x7d"

mutual

/-- The flat form. -/
def writeFlat : Json → Text
  | .arr (v :: vs) => "[" ++ writeFlat v ++ writeFlatItems vs
  | .obj ((name, v) :: ms) =>
    "\x7b" ++ writeString name ++ ": " ++ writeFlat v ++ writeFlatMembers ms
  | v => writeScalar v

/-- The items behind the first one, and the end of the array. -/
def writeFlatItems : List Json → Text
  | [] => "]"
  | v :: vs => ", " ++ writeFlat v ++ writeFlatItems vs

/-- The members behind the first one, and the end of the object. -/
def writeFlatMembers : List (Text × Json) → Text
  | [] => "\x7d"
  | (name, v) :: ms => ", " ++ writeString name ++ ": " ++ writeFlat v ++ writeFlatMembers ms

end

/-- A line end and the blanks of a depth. -/
def newLine (depth : Nat) : Text :=
  CodePoint.ofChar '\n' :: List.replicate (2 * depth) (CodePoint.ofChar ' ')

mutual

/-- The indented form of a value that stands at a depth. -/
def writeIndented (depth : Nat) : Json → Text
  | .arr (v :: vs) =>
    "[" ++ newLine (depth + 1) ++ writeIndented (depth + 1) v ++ writeIndentedItems depth vs
  | .obj ((name, v) :: ms) =>
    "\x7b" ++ newLine (depth + 1) ++ writeString name ++ ": " ++ writeIndented (depth + 1) v ++
      writeIndentedMembers depth ms
  | v => writeScalar v

/-- The items behind the first one, and the end of the array. -/
def writeIndentedItems (depth : Nat) : List Json → Text
  | [] => newLine depth ++ "]"
  | v :: vs =>
    "," ++ newLine (depth + 1) ++ writeIndented (depth + 1) v ++ writeIndentedItems depth vs

/-- The members behind the first one, and the end of the object. -/
def writeIndentedMembers (depth : Nat) : List (Text × Json) → Text
  | [] => newLine depth ++ "\x7d"
  | (name, v) :: ms =>
    "," ++ newLine (depth + 1) ++ writeString name ++ ": " ++ writeIndented (depth + 1) v ++
      writeIndentedMembers depth ms

end

/-- The form of a JSON file: the indented form and a line end. -/
def document (v : Json) : Text := writeIndented 0 v ++ [CodePoint.ofChar '\n']

end PackageAudit.Json
