import PackageAudit.Text.Case

/-! # Log levels

The name of a log level is a word in letters of any case; it stands for the threshold below which
messages are left out, and an unknown word stands for that of `info`. Two words of the log's
vocabulary name something else and have no threshold: the format of messages and the table of its
styles.
-/

namespace PackageAudit.LogLevel

/-- What has a name in the log's vocabulary and is no level. -/
inductive Term where
  | messageFormat
  | formatStyles
deriving Repr, DecidableEq

/-- The names of the levels in lower case, with their thresholds. -/
def levels : List (Text × Nat) :=
  [("critical", 50), ("fatal", 50), ("error", 40), ("warning", 30), ("warn", 30), ("info", 20),
    ("debug", 10), ("notset", 0)]

/-- The other names in lower case. -/
def terms : List (Text × Term) := [("basic_format", .messageFormat), ("_styles", .formatStyles)]

/-- The lower-case letters whose capitals are those of a code point. A dotless i has that of i, a
long s that of s, and the ligatures of s and t have two. -/
def lettersOf (c : CodePoint) : Text :=
  if c.val < 0x80 then [c.lower]
  else if c.val = 0x131 then "i"
  else if c.val = 0x17f then "s"
  else if c.val = 0xfb05 ∨ c.val = 0xfb06 then "st"
  else [c]

/-- The threshold that a word stands for, or what else it names. -/
def threshold (word : Text) : Except Term Nat :=
  let word := word.flatMap lettersOf
  match terms.lookup word with
  | some term => .error term
  | none => .ok ((levels.lookup word).getD 20)

/-- The format of messages. -/
def messageFormat : Text := "%(levelname)s:%(name)s:%(message)s"

end PackageAudit.LogLevel
