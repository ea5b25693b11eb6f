import PackageAudit.Json.Basic

/-! # Reading JSON

`Json.read` accepts the JSON grammar with three additions: the words `NaN`, `Infinity` and
`-Infinity` are numbers, a lone surrogate may be written by an escape, and a name may occur twice in
an object, in which case the last value counts at the place of the first. A whole number of more
than 4300 digits is refused as too long, which is no error of form.

A refusal names the first flaw and its place. The reader carries only what is left of the text, so a
flaw is located by what was left when it was found.
-/

namespace PackageAudit.Json

/-- What is wrong with a text that is no JSON. -/
inductive Flaw where
  | expectingValue
  | expectingComma
  | expectingColon
  | expectingName
  | unterminatedString
  | controlCharacter
  | badEscape
  | badUnicodeEscape
  | extraData
  | byteOrderMark
deriving Repr, DecidableEq

/-- The words for a flaw. -/
def Flaw.message : Flaw → Text
  | .expectingValue => "Expecting value"
  | .expectingComma => "Expecting ',' delimiter"
  | .expectingColon => "Expecting ':' delimiter"
  | .expectingName => "Expecting property name enclosed in double quotes"
  | .unterminatedString => "Unterminated string starting at"
  | .controlCharacter => "Invalid control character at"
  | .badEscape => "Invalid \\escape"
  | .badUnicodeEscape => "Invalid \\uXXXX escape"
  | .extraData => "Extra data"
  | .byteOrderMark => "Unexpected UTF-8 BOM (decode using utf-8-sig)"

/-- A flaw and its place: line and column count from one, the offset from zero. -/
structure Located where
  flaw : Flaw
  line : Nat
  column : Nat
  offset : Nat
deriving Repr, DecidableEq

/-- The words for a located flaw. -/
def Located.message (e : Located) : Text :=
  e.flaw.message ++ ": line " ++ Text.ofNat e.line ++ " column " ++ Text.ofNat e.column ++
    " (char " ++ Text.ofNat e.offset ++ ")"

/-- Why a text was refused. -/
inductive ReadError where
  | malformed (e : Located)
  | integerTooLong (digits : Nat)
deriving Repr, DecidableEq

/-- The longest whole number that is read. -/
def maxIntegerDigits : Nat := 4300

/-- Why reading stopped: a flaw with what was left of the text, or a number that is too long. -/
inductive Stop where
  | flaw (flaw : Flaw) (left : Text)
  | integerTooLong (digits : Nat)

/-- Blank space between the parts of a JSON text. -/
def isSpace (c : CodePoint) : Bool := c.val == 32 || c.val == 9 || c.val == 10 || c.val == 13

/-- The text from its first part on. -/
def skipSpace (t : Text) : Text := t.dropWhile isSpace

/-! ## Strings -/

/-- The code point behind a one-letter escape. -/
def escaped? (c : CodePoint) : Option CodePoint :=
  if c.val = 34 ∨ c.val = 92 ∨ c.val = 47 then some c
  else if c = CodePoint.ofChar 'b' then some (CodePoint.ofNat 8)
  else if c = CodePoint.ofChar 'f' then some (CodePoint.ofNat 12)
  else if c = CodePoint.ofChar 'n' then some (CodePoint.ofNat 10)
  else if c = CodePoint.ofChar 'r' then some (CodePoint.ofNat 13)
  else if c = CodePoint.ofChar 't' then some (CodePoint.ofNat 9)
  else none

/-- The number that four hexadecimal digits denote. -/
def hexUnit? (a b c d : CodePoint) : Option CodePoint := do
  let a ← a.hexDigit?
  let b ← b.hexDigit?
  let c ← c.hexDigit?
  let d ← d.hexDigit?
  return CodePoint.ofNat (((a * 16 + b) * 16 + c) * 16 + d)

/-- Each high surrogate that a low one follows becomes the code point of the pair. -/
def joinPairs : Text → Text
  | [] => []
  | [c] => [c]
  | c :: d :: rest =>
    if c.isHighSurrogate && d.isLowSurrogate then
      CodePoint.ofNat (0x10000 + (c.val - 0xd800) * 0x400 + (d.val - 0xdc00)) :: joinPairs rest
    else c :: joinPairs (d :: rest)

/-- Reads a string behind its opening quote. `opened` is what was left from that quote on, `done`
what the string holds so far, backwards. -/
def readString (opened : Text) (done : Text) : Text → Except Stop (Text × Text)
  | [] => .error (.flaw .unterminatedString opened)
  | c :: rest =>
    if c.val = 34 then .ok (joinPairs done.reverse, rest)
    else if c.val = 92 then
      match rest with
      | [] => .error (.flaw .unterminatedString opened)
      | e :: tail =>
        if e = CodePoint.ofChar 'u' then
          match tail with
          | h1 :: h2 :: h3 :: h4 :: behind =>
            match behind.isEmpty, hexUnit? h1 h2 h3 h4 with
            | false, some unit => readString opened (unit :: done) behind
            | _, _ => .error (.flaw .badUnicodeEscape (e :: tail))
          | _ => .error (.flaw .badUnicodeEscape (e :: tail))
        else
          match escaped? e with
          | some x => readString opened (x :: done) tail
          | none => .error (.flaw .badEscape (c :: e :: tail))
    else if c.val ≤ 0x1f then .error (.flaw .controlCharacter (c :: rest))
    else readString opened (c :: done) rest

/-! ## Numbers -/

/-- Digits at the beginning of a text, and the rest. -/
def spanDigits (t : Text) : Text × Text :=
  (t.takeWhile CodePoint.isDigit, t.dropWhile CodePoint.isDigit)

/-- A point with digits behind it, if the text begins with one: the digits and the rest. -/
def fraction (t : Text) : Text × Text :=
  match t with
  | c :: rest =>
    let (digits, behind) := spanDigits rest
    if c.val = 46 ∧ digits ≠ [] then (digits, behind) else ([], t)
  | [] => ([], [])

/-- An exponent, if the text begins with one: its value and the rest. -/
def exponent? (t : Text) : Option (Int × Text) :=
  match t with
  | c :: rest =>
    if c = CodePoint.ofChar 'e' ∨ c = CodePoint.ofChar 'E' then
      let (negative, unsigned) :=
        match rest with
        | s :: behind =>
          if s.val = 45 then (true, behind)
          else if s.val = 43 then (false, behind)
          else (false, rest)
        | [] => (false, [])
      let (digits, behind) := spanDigits unsigned
      if digits = [] then none
      else some (if negative then -(Text.toNat digits : Int) else Text.toNat digits, behind)
    else none
  | [] => none

/-- The digits in front of the point: a zero alone, or digits that begin with another one. -/
def wholePart? (t : Text) : Option (Text × Text) :=
  match t with
  | c :: rest =>
    if c.val = 48 then some ([c], rest) else if c.isDigit then some (spanDigits t) else none
  | [] => none

/-- Reads a number. -/
def readNumber (t : Text) : Except Stop (Json × Text) :=
  let (negative, unsigned) :=
    match t with
    | c :: rest => if c.val = 45 then (true, rest) else (false, t)
    | [] => (false, [])
  match wholePart? unsigned with
  | none => .error (.flaw .expectingValue t)
  | some (whole, behindWhole) =>
    let (places, behindPoint) := fraction behindWhole
    match exponent? behindPoint, places with
    | none, [] =>
      if maxIntegerDigits < whole.length then .error (.integerTooLong whole.length)
      else
        let n : Int := Text.toNat whole
        .ok (.int (if negative then -n else n), behindPoint)
    | none, _ =>
      let digits := whole ++ places
      let width := (digits.dropWhile (·.val == 48)).length
      .ok (.real (Binary64.ofDecimal negative (Text.toNat digits) width (-(places.length : Int))),
        behindPoint)
    | some (e, behind), _ =>
      let digits := whole ++ places
      let width := (digits.dropWhile (·.val == 48)).length
      let x := Binary64.ofDecimal negative (Text.toNat digits) width (e - places.length)
      .ok (.real x, behind)

/-! ## Values -/

/-- The values that are written as words. -/
def words : List (Text × Json) :=
  [("null", .null), ("true", .bool true), ("false", .bool false), ("NaN", .real .nan),
    ("Infinity", .real (.infinite false)), ("-Infinity", .real (.infinite true))]

/-- Reads a word. -/
def readWord? (t : Text) : Option (Json × Text) :=
  (words.find? (·.1.isPrefixOf t)).map fun (word, v) => (v, t.drop word.length)

mutual

/-- Reads one value. Every call is paid for by the first argument; twice the length of the text and
one more is always enough. -/
def readValue : Nat → Text → Except Stop (Json × Text)
  | 0, t => .error (.flaw .expectingValue t)
  | _ + 1, [] => .error (.flaw .expectingValue [])
  | n + 1, c :: rest =>
    if c.val = 34 then
      match readString (c :: rest) [] rest with
      | .error e => .error e
      | .ok (t, behind) => .ok (.str t, behind)
    else if c.val = 0x7b then
      match skipSpace rest with
      | d :: behind =>
        if d.val = 0x7d then .ok (.obj [], behind) else readMembers n [] (d :: behind)
      | [] => readMembers n [] []
    else if c.val = 0x5b then
      match skipSpace rest with
      | d :: behind =>
        if d.val = 0x5d then .ok (.arr [], behind) else readItems n [] (d :: behind)
      | [] => readItems n [] []
    else
      match readWord? (c :: rest) with
      | some found => .ok found
      | none => readNumber (c :: rest)

/-- Reads the items of an array from an item on; `done` holds those before it, backwards. -/
def readItems : Nat → List Json → Text → Except Stop (Json × Text)
  | 0, _, t => .error (.flaw .expectingValue t)
  | n + 1, done, t =>
    match readValue n t with
    | .error e => .error e
    | .ok (v, behind) =>
      match skipSpace behind with
      | [] => .error (.flaw .expectingComma [])
      | c :: rest =>
        if c.val = 0x5d then .ok (.arr (v :: done).reverse, rest)
        else if c.val = 44 then readItems n (v :: done) (skipSpace rest)
        else .error (.flaw .expectingComma (c :: rest))

/-- Reads the members of an object from a member on; `done` holds those before it. -/
def readMembers : Nat → Members → Text → Except Stop (Json × Text)
  | 0, _, t => .error (.flaw .expectingName t)
  | _ + 1, _, [] => .error (.flaw .expectingName [])
  | n + 1, done, q :: afterQuote =>
    if q.val = 34 then
      match readString (q :: afterQuote) [] afterQuote with
      | .error e => .error e
      | .ok (name, behindName) =>
        match skipSpace behindName with
        | [] => .error (.flaw .expectingColon [])
        | c :: rest =>
          if c.val = 58 then
            match readValue n (skipSpace rest) with
            | .error e => .error e
            | .ok (v, behind) =>
              match skipSpace behind with
              | [] => .error (.flaw .expectingComma [])
              | d :: rest =>
                if d.val = 0x7d then .ok (.obj (done.insert name v), rest)
                else if d.val = 44 then readMembers n (done.insert name v) (skipSpace rest)
                else .error (.flaw .expectingComma (d :: rest))
          else .error (.flaw .expectingColon (c :: rest))
    else .error (.flaw .expectingName (q :: afterQuote))

end

/-- The place of a flaw in a text, from what was left of the text. -/
def locate (t : Text) (flaw : Flaw) (left : Text) : Located :=
  let offset := t.length - left.length
  let before := t.take offset
  ⟨flaw, 1 + before.count 10, (before.reverse.takeWhile (·.val != 10)).length + 1, offset⟩

/-- Reads a text that holds one value. -/
def read (t : Text) : Except ReadError Json :=
  let refuse (flaw : Flaw) (left : Text) : Except ReadError Json :=
    .error (.malformed (locate t flaw left))
  if t.head? = some (CodePoint.ofNat 0xfeff) then refuse .byteOrderMark t
  else
    match readValue (2 * t.length + 1) (skipSpace t) with
    | .error (.flaw f left) => refuse f left
    | .error (.integerTooLong n) => .error (.integerTooLong n)
    | .ok (v, behind) =>
      let left := skipSpace behind
      if left.isEmpty then .ok v else refuse .extraData left

end PackageAudit.Json
