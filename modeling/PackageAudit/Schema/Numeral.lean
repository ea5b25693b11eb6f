import PackageAudit.Decimal.Binary64
import PackageAudit.Text.Blank
import PackageAudit.Text.Case

/-! # Numbers written as texts

A whole number has a plain form: digits without leading zeros, after a minus sign if it is below
zero. A text in any other form is brought into the plain one first. A plus sign, leading zeros, a
point with zeros behind it and single underscores between digits are dropped. Among leading zeros
underscores may stand as they like, and a minus sign may follow them.

A number has digits with a point and an exponent, or it is a word for infinity or for no number.
Single underscores may stand between any two of its code points, but then no white space around it.
-/

namespace PackageAudit.Numeral

/-! ## Digits -/

/-- The digits at the beginning, and the rest. -/
def digits (t : Text) : Text × Text :=
  (t.takeWhile CodePoint.isDigit, t.dropWhile CodePoint.isDigit)

/-- The code points of a text without the underscores between them; nothing if there are none, or if
one stands at an end or next to another. -/
def joined? (t : Text) : Option Text :=
  match t.split '_' with
  | [_] => none
  | pieces => if pieces.any List.isEmpty then none else some pieces.flatten

/-! ## Whole numbers -/

/-- The most digits of a whole number. -/
def maxIntegerDigits : Nat := 4300

/-- Why a text is no whole number. -/
inductive Refusal where
  | unreadable
  | tooLong
deriving Repr, DecidableEq

/-- The number that a plain form denotes. What begins with a number that is too long is too long,
whatever follows. -/
def plain (t : Text) : Except Refusal Int :=
  let negative := t.head? == some (CodePoint.ofChar '-')
  let unsigned := if negative then t.drop 1 else t
  match digits unsigned with
  | ([], _) => .error .unreadable
  | (c :: run, rest) =>
    if c = CodePoint.ofChar '0' then
      if run = [] ∧ rest = [] then .ok 0 else .error .unreadable
    else if maxIntegerDigits < (c :: run).length then .error .tooLong
    else if rest = [] then
      let n : Int := Text.toNat (c :: run)
      .ok (if negative then -n else n)
    else .error .unreadable

/-- What is left of a number behind leading zeros, of which `last` is the last code point. The last
one stays in front of a point and at the end. -/
def behindZeros? (last : CodePoint) : Text → Option Text
  | [] => some [last]
  | c :: rest =>
    if c = CodePoint.ofChar '0' ∨ c = CodePoint.ofChar '_' then behindZeros? c rest
    else if c = CodePoint.ofChar '.' then some (last :: c :: rest)
    else if c.isDigit ∨ c = CodePoint.ofChar '-' then some (c :: rest)
    else none

/-- A number without its leading zeros. -/
def withoutZeros? : Text → Option Text
  | [] => none
  | c :: rest =>
    if c = CodePoint.ofChar '0' then behindZeros? c rest
    else if c.isDigit then some (c :: rest)
    else none

/-- A number without a point and the zeros behind it. -/
def withoutDecimals (t : Text) : Text :=
  match t.split '.' with
  | [whole, zeros] =>
    if zeros ≠ [] ∧ zeros.all (· == CodePoint.ofChar '0') then whole else t
  | _ => t

/-- The plain form of an unsigned text, as far as it has one. -/
def plainForm? (t : Text) : Option Text :=
  (withoutZeros? t).map fun t => (joined? (withoutDecimals t)).getD (withoutDecimals t)

/-- The plain form of a text, as far as it has one. -/
def cleaned? (t : Text) : Option Text :=
  match t with
  | [] => none
  | c :: rest =>
    if c = CodePoint.ofChar '+' then
      if rest.head? = some (CodePoint.ofChar '-') then none else plainForm? rest
    else if c = CodePoint.ofChar '-' then (plainForm? rest).map (c :: ·)
    else plainForm? t

/-- The whole number that a text denotes. Only a plain form can be too long; a text that has to be
brought into one first is unreadable then. -/
def integer (t : Text) : Except Refusal Int :=
  match plain t with
  | .error .unreadable =>
    match (cleaned? (t.trimWhere CodePoint.isWhite)).map plain with
    | some (.ok i) => .ok i
    | _ => .error .unreadable
  | r => r

/-! ## Numbers -/

/-- Is a sign in front a minus sign, and what is behind it? -/
def sign (t : Text) : Bool × Text :=
  match t with
  | [] => (false, [])
  | c :: rest =>
    if c = CodePoint.ofChar '-' then (true, rest)
    else if c = CodePoint.ofChar '+' then (false, rest)
    else (false, t)

/-- The power of ten that the end of a number asks for. -/
def exponent? (t : Text) : Option Int :=
  match t with
  | [] => some 0
  | c :: rest =>
    if c.foldsTo 'e' then
      let (negative, unsigned) := sign rest
      match digits unsigned with
      | ([], _) => none
      | (run, []) => some (if negative then -(Text.toNat run : Int) else Text.toNat run)
      | _ => none
    else none

/-- The number that digits with a point and an exponent denote. -/
def decimal? ( negative : Bool) (t : Text) : Option Binary64 :=
  let (whole, rest) := digits t
  let (places, rest) :=
    if rest.head? = some (CodePoint.ofChar '.') then digits (rest.drop 1) else ([], rest)
  if whole = [] ∧ places = [] then none
  else
    (exponent? rest).map fun e =>
      let n := Text.toNat (whole ++ places)
      Binary64.ofDecimal negative n (Text.ofNat n).length (e - places.length)

/-- The number that a text without white space and underscores denotes. -/
def bare? (t : Text) : Option Binary64 :=
  let (negative, unsigned) := sign t
  let word := unsigned.asciiLower
  if word = "inf" ∨ word = "infinity" then some (.infinite negative)
  else if word = "nan" then some .nan
  else decimal? negative unsigned

/-- The number that a text denotes. -/
def number? (t : Text) : Option Binary64 :=
  (bare? (t.trimWhere CodePoint.isWhite)).or ((joined? t).bind bare?)

end PackageAudit.Numeral
