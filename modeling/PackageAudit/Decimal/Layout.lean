import PackageAudit.Decimal.Shortest

/-! # Layout of numbers

How digits become text. A `Layout` says between which exponents a number is written positionally,
whether a whole number keeps a point and a zero, and what the numbers that are not finite are
called.
-/

namespace PackageAudit

/-- The decisions of a number format. -/
structure Layout where
  /-- Positional notation begins at this exponent of ten. -/
  leastPositional : Int
  /-- Positional notation ends below this exponent of ten. -/
  positionalEnd : Int
  /-- A whole number in positional notation is followed by a point and a zero. -/
  keepsPoint : Bool
  infinity : Text
  notANumber : Text

namespace Layout

/-- Numbers in JSON documents. -/
def json : Layout := ⟨-4, 16, true, "Infinity", "NaN"⟩

/-- Settings when they are listed. -/
def listed : Layout := ⟨-4, 16, true, "inf", "nan"⟩

/-- Deadlines in messages, which show six digits at most. -/
def deadline : Layout := ⟨-4, 6, false, "inf", "nan"⟩

/-- The exponent with a sign and at least two digits. -/
def exponentText (e : Int) : Text :=
  let digits := Text.ofNat e.natAbs
  (if e < 0 then "e-" else "e+" : Text) ++ Text.zeros (2 - digits.length) ++ digits

/-- Digits without sign. -/
def digitsText (l : Layout) (d : Digits) : Text :=
  let width : Int := d.digits.length
  if d.exponent < l.leastPositional ∨ l.positionalEnd ≤ d.exponent then
    let fraction := d.digits.drop 1
    d.digits.take 1 ++ (if fraction.isEmpty then [] else CodePoint.ofChar '.' :: fraction) ++
      exponentText d.exponent
  else if d.exponent < 0 then
    "0." ++ Text.zeros (-d.exponent - 1).toNat ++ d.digits
  else if width ≤ d.exponent + 1 then
    d.digits ++ Text.zeros (d.exponent + 1 - width).toNat ++
      (if l.keepsPoint then ".0" else "" : Text)
  else
    let whole := (d.exponent + 1).toNat
    d.digits.take whole ++ CodePoint.ofChar '.' :: d.digits.drop whole

/-- Zero without sign. -/
def zeroText (l : Layout) : Text := if l.keepsPoint then "0.0" else "0"

/-- The sign in front of a number. -/
def signText ( negative : Bool) : Text := if negative then "-" else ""

/-- A number, its finite positive size written by `digits`. -/
def numberText (l : Layout) (digits : Nat → Int → Digits) : Binary64 → Text
  | .nan => l.notANumber
  | .infinite negative => signText negative ++ l.infinity
  | .finite negative 0 _ => signText negative ++ l.zeroText
  | .finite negative significand exponent =>
    signText negative ++ l.digitsText (digits significand exponent)

/-- The shortest text that reads back. -/
def shortestText (l : Layout) (x : Binary64) : Text := l.numberText Digits.shortest x

/-- At most six digits. -/
def roundedText (l : Layout) (x : Binary64) : Text :=
  l.numberText (fun s e =>
    let (n, d) := (Binary64.finite false s e).size
    Digits.ofRounded 6 n d) x

end Layout

/-- A non-negative number with two places behind the point, ties going to the even neighbour. -/
def Binary64.twoPlaces (x : Binary64) : Text :=
  let hundredths := roundDiv (x.size.1 * 100) x.size.2
  let places := Text.ofNat (hundredths % 100)
  Text.ofNat (hundredths / 100) ++ "." ++ Text.zeros (2 - places.length) ++ places

end PackageAudit
