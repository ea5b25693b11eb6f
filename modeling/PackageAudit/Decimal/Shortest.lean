import PackageAudit.Text.Basic
import PackageAudit.Decimal.Binary64

/-! # Decimal digits of a number

A positive number is written as `d₀.d₁d₂… · 10 ^ exponent`. `Digits.shortest` has the fewest digits
that are still read back as the same binary64 number and, among those, the ones nearest to it, an
exact tie going to the even last digit. `Digits.ofRounded` has a given number of digits.
-/

namespace PackageAudit

/-- Significant digits without a sign: `digits` is read with the point behind its first digit, and
multiplied by ten to the `exponent`. -/
structure Digits where
  digits : Text
  exponent : Int
deriving DecidableEq

namespace Digits

/-- The exponent `e` with `10 ^ e ≤ n / d < 10 ^ (e + 1)`, for positive `n` and `d`. -/
def floorLog10 (n d : Nat) : Int :=
  if d ≤ n then ((Nat.toDigits 10 (n / d)).length : Int) - 1
  else
    let width := (Nat.toDigits 10 (d / n)).length
    if d ≤ n * Nat.pow 10 (width - 1) then -((width : Int) - 1) else -(width : Int)

/-- `n / (d * 10 ^ e)` as a quotient of natural numbers. -/
def scaled (n d : Nat) (e : Int) : Nat × Nat :=
  if 0 ≤ e then (n, d * Nat.pow 10 e.toNat) else (n * Nat.pow 10 (-e).toNat, d)

/-- Is `k * 10 ^ e` read back as `significand * 2 ^ exponent`? All sides are multiplied by four, so
that the middles between neighbouring numbers are whole. The middles belong to the even significand;
below a power of two the neighbour is twice as near. -/
def readsBack (significand : Nat) (exponent : Int) (k : Nat) (e : Int) : Bool :=
  let gap := if significand = Nat.pow 2 52 ∧ -1074 < exponent then 1 else 2
  let low := 4 * significand - gap
  let high := 4 * significand + 2
  let (p, q) : Nat × Nat :=
    if 0 ≤ e then (4 * k * Nat.pow 10 e.toNat, 1) else (4 * k, Nat.pow 10 (-e).toNat)
  let (p, q) : Nat × Nat :=
    if 0 ≤ exponent then (p, q * Nat.pow 2 exponent.toNat) else (p * Nat.pow 2 (-exponent).toNat, q)
  if significand % 2 = 0 then low * q ≤ p && p ≤ high * q else low * q < p && p < high * q

/-- The multiple of `10 ^ e` to write for a number, if one of its two neighbours on that grid is
read back as the number: the nearer one that is, or the even one at a tie. -/
def onGrid? (significand : Nat) (exponent : Int) (e : Int) : Option Nat :=
  let (n, d) := (Binary64.finite false significand exponent).size
  let (p, q) := scaled n d e
  let below := p / q
  let above := below + 1
  match readsBack significand exponent below e, readsBack significand exponent above e with
  | true, true => some (roundDiv p q)
  | true, false => some below
  | false, true => some above
  | false, false => none

/-- Digits of a natural number at a power of ten, without zeros at the end. -/
def ofNat (k : Nat) (e : Int) : Digits :=
  let all := Text.ofNat k
  let kept := (all.reverse.dropWhile (· == CodePoint.ofChar '0')).reverse
  ⟨kept, e + (all.length : Int) - 1⟩

/-- The first grid, from coarse to fine, that has a number which is read back. -/
def search (significand : Nat) (exponent : Int) : Nat → Int → Digits
  | 0, e => ofNat ((onGrid? significand exponent e).getD 0) e
  | finer + 1, e =>
    match onGrid? significand exponent e with
    | some k => ofNat k e
    | none => search significand exponent finer (e - 1)

/-- The fewest digits that are read back; seventeen always are. -/
def shortest (significand : Nat) (exponent : Int) : Digits :=
  let (n, d) := (Binary64.finite false significand exponent).size
  search significand exponent 16 (floorLog10 n d)

/-- A given number of significant digits of `n / d`, rounded to nearest with ties to even and shown
without zeros at the end. -/
def ofRounded (count n d : Nat) : Digits :=
  let e := floorLog10 n d - ((count : Int) - 1)
  let (p, q) := scaled n d e
  ofNat (roundDiv p q) e

end Digits

end PackageAudit
