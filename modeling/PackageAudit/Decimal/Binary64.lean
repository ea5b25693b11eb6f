import PackageAudit.Decimal.Rounding

/-! # Numbers in the binary64 format

A finite number is a sign, a significand below 2^53 and an exponent of two that is at least -1074.
Every operation is the exact rational one followed by one rounding to the nearest number of the
format, ties going to the even significand; a result of 2^1024 or more is infinite.
-/

namespace PackageAudit

/-- A binary64 number: `significand * 2 ^ exponent` with a sign, an infinity, or no number. -/
inductive Binary64 where
  | finite ( negative : Bool) (significand : Nat) (exponent : Int)
  | infinite ( negative : Bool)
  | nan
deriving Repr, DecidableEq

namespace Binary64

/-- Zero with a sign. -/
def zero (negative : Bool) : Binary64 := .finite negative 0 (-1074)

/-- The exponent `e` with `2 ^ e ≤ n / d < 2 ^ (e + 1)`, for positive `n` and `d`. -/
def floorLog2 (n d : Nat) : Int :=
  let e : Int := (n.log2 : Int) - (d.log2 : Int)
  let reached := if 0 ≤ e then d * Nat.pow 2 e.toNat ≤ n else d ≤ n * Nat.pow 2 (-e).toNat
  if reached then e else e - 1

/-- `n / (d * 2 ^ e)` rounded to a natural number. -/
def roundScaled (n d : Nat) (e : Int) : Nat :=
  if 0 ≤ e then roundDiv n (d * Nat.pow 2 e.toNat) else roundDiv (n * Nat.pow 2 (-e).toNat) d

/-- The number nearest to `n / d`. -/
def ofRatio ( negative : Bool) (n d : Nat) : Binary64 :=
  if n = 0 then zero negative
  else
    let e := max (floorLog2 n d - 52) (-1074)
    let s := roundScaled n d e
    let (s, e) := if s = Nat.pow 2 53 then (Nat.pow 2 52, e + 1) else (s, e)
    if 971 < e then .infinite negative else .finite negative s e

/-- The number nearest to an integer. -/
def ofInt (i : Int) : Binary64 := ofRatio (i < 0) i.natAbs 1

/-- The number nearest to `digits * 10 ^ exponent`, where `digits` has `width` decimal digits.
Numbers far outside the range of the format are settled without computing their power of ten. -/
def ofDecimal ( negative : Bool) (digits width : Nat) (exponent : Int) : Binary64 :=
  if digits = 0 then zero negative
  else if 400 < exponent + width then .infinite negative
  else if exponent + width < -400 then zero negative
  else if 0 ≤ exponent then ofRatio negative (digits * Nat.pow 10 exponent.toNat) 1
  else ofRatio negative digits (Nat.pow 10 (-exponent).toNat)

/-- The size of a finite number as a quotient of natural numbers; zero for the others. -/
def size : Binary64 → Nat × Nat
  | .finite _ s e => if 0 ≤ e then (s * Nat.pow 2 e.toNat, 1) else (s, Nat.pow 2 (-e).toNat)
  | _ => (0, 1)

/-- Is the number above zero? -/
def isPositive : Binary64 → Bool
  | .finite n s _ => !n && s != 0
  | .infinite n => !n
  | .nan => false

/-- The quotient of two non-negative finite numbers, the second one positive. -/
def div (a b : Binary64) : Binary64 :=
  ofRatio false (a.size.1 * b.size.2) (a.size.2 * b.size.1)

/-- The product of two non-negative finite numbers. -/
def mul (a b : Binary64) : Binary64 :=
  ofRatio false (a.size.1 * b.size.1) (a.size.2 * b.size.2)

/-- The natural number nearest to a non-negative finite number. -/
def round (a : Binary64) : Nat := roundDiv a.size.1 a.size.2

/-- The greatest integer that is not above a finite number; zero for the others. -/
def floor (a : Binary64) : Int :=
  let (p, q) := a.size
  match a with
  | .finite true _ _ => -(p : Int) / (q : Int)
  | _ => (p : Int) / (q : Int)

/-- The integer that a finite number equals, if it equals one. -/
def integer? : Binary64 → Option Int
  | .finite n s e =>
    let (p, q) := (finite n s e).size
    if p % q = 0 then some (if n then -((p / q : Nat) : Int) else ((p / q : Nat) : Int)) else none
  | _ => none

end Binary64

end PackageAudit
