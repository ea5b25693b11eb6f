import PackageAudit.Decimal.Binary64
import Mathlib.Algebra.Group.Nat.Defs

/-! # Significands

A quotient is rounded to a number of the format: its significand stays below 2^53 (`fits_ofRatio`),
because the exponent is chosen from the power of two that the quotient is below (`below_floorLog2`).
-/

namespace PackageAudit

theorem roundDiv_le {n d m : Nat} (hd : 0 < d) (h : n < d * m) : roundDiv n d ≤ m := by
  have hnear := (roundDiv_near (n := n) hd).2
  have hlt : d * (2 * roundDiv n d) < d * (2 * m + 1) := by
    rw [Nat.mul_add, Nat.mul_left_comm, Nat.mul_left_comm d 2 m, Nat.mul_one]
    omega
  have := Nat.lt_of_mul_lt_mul_left hlt
  omega

namespace Binary64

/-- The significand of a finite number is one of the format. -/
def Fits : Binary64 → Prop
  | .finite _ s _ => s < 2 ^ 53
  | _ => True

/-- The quotient of two numbers is below a power of two. -/
def Below (n d : Nat) (e : Int) : Prop := ∃ x y : Nat, (y : Int) - x = e ∧ n * 2 ^ x < d * 2 ^ y

theorem Below.lt {n d : Nat} {e : Int} (h : Below n d e) {x y : Nat} (hle : e ≤ (y : Int) - x) :
    n * 2 ^ x < d * 2 ^ y := by
  obtain ⟨x₀, y₀, he, hlt⟩ := h
  have hpow : 0 < 2 ^ x := Nat.pow_pos (by decide)
  refine Nat.lt_of_mul_lt_mul_right (a := 2 ^ x₀) ?_
  calc n * 2 ^ x * 2 ^ x₀ = n * 2 ^ x₀ * 2 ^ x := Nat.mul_right_comm _ _ _
    _ < d * 2 ^ y₀ * 2 ^ x := Nat.mul_lt_mul_of_pos_right hlt hpow
    _ = d * 2 ^ (y₀ + x) := by rw [Nat.mul_assoc, ← Nat.pow_add]
    _ ≤ d * 2 ^ (y + x₀) := Nat.mul_le_mul_left d (Nat.pow_le_pow_right (by decide) (by omega))
    _ = d * 2 ^ y * 2 ^ x₀ := by rw [Nat.mul_assoc, ← Nat.pow_add]

theorem below_floorLog2 {n d : Nat} (hd : 0 < d) : Below n d (floorLog2 n d + 1) := by
  have hn : n < 2 ^ (n.log2 + 1) := Nat.lt_log2_self
  have hle : 2 ^ d.log2 ≤ d := Nat.log2_self_le (Nat.ne_of_gt hd)
  have hreached : Below n d ((n.log2 : Int) - d.log2 + 1) := by
    refine ⟨d.log2, n.log2 + 1, by omega, ?_⟩
    calc n * 2 ^ d.log2 < 2 ^ (n.log2 + 1) * 2 ^ d.log2 :=
          Nat.mul_lt_mul_of_pos_right hn (Nat.pow_pos (by decide))
      _ ≤ 2 ^ (n.log2 + 1) * d := Nat.mul_le_mul_left _ hle
      _ = d * 2 ^ (n.log2 + 1) := Nat.mul_comm _ _
  unfold floorLog2
  by_cases he : 0 ≤ (n.log2 : Int) - d.log2
  · simp only [if_pos he]
    split
    · exact hreached
    · next hnot =>
      refine ⟨0, ((n.log2 : Int) - d.log2).toNat, by omega, ?_⟩
      rw [Nat.pow_zero, Nat.mul_one]
      exact Nat.lt_of_not_le hnot
  · simp only [if_neg he]
    split
    · exact hreached
    · next hnot =>
      refine ⟨(-((n.log2 : Int) - d.log2)).toNat, 0, by omega, ?_⟩
      rw [Nat.pow_zero, Nat.mul_one]
      exact Nat.lt_of_not_le hnot

theorem roundScaled_le {n d : Nat} (hd : 0 < d) {e : Int} (h : Below n d (e + 53)) :
    roundScaled n d e ≤ 2 ^ 53 := by
  unfold roundScaled
  split
  · have hlt := h.lt (x := 0) (y := e.toNat + 53) (by omega)
    refine roundDiv_le (Nat.mul_pos hd (Nat.pow_pos (by decide))) ?_
    rwa [Nat.pow_zero, Nat.mul_one, Nat.pow_add, ← Nat.mul_assoc] at hlt
  · exact roundDiv_le hd (h.lt (x := (-e).toNat) (y := 53) (by omega))

/-- The exponent that a quotient is given. -/
def exponentOf (n d : Nat) : Int := max (floorLog2 n d - 52) (-1074)

theorem roundScaled_exponentOf_le (n : Nat) {d : Nat} (hd : 0 < d) :
    roundScaled n d (exponentOf n d) ≤ 2 ^ 53 := by
  refine roundScaled_le hd ?_
  obtain ⟨x, y, he, hlt⟩ := below_floorLog2 (n := n) hd
  unfold exponentOf
  refine ⟨x, y + (max (floorLog2 n d - 52) (-1074) + 53 - (floorLog2 n d + 1)).toNat, by omega,
    Nat.lt_of_lt_of_le hlt (Nat.mul_le_mul_left d (Nat.pow_le_pow_right (by decide) ?_))⟩
  omega

/-- The number nearest to a quotient: its scaled quotient, or half of that with the next exponent. -/
theorem ofRatio_eq (negative : Bool) {n : Nat} (d : Nat) (hn : n ≠ 0) : ofRatio negative n d =
    if roundScaled n d (exponentOf n d) = 2 ^ 53 then
      if 971 < exponentOf n d + 1 then .infinite negative
      else .finite negative (2 ^ 52) (exponentOf n d + 1)
    else if 971 < exponentOf n d then .infinite negative
    else .finite negative (roundScaled n d (exponentOf n d)) (exponentOf n d) := by
  unfold ofRatio exponentOf
  rw [if_neg hn]
  simp only
  by_cases hcarry : roundScaled n d (max (floorLog2 n d - 52) (-1074)) = 2 ^ 53
  · have hcarry' : roundScaled n d (max (floorLog2 n d - 52) (-1074)) = Nat.pow 2 53 := hcarry
    rw [if_pos hcarry, if_pos hcarry']
    rfl
  · have hcarry' : ¬ roundScaled n d (max (floorLog2 n d - 52) (-1074)) = Nat.pow 2 53 := hcarry
    rw [if_neg hcarry, if_neg hcarry']

/-- **A rounded quotient is a number of the format.** -/
theorem fits_ofRatio (negative : Bool) {n d : Nat} (hd : 0 < d) :
    (ofRatio negative n d).Fits := by
  by_cases hn : n = 0
  · rw [ofRatio, if_pos hn]
    exact Nat.pow_pos (by decide)
  rw [ofRatio_eq negative d hn]
  split
  · split
    · trivial
    · exact (by decide : 2 ^ 52 < 2 ^ 53)
  · next hne =>
    split
    · trivial
    · exact Nat.lt_of_le_of_ne (roundScaled_exponentOf_le n hd) hne

theorem fits_ofDecimal (negative : Bool) (digits width : Nat) (exponent : Int) :
    (ofDecimal negative digits width exponent).Fits := by
  have hzero : (zero negative).Fits := Nat.pow_pos (by decide)
  unfold ofDecimal
  split
  · exact hzero
  split
  · trivial
  split
  · exact hzero
  split
  · exact fits_ofRatio negative Nat.one_pos
  · exact fits_ofRatio negative (Nat.pow_pos (by decide))

end Binary64

end PackageAudit
