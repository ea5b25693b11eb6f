/-! # Rounding a quotient

The quotient of two natural numbers rounded to the nearest one, a half going to the even neighbour.
-/

namespace PackageAudit

/-- The natural number nearest to `n / d`; of two equally near ones the even one. The result is zero
if `d` is. -/
def roundDiv (n d : Nat) : Nat :=
  let q := n / d
  let twice := 2 * (n % d)
  if twice < d then q
  else if twice = d then q + q % 2
  else if d = 0 then 0
  else q + 1

/-- The result is at most half a divisor away from the quotient. -/
theorem roundDiv_near {n d : Nat} (h : 0 < d) :
    2 * n ≤ 2 * (d * roundDiv n d) + d ∧ 2 * (d * roundDiv n d) ≤ 2 * n + d := by
  have whole := Nat.div_add_mod n d
  have small := Nat.mod_lt n h
  have up : d * (n / d + 1) = d * (n / d) + d := Nat.mul_succ d (n / d)
  simp only [roundDiv]
  split
  · omega
  · split
    · rcases Nat.mod_two_eq_zero_or_one (n / d) with hq | hq <;> rw [hq]
      · rw [Nat.add_zero]; omega
      · omega
    · split <;> omega

theorem roundDiv_mono {m n : Nat} (h : m ≤ n) (d : Nat) : roundDiv m d ≤ roundDiv n d := by
  have hm := Nat.div_add_mod m d
  have hn := Nat.div_add_mod n d
  have hquotient : m / d ≤ n / d := Nat.div_le_div_right h
  simp only [roundDiv]
  rcases Nat.eq_or_lt_of_le hquotient with heq | hlt
  · rw [heq] at hm ⊢
    have hrest : m % d ≤ n % d := by omega
    grind
  · have hd : d ≠ 0 := by
      rintro rfl
      simp at hlt
    grind

end PackageAudit
