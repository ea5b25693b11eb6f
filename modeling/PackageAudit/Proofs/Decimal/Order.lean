import PackageAudit.Proofs.Decimal.Binary64
import Mathlib.Algebra.Order.Field.Power
import Mathlib.Data.Rat.Cast.Order
import Mathlib.Tactic.FieldSimp
import Mathlib.Tactic.Linarith
import Mathlib.Tactic.NormNum
import Mathlib.Tactic.Positivity
import Mathlib.Tactic.Ring

/-! # Rounding keeps the order

A greater quotient is not rounded to a smaller number of the format (`value_ofRatio_mono`). For two
quotients with one exponent this is so because `roundDiv` keeps the order (`roundDiv_le_roundDiv`); if
the exponents differ, a power of two that is a number of the format for both lies between them. Whole
numbers that the format has room for are exact (`value_ofRatio_natCast`).
-/

namespace PackageAudit

/-! ## Quotients of natural numbers -/

theorem roundDiv_mul_right (n d : Nat) {k : Nat} (hk : 0 < k) :
    roundDiv (n * k) (d * k) = roundDiv n d := by
  have htwice : 2 * (n % d * k) = 2 * (n % d) * k := (Nat.mul_assoc ..).symm
  simp only [roundDiv, Nat.mul_div_mul_right _ _ hk, Nat.mul_mod_mul_right, htwice,
    Nat.mul_lt_mul_right hk, Nat.mul_left_inj (Nat.ne_of_gt hk), Nat.mul_eq_zero,
    Nat.ne_of_gt hk, or_false]

theorem roundDiv_le_roundDiv {n d n' d' : Nat} (hd : 0 < d) (hd' : 0 < d')
    (h : (n : ℚ) / d ≤ n' / d') : roundDiv n d ≤ roundDiv n' d' := by
  have hcross : n * d' ≤ n' * d := by
    rw [div_le_div_iff₀ (by exact_mod_cast hd) (by exact_mod_cast hd')] at h
    exact_mod_cast h
  calc roundDiv n d = roundDiv (n * d') (d * d') := (roundDiv_mul_right n d hd').symm
    _ ≤ roundDiv (n' * d) (d * d') := roundDiv_mono hcross _
    _ = roundDiv (n' * d) (d' * d) := by rw [Nat.mul_comm d d']
    _ = roundDiv n' d' := roundDiv_mul_right n' d' hd

theorem roundDiv_eq {n d m : Nat} (hd : 0 < d) (h : (n : ℚ) / d = m) : roundDiv n d = m := by
  have hn : n = m * d := by
    rw [div_eq_iff (by exact_mod_cast Nat.ne_of_gt hd)] at h
    exact_mod_cast h
  calc roundDiv n d = roundDiv (m * d) (1 * d) := by rw [hn, Nat.one_mul]
    _ = roundDiv m 1 := roundDiv_mul_right m 1 hd
    _ = m := by simp [roundDiv, Nat.mod_one]

namespace Binary64

/-! ## Scaled quotients -/

section

variable {n d n' d' : Nat} {e : Int}

/-- Scaling by a power of two is done without a loss. -/
theorem exists_roundScaled (n : Nat) (hd : 0 < d) (e : Int) :
    ∃ a b : Nat, 0 < b ∧ (a : ℚ) / b = n / d / 2 ^ e ∧ roundScaled n d e = roundDiv a b := by
  unfold roundScaled
  split
  · next he =>
    obtain ⟨k, rfl⟩ := Int.eq_ofNat_of_zero_le he
    refine ⟨n, d * 2 ^ k, Nat.mul_pos hd (Nat.two_pow_pos k), ?_, rfl⟩
    push_cast
    rw [zpow_natCast, div_div]
  · next he =>
    obtain ⟨k, hk⟩ := Int.eq_ofNat_of_zero_le (a := -e) (by omega)
    refine ⟨n * 2 ^ (-e).toNat, d, hd, ?_, rfl⟩
    have hpow : (2 : ℚ) ^ e = (2 ^ k)⁻¹ := by
      rw [show e = -(k : Int) by omega, zpow_neg, zpow_natCast]
    rw [hk, hpow, div_inv_eq_mul, Int.toNat_natCast]
    push_cast
    ring

theorem roundScaled_mono (hd : 0 < d) (hd' : 0 < d') (h : (n : ℚ) / d ≤ n' / d') :
    roundScaled n d e ≤ roundScaled n' d' e := by
  obtain ⟨a, b, hb, hab, heq⟩ := exists_roundScaled n hd e
  obtain ⟨a', b', hb', hab', heq'⟩ := exists_roundScaled n' hd' e
  rw [heq, heq']
  refine roundDiv_le_roundDiv hb hb' ?_
  rw [hab, hab']
  exact div_le_div_of_nonneg_right h (by positivity)

theorem le_roundScaled {m : Nat} (hd : 0 < d) (h : (m : ℚ) ≤ n / d / 2 ^ e) :
    m ≤ roundScaled n d e := by
  obtain ⟨a, b, hb, hab, heq⟩ := exists_roundScaled n hd e
  have hwhole : roundDiv m 1 = m := roundDiv_eq Nat.one_pos (by rw [Nat.cast_one, div_one])
  rw [heq, ← hwhole]
  exact roundDiv_le_roundDiv Nat.one_pos hb (by rwa [hab, Nat.cast_one, div_one])

theorem roundScaled_eq {m : Nat} (hd : 0 < d) (h : (n : ℚ) / d / 2 ^ e = m) :
    roundScaled n d e = m := by
  obtain ⟨a, b, hb, hab, heq⟩ := exists_roundScaled n hd e
  rw [heq, roundDiv_eq hb (hab.trans h)]

/-! ## Powers of two -/

theorem lt_zpow_floorLog2 (n : Nat) (hd : 0 < d) : (n : ℚ) / d < 2 ^ (floorLog2 n d + 1) := by
  obtain ⟨x, y, hxy, hlt⟩ := below_floorLog2 (n := n) hd
  have hd' : (0 : ℚ) < d := by exact_mod_cast hd
  rw [← hxy, zpow_sub₀ two_ne_zero, zpow_natCast, zpow_natCast,
    div_lt_div_iff₀ hd' (by positivity), mul_comm _ (d : ℚ)]
  exact_mod_cast hlt

theorem zpow_floorLog2_le (hn : 0 < n) (hd : 0 < d) : (2 : ℚ) ^ floorLog2 n d ≤ n / d := by
  have hd' : (0 : ℚ) < d := by exact_mod_cast hd
  have hlow : (2 : ℚ) ^ ((n.log2 : Int) - d.log2 - 1) ≤ n / d := by
    have hle : (2 : ℚ) ^ n.log2 ≤ n := by exact_mod_cast Nat.log2_self_le (Nat.ne_of_gt hn)
    have hlt : (d : ℚ) ≤ 2 ^ (d.log2 + 1) := by
      exact_mod_cast Nat.le_of_lt (Nat.lt_log2_self (n := d))
    calc (2 : ℚ) ^ ((n.log2 : Int) - d.log2 - 1) = 2 ^ n.log2 / 2 ^ (d.log2 + 1) := by
          rw [show (n.log2 : Int) - d.log2 - 1 = (n.log2 : Int) - (d.log2 + 1 : Nat) by push_cast; ring,
            zpow_sub₀ two_ne_zero, zpow_natCast, zpow_natCast]
      _ ≤ n / d := div_le_div₀ (Nat.cast_nonneg n) hle hd' hlt
  unfold floorLog2
  by_cases he : 0 ≤ (n.log2 : Int) - d.log2
  · obtain ⟨k, hk⟩ := Int.eq_ofNat_of_zero_le he
    simp only [if_pos he]
    split
    · next hreached =>
      rw [hk, Int.toNat_natCast] at hreached
      rw [hk, zpow_natCast, le_div_iff₀ hd', mul_comm]
      exact_mod_cast hreached
    · exact hlow
  · obtain ⟨k, hk⟩ := Int.eq_ofNat_of_zero_le (a := -((n.log2 : Int) - d.log2)) (by omega)
    simp only [if_neg he]
    split
    · next hreached =>
      rw [hk, Int.toNat_natCast] at hreached
      rw [show (n.log2 : Int) - d.log2 = -(k : Int) by omega, zpow_neg, zpow_natCast,
        le_div_iff₀ hd', inv_mul_le_iff₀ (by positivity), mul_comm]
      exact_mod_cast hreached
    · exact hlow

theorem floorLog2_mono (hn : 0 < n) (hd : 0 < d) (hd' : 0 < d') (h : (n : ℚ) / d ≤ n' / d') :
    floorLog2 n d ≤ floorLog2 n' d' := by
  have hlt : (2 : ℚ) ^ floorLog2 n d < 2 ^ (floorLog2 n' d' + 1) :=
    (zpow_floorLog2_le hn hd).trans_lt (h.trans_lt (lt_zpow_floorLog2 n' hd'))
  have := (zpow_lt_zpow_iff_right₀ one_lt_two).1 hlt
  omega

theorem floorLog2_lt (hn : 0 < n) (hd : 0 < d) {k : Nat} (h : (n : ℚ) / d < 2 ^ k) :
    floorLog2 n d < k := by
  have hlt : (2 : ℚ) ^ floorLog2 n d < 2 ^ (k : Int) :=
    (zpow_floorLog2_le hn hd).trans_lt (by exact_mod_cast h)
  exact (zpow_lt_zpow_iff_right₀ one_lt_two).1 hlt

/-! ## Values -/

/-- What a finite number stands for, but for its sign. -/
def value (b : Binary64) : ℚ := b.size.1 / b.size.2

theorem size_pos (b : Binary64) : 0 < b.size.2 := by
  unfold size
  split
  · split
    · exact Nat.one_pos
    · exact Nat.two_pow_pos _
  · exact Nat.one_pos

theorem value_nonneg (b : Binary64) : 0 ≤ b.value := by
  unfold value
  positivity

theorem value_finite ( negative : Bool) (s : Nat) (e : Int) :
    value (.finite negative s e) = s * 2 ^ e := by
  unfold value size
  simp only
  split
  · next he =>
    obtain ⟨k, rfl⟩ := Int.eq_ofNat_of_zero_le he
    simp
  · next he =>
    obtain ⟨k, hk⟩ := Int.eq_ofNat_of_zero_le (a := -e) (by omega)
    rw [show e = -(k : Int) by omega, zpow_neg, zpow_natCast, neg_neg, Int.toNat_natCast]
    simp [div_eq_mul_inv]

theorem value_zero ( negative : Bool) : (zero negative).value = 0 := by
  simp [zero, value_finite]

/-- Unless a quotient is too great for the format, a carry does not change what it is rounded to. -/
theorem value_ofRatio ( negative : Bool) (hn : 0 < n) (hd : 0 < d) (hlt : (n : ℚ) / d < 2 ^ 1023) :
    (ofRatio negative n d).value = roundScaled n d (exponentOf n d) * 2 ^ exponentOf n d := by
  have hexp : exponentOf n d + 1 ≤ 971 := by
    have := floorLog2_lt hn hd hlt
    unfold exponentOf
    omega
  rw [ofRatio_eq negative d (Nat.ne_of_gt hn)]
  split
  · next hcarry =>
    rw [if_neg (by omega), value_finite, hcarry, zpow_add_one₀ two_ne_zero]
    norm_num
    ring
  · rw [if_neg (by omega), value_finite]

/-- **A greater quotient is not rounded to a smaller number.** -/
theorem value_ofRatio_mono ( negative : Bool) (hd : 0 < d) (hd' : 0 < d')
    (h : (n : ℚ) / d ≤ n' / d') (hlt : (n' : ℚ) / d' < 2 ^ 1023) :
    (ofRatio negative n d).value ≤ (ofRatio negative n' d').value := by
  rcases Nat.eq_zero_or_pos n with rfl | hn
  · rw [ofRatio, if_pos rfl, value_zero]
    exact value_nonneg _
  have hpos : (0 : ℚ) < n' / d' := lt_of_lt_of_le (by positivity) h
  have hn' : 0 < n' := by
    rcases Nat.eq_zero_or_pos n' with rfl | hn'
    · simp at hpos
    · exact hn'
  rw [value_ofRatio negative hn hd (h.trans_lt hlt), value_ofRatio negative hn' hd' hlt]
  have hlog : floorLog2 n d ≤ floorLog2 n' d' := floorLog2_mono hn hd hd' h
  rcases (by unfold exponentOf; omega : exponentOf n d = exponentOf n' d' ∨
    exponentOf n d + 1 ≤ exponentOf n' d' ∧ exponentOf n' d' = floorLog2 n' d' - 52) with
    heq | ⟨hgap, hnormal⟩
  · rw [heq]
    have hle : (roundScaled n d (exponentOf n' d') : ℚ) ≤ roundScaled n' d' (exponentOf n' d') := by
      exact_mod_cast roundScaled_mono hd hd' h
    exact mul_le_mul_of_nonneg_right hle (by positivity)
  · have hlow : (roundScaled n d (exponentOf n d) : ℚ) ≤ 2 ^ 53 := by
      exact_mod_cast roundScaled_exponentOf_le n hd
    have hhigh : (2 : ℚ) ^ 52 ≤ roundScaled n' d' (exponentOf n' d') := by
      have hscaled : ((2 ^ 52 : Nat) : ℚ) ≤ n' / d' / 2 ^ exponentOf n' d' := by
        rw [le_div_iff₀ (by positivity), hnormal]
        refine le_trans (le_of_eq ?_) (zpow_floorLog2_le hn' hd')
        rw [zpow_sub₀ two_ne_zero]
        push_cast
        field_simp
      exact_mod_cast le_roundScaled hd' hscaled
    calc (roundScaled n d (exponentOf n d) : ℚ) * 2 ^ exponentOf n d
        ≤ 2 ^ 53 * 2 ^ exponentOf n d := mul_le_mul_of_nonneg_right hlow (by positivity)
      _ = 2 ^ 52 * 2 ^ (exponentOf n d + 1) := by rw [zpow_add_one₀ two_ne_zero]; ring
      _ ≤ 2 ^ 52 * 2 ^ exponentOf n' d' :=
          mul_le_mul_of_nonneg_left (zpow_le_zpow_right₀ one_le_two hgap) (by positivity)
      _ ≤ roundScaled n' d' (exponentOf n' d') * 2 ^ exponentOf n' d' :=
          mul_le_mul_of_nonneg_right hhigh (by positivity)

theorem value_mul_value (a b : Binary64) :
    ((a.size.1 * b.size.1 : Nat) : ℚ) / (a.size.2 * b.size.2 : Nat) = a.value * b.value := by
  unfold value
  push_cast
  exact (div_mul_div_comm ..).symm

theorem value_mul_mono {a b c : Binary64} (h : a.value ≤ b.value)
    (hlt : b.value * c.value < 2 ^ 1023) : (a.mul c).value ≤ (b.mul c).value := by
  refine value_ofRatio_mono false (Nat.mul_pos a.size_pos c.size_pos)
    (Nat.mul_pos b.size_pos c.size_pos) ?_ ?_
  · rw [value_mul_value, value_mul_value]
    exact mul_le_mul_of_nonneg_right h c.value_nonneg
  · rwa [value_mul_value]

theorem round_mono {a b : Binary64} (h : a.value ≤ b.value) : a.round ≤ b.round :=
  roundDiv_le_roundDiv a.size_pos b.size_pos h

/-- **A whole number with at most 53 binary digits is exact.** -/
theorem value_ofRatio_natCast ( negative : Bool) {m : Nat} (hd : 0 < d) (hq : (n : ℚ) / d = m)
    (hm : m < 2 ^ 53) : (ofRatio negative n d).value = m := by
  rcases Nat.eq_zero_or_pos n with rfl | hn
  · rw [ofRatio, if_pos rfl, value_zero, ← hq, Nat.cast_zero, zero_div]
  have hlt : (n : ℚ) / d < 2 ^ 53 := by
    rw [hq]
    exact_mod_cast hm
  have hexp : exponentOf n d ≤ 0 := by
    have := floorLog2_lt hn hd hlt
    unfold exponentOf
    omega
  obtain ⟨k, hk⟩ := Int.eq_ofNat_of_zero_le (a := -exponentOf n d) (by omega)
  have hpow : (2 : ℚ) ^ exponentOf n d = (2 ^ k)⁻¹ := by
    rw [show exponentOf n d = -(k : Int) by omega, zpow_neg, zpow_natCast]
  have hscaled : roundScaled n d (exponentOf n d) = m * 2 ^ k :=
    roundScaled_eq hd (by rw [hq, hpow, div_inv_eq_mul]; push_cast; rfl)
  rw [value_ofRatio negative hn hd (hlt.trans (pow_lt_pow_right₀ one_lt_two (by decide))), hscaled, hpow]
  push_cast
  exact mul_inv_cancel_right₀ (by positivity) _

theorem value_mul_natCast {a b : Binary64} {m : Nat} (h : a.value * b.value = m)
    (hm : m < 2 ^ 53) : (a.mul b).value = m :=
  value_ofRatio_natCast false (Nat.mul_pos a.size_pos b.size_pos) ((value_mul_value a b).trans h) hm

theorem value_ofInt_natCast {m : Nat} (hm : m < 2 ^ 53) : (ofInt m).value = m :=
  value_ofRatio_natCast _ Nat.one_pos (by simp) hm

theorem round_eq {b : Binary64} {m : Nat} (h : b.value = m) : b.round = m :=
  roundDiv_eq b.size_pos h

end

end Binary64

end PackageAudit
