import PackageAudit.Decimal.Shortest
import PackageAudit.Proofs.Text.Numeral

/-! # Shortest digits

A positive number with a significand below 2^53 has digits: seventeen of them lie close enough to be
read back (`onGrid?_ne_none`), so the search finds some, and they do not begin with a zero
(`proper_shortest`).
-/

namespace PackageAudit.Digits

/-! ## Powers of ten -/

theorem pow_length_toDigits_le {m : Nat} (hm : 0 < m) :
    10 ^ ((Nat.toDigits 10 m).length - 1) ≤ m := by
  rcases Nat.eq_zero_or_pos ((Nat.toDigits 10 m).length - 1) with h | h
  · rw [h]
    exact hm
  · refine Nat.le_of_not_lt fun hlt => ?_
    have := (Nat.length_toDigits_le_iff (by decide) h).mpr hlt
    omega

theorem lt_pow_length_toDigits (m : Nat) : m < 10 ^ (Nat.toDigits 10 m).length :=
  (Nat.length_toDigits_le_iff (by decide) Nat.length_toDigits_pos).mp (Nat.le_refl _)

theorem scaled_floorLog10 {n d : Nat} (hn : 0 < n) (hd : 0 < d) :
    (scaled n d (floorLog10 n d)).2 ≤ (scaled n d (floorLog10 n d)).1 := by
  unfold floorLog10
  by_cases hle : d ≤ n
  · have hpos := Nat.div_pos hle hd
    have hlen : 0 < (Nat.toDigits 10 (n / d)).length := Nat.length_toDigits_pos
    rw [if_pos hle, scaled, if_pos (by omega)]
    have hcast : (((Nat.toDigits 10 (n / d)).length : Int) - 1).toNat =
        (Nat.toDigits 10 (n / d)).length - 1 := by omega
    simp only [hcast]
    calc d * 10 ^ ((Nat.toDigits 10 (n / d)).length - 1) ≤ d * (n / d) :=
          Nat.mul_le_mul_left d (pow_length_toDigits_le hpos)
      _ ≤ n := Nat.mul_div_le n d
  · rw [if_neg hle]
    simp only
    generalize hw : (Nat.toDigits 10 (d / n)).length = width
    have hwidth : 0 < width := hw ▸ Nat.length_toDigits_pos
    split
    · next hreach =>
      rw [scaled]
      split
      · have hone : width = 1 := by omega
        subst hone
        simpa using hreach
      · have hcast : (-(-((width : Int) - 1))).toNat = width - 1 := by omega
        simpa only [hcast] using hreach
    · rw [scaled, if_neg (by omega)]
      have hcast : (-(-(width : Int))).toNat = width := by omega
      simp only [hcast]
      have hlt := hw ▸ lt_pow_length_toDigits (d / n)
      have hdiv : d < n * 10 ^ width := by
        rw [Nat.mul_comm]
        exact (Nat.div_lt_iff_lt_mul hn).mp hlt
      exact Nat.le_of_lt hdiv

theorem scaled_finer {n d : Nat} {e : Int} (h : (scaled n d e).2 ≤ (scaled n d e).1) (k : Nat) :
    10 ^ k * (scaled n d (e - k)).2 ≤ (scaled n d (e - k)).1 := by
  unfold scaled at *
  by_cases he : 0 ≤ e
  · obtain ⟨m, rfl⟩ := Int.eq_ofNat_of_zero_le he
    rw [if_pos he] at h
    simp only [Int.toNat_natCast] at h
    by_cases hk : k ≤ m
    · rw [if_pos (by omega)]
      have hcast : ((m : Int) - k).toNat = m - k := by omega
      simp only [hcast]
      calc 10 ^ k * (d * 10 ^ (m - k)) = d * 10 ^ m := by
            rw [Nat.mul_left_comm, ← Nat.pow_add, Nat.add_sub_cancel' hk]
        _ ≤ n := h
    · rw [if_neg (by omega)]
      have hcast : (-((m : Int) - k)).toNat = k - m := by omega
      simp only [hcast]
      calc 10 ^ k * d = d * 10 ^ m * 10 ^ (k - m) := by
            rw [Nat.mul_assoc, ← Nat.pow_add, Nat.add_sub_cancel' (by omega), Nat.mul_comm]
        _ ≤ n * 10 ^ (k - m) := Nat.mul_le_mul_right _ h
  · rw [if_neg he] at h
    rw [if_neg (by omega)]
    have hcast : (-(e - k)).toNat = (-e).toNat + k := by omega
    simp only [hcast]
    calc 10 ^ k * d ≤ 10 ^ k * (n * 10 ^ (-e).toNat) := Nat.mul_le_mul_left _ h
      _ = n * 10 ^ ((-e).toNat + k) := by
            rw [Nat.pow_add, Nat.mul_left_comm, Nat.mul_comm (10 ^ k)]

/-! ## Grids that are fine enough -/

/-- A step of the format as a quotient, in units of a grid. -/
def ulp (exponent e : Int) : Nat × Nat :=
  scaled (Binary64.finite false 1 exponent).size.1 (Binary64.finite false 1 exponent).size.2 e

theorem scaled_size (s : Nat) (exponent e : Int) :
    scaled (Binary64.finite false s exponent).size.1 (Binary64.finite false s exponent).size.2 e =
      (s * (ulp exponent e).1, (ulp exponent e).2) := by
  unfold ulp scaled Binary64.size
  by_cases hx : 0 ≤ exponent
  · by_cases he : 0 ≤ e
    · simp [hx, he]
    · simp [hx, he, Nat.mul_assoc]
  · by_cases he : 0 ≤ e
    · simp [hx, he]
    · simp [hx, he]

theorem ulp_pos (exponent e : Int) : 0 < (ulp exponent e).1 ∧ 0 < (ulp exponent e).2 := by
  have hten : ∀ k, 0 < 10 ^ k := fun k => Nat.pow_pos (by decide)
  have htwo : ∀ k, 0 < 2 ^ k := fun k => Nat.pow_pos (by decide)
  unfold ulp scaled Binary64.size
  by_cases hx : 0 ≤ exponent
  · by_cases he : 0 ≤ e
    · simp [hx, he, hten, htwo]
    · simp [hx, he, hten, htwo]
  · by_cases he : 0 ≤ e
    · simp [hx, he, hten, htwo]
    · simp [hx, he, hten, htwo]

/-- How near the neighbour below is: twice as near below a power of two. -/
def gap (significand : Nat) (exponent : Int) : Nat :=
  if significand = 2 ^ 52 ∧ -1074 < exponent then 1 else 2

/-- What is strictly inside is read back, and the middles are if the significand is even. -/
theorem readsBack_iff {s k : Nat} {exponent e : Int} : readsBack s exponent k e = true ↔
    let unit := (ulp exponent e).1
    let place := 4 * k * (ulp exponent e).2
    if s % 2 = 0 then (4 * s - gap s exponent) * unit ≤ place ∧ place ≤ (4 * s + 2) * unit
    else (4 * s - gap s exponent) * unit < place ∧ place < (4 * s + 2) * unit := by
  unfold readsBack ulp scaled Binary64.size gap
  by_cases hx : 0 ≤ exponent
  · by_cases he : 0 ≤ e
    · by_cases hs : s % 2 = 0 <;> simp [hx, he, hs]
    · by_cases hs : s % 2 = 0 <;> simp [hx, he, hs, Nat.mul_comm]
  · by_cases he : 0 ≤ e
    · by_cases hs : s % 2 = 0 <;> simp [hx, he, hs, Nat.mul_assoc, Nat.mul_comm, Nat.mul_left_comm]
    · by_cases hs : s % 2 = 0 <;> simp [hx, he, hs, Nat.mul_comm, Nat.mul_left_comm]

theorem pos_of_readsBack {s k : Nat} {exponent e : Int} (hs : 0 < s)
    (h : readsBack s exponent k e = true) : 0 < k := by
  refine Nat.pos_of_ne_zero fun hk => ?_
  subst hk
  have hunit := (ulp_pos exponent e).1
  have hlow : 0 < (4 * s - gap s exponent) * (ulp exponent e).1 := by
    refine Nat.mul_pos ?_ hunit
    unfold gap
    split <;> omega
  have hiff := readsBack_iff.mp h
  simp only [Nat.mul_zero, Nat.zero_mul] at hiff
  split at hiff <;> omega

theorem div_le_roundDiv {n d : Nat} (hd : 0 < d) : n / d ≤ roundDiv n d := by
  unfold roundDiv
  simp only
  split
  · exact Nat.le_refl _
  · split
    · exact Nat.le_add_right _ _
    · rw [if_neg (Nat.ne_of_gt hd)]
      exact Nat.le_succ _

theorem pos_of_onGrid? {s k : Nat} {exponent e : Int} (hs : 0 < s)
    (h : onGrid? s exponent e = some k) : 0 < k := by
  unfold onGrid? at h
  simp only [scaled_size] at h
  split at h
  · next hbelow _ =>
    cases h
    exact Nat.lt_of_lt_of_le (pos_of_readsBack hs hbelow) (div_le_roundDiv (ulp_pos exponent e).2)
  · next hbelow _ =>
    cases h
    exact pos_of_readsBack hs hbelow
  · cases h
    exact Nat.succ_pos _
  · cases h

/-- **On a grid of seventeen digits one of the two neighbours is read back.** -/
theorem onGrid?_ne_none {s : Nat} {exponent e : Int} (hs : s < 2 ^ 53)
    (hfine : 10 ^ 16 * (ulp exponent e).2 ≤ s * (ulp exponent e).1) :
    onGrid? s exponent e ≠ none := by
  obtain ⟨hunit, hplace⟩ := ulp_pos exponent e
  unfold onGrid?
  simp only [scaled_size]
  have hbelow := @readsBack_iff s (s * (ulp exponent e).1 / (ulp exponent e).2) exponent e
  have habove := @readsBack_iff s (s * (ulp exponent e).1 / (ulp exponent e).2 + 1) exponent e
  generalize (ulp exponent e).1 = unit at *
  generalize (ulp exponent e).2 = place at *
  have hmod := Nat.div_add_mod (s * unit) place
  have hlt := Nat.mod_lt (s * unit) hplace
  generalize s * unit / place = k at *
  -- all is linear in these products
  have hlow : (4 * s - gap s exponent) * unit = 4 * (s * unit) - gap s exponent * unit := by
    rw [Nat.sub_mul, Nat.mul_assoc]
  have hhigh : (4 * s + 2) * unit = 4 * (s * unit) + 2 * unit := by
    rw [Nat.add_mul, Nat.mul_assoc]
  have hk : 4 * k * place = 4 * (place * k) := by
    rw [Nat.mul_assoc, Nat.mul_comm k]
  have hk' : 4 * (k + 1) * place = 4 * (place * k) + 4 * place := by
    rw [Nat.mul_assoc, Nat.add_mul, Nat.mul_comm k]
    omega
  have hsize : s * unit ≤ (2 ^ 53 - 1) * unit := Nat.mul_le_mul_right unit (by omega)
  simp only [hlow, hhigh, hk, hk'] at hbelow habove
  suffices h : readsBack s exponent k e = true ∨ readsBack s exponent (k + 1) e = true by
    rcases h with h | h
    · rw [h]
      cases readsBack s exponent (k + 1) e <;> simp
    · rw [h]
      cases readsBack s exponent k e <;> simp
  rw [hbelow, habove]
  unfold gap
  by_cases hpower : s = 2 ^ 52 ∧ -1074 < exponent
  · rw [if_pos hpower]
    obtain ⟨rfl, -⟩ := hpower
    rw [if_pos (by decide), if_pos (by decide)]
    omega
  · rw [if_neg hpower]
    by_cases heven : s % 2 = 0
    · rw [if_pos heven, if_pos heven]
      omega
    · rw [if_neg heven, if_neg heven]
      omega

/-! ## The digits that are found -/

/-- Digits of a number that does not begin with a zero. -/
structure Proper (d : Digits) : Prop where
  ne_nil : d.digits ≠ []
  head : d.digits.head? ≠ some (CodePoint.ofChar '0')
  digit : ∀ c ∈ d.digits, c.isDigit = true

/-- The digits of a number above zero begin with another digit than zero; zeros at the end are
dropped. -/
theorem proper_ofNat {k : Nat} (hk : 0 < k) (e : Int) : (ofNat k e).Proper := by
  have hhead := Text.head?_ofNat hk
  cases hall : Text.ofNat k with
  | nil => exact absurd hall (Text.ofNat_ne_nil k)
  | cons c rest =>
    rw [hall] at hhead
    have hc : c ≠ CodePoint.ofChar '0' := fun h => hhead (h ▸ rfl)
    have hkept : (ofNat k e).digits =
        c :: (rest.reverse.dropWhile (· == CodePoint.ofChar '0')).reverse := by
      unfold ofNat
      simp only [hall, List.reverse_cons]
      rw [List.dropWhile_append]
      split
      · next hempty =>
        rw [List.isEmpty_iff.mp hempty]
        simp [hc]
      · simp
    refine ⟨?_, ?_, ?_⟩
    · rw [hkept]
      exact List.cons_ne_nil _ _
    · rw [hkept]
      exact fun h => hc (Option.some.inj h)
    · intro x hx
      refine Text.isDigit_of_mem_ofNat (n := k) ?_
      rw [hkept] at hx
      rw [hall]
      rcases List.mem_cons.mp hx with rfl | hx
      · exact List.mem_cons_self
      · have hmem := List.dropWhile_subset _ (List.mem_reverse.mp hx)
        exact List.mem_cons_of_mem c (List.mem_reverse.mp hmem)

theorem proper_search {s : Nat} {exponent : Int} (hs : 0 < s) : ∀ (finer : Nat) (e : Int),
    onGrid? s exponent (e - finer) ≠ none → (search s exponent finer e).Proper
  | 0, e, h => by
    obtain ⟨k, hk⟩ := Option.ne_none_iff_exists'.mp h
    rw [show e - ((0 : Nat) : Int) = e by omega] at hk
    rw [search, hk]
    exact proper_ofNat (pos_of_onGrid? hs hk) e
  | finer + 1, e, h => by
    rw [search]
    split
    · next k hk => exact proper_ofNat (pos_of_onGrid? hs hk) e
    · refine proper_search hs finer (e - 1) ?_
      rwa [show e - 1 - (finer : Int) = e - ((finer + 1 : Nat) : Int) by omega]

/-- **A number of the format has digits.** -/
theorem proper_shortest {s : Nat} {exponent : Int} (hpos : 0 < s) (hs : s < 2 ^ 53) :
    (shortest s exponent).Proper := by
  have hsize : 0 < (Binary64.finite false s exponent).size.1 ∧
      0 < (Binary64.finite false s exponent).size.2 := by
    have htwo : ∀ k, 0 < 2 ^ k := fun k => Nat.pow_pos (by decide)
    by_cases he : 0 ≤ exponent
    · simp [Binary64.size, he, hpos, htwo]
    · simp [Binary64.size, he, hpos, htwo]
  have hshortest : shortest s exponent = search s exponent 16
      (floorLog10 (Binary64.finite false s exponent).size.1
        (Binary64.finite false s exponent).size.2) := rfl
  have hfine := scaled_finer (scaled_floorLog10 hsize.1 hsize.2) 16
  simp only [scaled_size] at hfine
  rw [hshortest]
  exact proper_search hpos 16 _ (onGrid?_ne_none hs hfine)

end PackageAudit.Digits
