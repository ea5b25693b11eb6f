import PackageAudit.Proofs.Report.Consistent
import Mathlib.Algebra.Order.Field.Basic
import Mathlib.Data.Rat.Cast.Order
import Mathlib.Tactic.Linarith
import Mathlib.Tactic.NormNum
import Mathlib.Tactic.Ring

/-! # Scores as exact sums

A score is counted in half points, cut off at zero. What it stands for is a rational number: a hundred
less the exact sum of what the verdicts cost (`lost`), rounded with a half going to the even neighbour
(`RoundsTo`) and kept between zero and a hundred. `ofVerdicts_exact` says so, and how scores change with
the verdicts: more or dearer verdicts never score higher, and two lists together lose hardly more than
each of them does.
-/

namespace PackageAudit

/-! ## Rounding to the even neighbour -/

/-- An integer is nearest to a number, and even if another one is as near. -/
structure RoundsTo (q : ℚ) (n : ℤ) : Prop where
  near : |q - n| ≤ 1 / 2
  even : |q - n| = 1 / 2 → n % 2 = 0

/-- A number rounds to one integer: of two, both would be even, and next to each other. -/
theorem RoundsTo.unique {q : ℚ} {m n : ℤ} (hm : RoundsTo q m) (hn : RoundsTo q n) : m = n := by
  obtain ⟨hm₁, hm₂⟩ := abs_le.mp hm.near
  obtain ⟨hn₁, hn₂⟩ := abs_le.mp hn.near
  have hup : m ≤ n + 1 := by exact_mod_cast (by linarith : (m : ℚ) ≤ n + 1)
  have hdown : n ≤ m + 1 := by exact_mod_cast (by linarith : (n : ℚ) ≤ m + 1)
  by_contra hne
  have hnext : m = n + 1 ∨ n = m + 1 := by omega
  rcases hnext with rfl | rfl
  · push_cast at hm₁ hm₂
    have heven := hn.even (abs_eq (by norm_num) |>.mpr (.inl (by linarith)))
    have heven' := hm.even (abs_eq (by norm_num) |>.mpr (.inr (by push_cast; linarith)))
    omega
  · push_cast at hn₁ hn₂
    have heven := hm.even (abs_eq (by norm_num) |>.mpr (.inl (by linarith)))
    have heven' := hn.even (abs_eq (by norm_num) |>.mpr (.inr (by push_cast; linarith)))
    omega

/-- A quotient that lies between two neighbours is rounded to the even one. -/
theorem roundDiv_tie {n d : Nat} (hd : 0 < d)
    (h : 2 * n = 2 * (d * roundDiv n d) + d ∨ 2 * n + d = 2 * (d * roundDiv n d)) :
    roundDiv n d % 2 = 0 := by
  have hwhole := Nat.div_add_mod n d
  have hsmall := Nat.mod_lt n hd
  have hup : d * (n / d + 1) = d * (n / d) + d := Nat.mul_succ d (n / d)
  rcases Nat.lt_trichotomy (2 * (n % d)) d with hlt | heq | hgt
  · have hdown : roundDiv n d = n / d := by simp [roundDiv, hlt]
    rw [hdown] at h
    omega
  · have heven : roundDiv n d = n / d + n / d % 2 := by simp [roundDiv, heq]
    rw [heven]
    omega
  · have hnext : roundDiv n d = n / d + 1 := by
      simp [roundDiv, Nat.not_lt.mpr (Nat.le_of_lt hgt), Nat.ne_of_gt hgt, Nat.ne_of_gt hd]
    rw [hnext] at h
    omega

/-- **Dividing natural numbers rounds to the even neighbour.** -/
theorem roundsTo_roundDiv {n d : Nat} (hd : 0 < d) : RoundsTo ((n : ℚ) / d) (roundDiv n d) := by
  have hd' : (0 : ℚ) < d := by exact_mod_cast hd
  have hdist : |(n : ℚ) / d - (roundDiv n d : ℤ)| = |(n : ℚ) - d * roundDiv n d| / d := by
    rw [Int.cast_natCast, div_sub' (ne_of_gt hd'), abs_div, abs_of_pos hd']
  obtain ⟨hlow, hhigh⟩ := roundDiv_near (n := n) hd
  have hlow' : (2 : ℚ) * n ≤ 2 * (d * roundDiv n d) + d := by exact_mod_cast hlow
  have hhigh' : (2 : ℚ) * (d * roundDiv n d) ≤ 2 * n + d := by exact_mod_cast hhigh
  refine ⟨?_, fun htie => ?_⟩
  · rw [hdist, div_le_iff₀ hd', abs_le]
    constructor <;> linarith
  · rw [hdist, div_eq_iff (ne_of_gt hd'), abs_eq (by positivity)] at htie
    have heven : roundDiv n d % 2 = 0 := by
      apply roundDiv_tie hd
      rcases htie with htie | htie
      · left
        exact_mod_cast (by linarith : (2 : ℚ) * n = 2 * (d * roundDiv n d) + d)
      · right
        exact_mod_cast (by linarith : (2 : ℚ) * n + d = 2 * (d * roundDiv n d))
    exact_mod_cast heven

/-- The neighbour of half an integer. -/
def ofHalves (z : ℤ) : ℤ := z / 2 + z % 2 * (z / 2 % 2)

theorem eq_ofHalves_iff {z n : ℤ} : n = ofHalves z ↔
    (-1 ≤ z - 2 * n ∧ z - 2 * n ≤ 1) ∧ (z - 2 * n = 1 ∨ z - 2 * n = -1 → n % 2 = 0) := by
  unfold ofHalves
  -- of an odd `z` one neighbour is even, and the quotient tells which
  rcases Int.emod_two_eq_zero_or_one z with hz | hz
  · rw [hz]
    omega
  · rcases Int.emod_two_eq_zero_or_one (z / 2) with hq | hq <;> rw [hz, hq] <;> omega

theorem ofHalves_near (z : ℤ) : z - 1 ≤ 2 * ofHalves z ∧ 2 * ofHalves z ≤ z + 1 := by
  obtain ⟨hlow, hhigh⟩ := (eq_ofHalves_iff (z := z).mp rfl).1
  omega

theorem roundsTo_half {z n : ℤ} : RoundsTo ((z : ℚ) / 2) n ↔ n = ofHalves z := by
  have hhalf : |(z : ℚ) / 2 - n| = (|z - 2 * n| : ℤ) / 2 := by
    have hdiff : (z : ℚ) / 2 - n = ((z - 2 * n : ℤ) : ℚ) / 2 := by
      push_cast
      ring
    rw [hdiff, abs_div, Int.cast_abs, abs_two]
  have hnear : |(z : ℚ) / 2 - n| ≤ 1 / 2 ↔ -1 ≤ z - 2 * n ∧ z - 2 * n ≤ 1 := by
    rw [hhalf, div_le_div_iff_of_pos_right (by norm_num), ← abs_le]
    exact_mod_cast Iff.rfl
  have htie : |(z : ℚ) / 2 - n| = 1 / 2 ↔ z - 2 * n = 1 ∨ z - 2 * n = -1 := by
    rw [hhalf, div_left_inj' (by norm_num), ← abs_eq zero_le_one]
    exact_mod_cast Iff.rfl
  have hrounds : RoundsTo ((z : ℚ) / 2) n ↔
      (-1 ≤ z - 2 * n ∧ z - 2 * n ≤ 1) ∧ (z - 2 * n = 1 ∨ z - 2 * n = -1 → n % 2 = 0) := by
    rw [← hnear, ← htie]
    exact ⟨fun h => ⟨h.near, h.even⟩, fun h => ⟨h.1, h.2⟩⟩
  rw [hrounds, eq_ofHalves_iff]

theorem roundDiv_two (n : Nat) : (roundDiv n 2 : ℤ) = ofHalves n := by
  have hquotient : ((n / 2 : Nat) : ℤ) = (n : ℤ) / 2 := Int.natCast_ediv n 2
  unfold roundDiv ofHalves
  rcases Nat.mod_two_eq_zero_or_one n with hn | hn
  · have hz : (n : ℤ) % 2 = 0 := by omega
    simp [hn, hz]
  · have hz : (n : ℤ) % 2 = 1 := by omega
    simp [hn, hz]

/-- Half a number that was cut off at zero is half the number, kept between zero and a hundred. -/
theorem roundDiv_cut (n : Nat) :
    (roundDiv (200 - n) 2 : ℤ) = max 0 (min 100 (ofHalves (200 - n))) := by
  obtain ⟨hlow, hhigh⟩ := ofHalves_near (200 - n)
  rw [roundDiv_two]
  rcases Nat.le_total n 200 with hn | hn
  · rw [Int.ofNat_sub hn]
    push_cast
    omega
  · rw [Nat.sub_eq_zero_of_le hn]
    have hzero : ofHalves (0 : Nat) = 0 := by decide
    omega

namespace Score

/-! ## What verdicts cost -/

/-- The part of the penalty that a status costs. -/
def weight : Status → ℚ
  | .pass => 0
  | .partly => 1 / 2
  | .warning => 1 / 2
  | .fail => 1
  | .error => 1

/-- What the verdicts cost together. -/
def lost (vs : List Verdict) : ℚ := (vs.map fun v => (v.severity.penalty : ℚ) * weight v.status).sum

theorem weight_eq (s : Status) : weight s = (s.halfWeight : ℚ) / 2 := by
  cases s <;> norm_num [weight, Status.halfWeight]

theorem weight_le_iff {s s' : Status} : weight s ≤ weight s' ↔ s.halfWeight ≤ s'.halfWeight := by
  rw [weight_eq, weight_eq, div_le_div_iff_of_pos_right (by norm_num), Nat.cast_le]

theorem lost_eq (vs : List Verdict) : lost vs = (penaltyHalves vs : ℚ) / 2 := by
  induction vs with
  | nil => norm_num [lost, penaltyHalves]
  | cons v vs ih =>
    have hcons : lost (v :: vs) = (v.severity.penalty : ℚ) * weight v.status + lost vs := by
      simp [lost]
    rw [hcons, ih, weight_eq, penaltyHalves]
    push_cast
    ring

theorem penaltyHalves_append (vs ws : List Verdict) :
    penaltyHalves (vs ++ ws) = penaltyHalves vs + penaltyHalves ws := by
  induction vs with
  | nil => simp [penaltyHalves]
  | cons v vs ih => simp only [List.cons_append, penaltyHalves, ih, Nat.add_assoc]

/-! ## How scores change -/

/-- More lost points do not score higher. -/
theorem ofVerdicts_le {vs ws : List Verdict} (h : penaltyHalves vs ≤ penaltyHalves ws) :
    ofVerdicts ws ≤ ofVerdicts vs :=
  roundDiv_mono (Nat.sub_le_sub_left h 200) 2

/-- A dearer verdict in the place of another does not score higher. -/
theorem ofVerdicts_replace {front back : List Verdict} {v w : Verdict}
    (hp : v.severity.penalty ≤ w.severity.penalty) (hw : weight v.status ≤ weight w.status) :
    ofVerdicts (front ++ w :: back) ≤ ofVerdicts (front ++ v :: back) := by
  apply ofVerdicts_le
  simp only [penaltyHalves_append, penaltyHalves]
  have hcost := Nat.mul_le_mul hp (weight_le_iff.mp hw)
  omega

/-- Each of three roundings is off by half a point at most. -/
theorem ofVerdicts_append (vs ws : List Verdict) :
    ofVerdicts vs + ofVerdicts ws ≤ ofVerdicts (vs ++ ws) + 101 := by
  unfold ofVerdicts
  rw [penaltyHalves_append]
  have hvs := (roundDiv_near (n := 200 - penaltyHalves vs) Nat.two_pos).2
  have hws := (roundDiv_near (n := 200 - penaltyHalves ws) Nat.two_pos).2
  have hall := (roundDiv_near (n := 200 - (penaltyHalves vs + penaltyHalves ws)) Nat.two_pos).1
  omega

/-- **What a score is**: what is left of a hundred points when the exact sum of the costs is taken
away, rounded and kept in bounds. Putting a verdict in, or a dearer one in its place, never raises it,
and of two lists together hardly more is lost than of each. -/
theorem ofVerdicts_exact (vs : List Verdict) :
    (∃ r : ℤ, (∀ n, RoundsTo (100 - lost vs) n ↔ n = r) ∧
      (ofVerdicts vs : ℤ) = max 0 (min 100 r)) ∧
    (∀ front back v, vs = front ++ back → ofVerdicts (front ++ v :: back) ≤ ofVerdicts vs) ∧
    (∀ front back v w, vs = front ++ v :: back → v.severity.penalty ≤ w.severity.penalty →
      weight v.status ≤ weight w.status → ofVerdicts (front ++ w :: back) ≤ ofVerdicts vs) ∧
    ∀ ws, (ofVerdicts vs : ℤ) + ofVerdicts ws - 101 ≤ ofVerdicts (vs ++ ws) := by
  refine ⟨⟨ofHalves (200 - penaltyHalves vs), fun n => ?_, roundDiv_cut _⟩, ?_, ?_, fun ws => ?_⟩
  · have hleft : 100 - lost vs = ((200 - penaltyHalves vs : ℤ) : ℚ) / 2 := by
      rw [lost_eq]
      push_cast
      ring
    rw [hleft, roundsTo_half]
  · rintro front back v rfl
    exact ofVerdicts_sublist ((List.sublist_cons_self v back).append_left front)
  · rintro front back v w rfl hp hw
    exact ofVerdicts_replace hp hw
  · have := ofVerdicts_append vs ws
    omega

end Score

open Report.Half in
/-- Two and a half points are lost and five more, so what is left ends in a half: of 97.5 points the
even neighbour is 98, of 92.5 it is 92. -/
theorem Score.ofVerdicts_exact_half :
    verdicts = [verdict .pass (some .testing)] ++ verdict .partly none :: [] ∧
      weight (.partly) ≤ weight .fail ∧
      ofVerdicts ([verdict .pass (some .testing)] ++ verdict .fail none :: []) ≤ ofVerdicts verdicts ∧
      ofVerdicts verdicts = 98 ∧ ofVerdicts (verdicts ++ [verdict .fail none]) = 92 ∧
      (98 : ℤ) + 95 - 101 ≤ ofVerdicts (verdicts ++ [verdict .fail none]) := by
  have h := ofVerdicts_exact verdicts
  have hweight : weight .partly ≤ weight .fail := by norm_num [weight]
  exact ⟨rfl, hweight, h.2.2.1 _ _ _ _ rfl (by decide) hweight, by decide, by decide,
    h.2.2.2 [verdict .fail none]⟩

end PackageAudit
