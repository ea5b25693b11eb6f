import PackageAudit.Report.Score

/-! # Scores and statuses

Leaving verdicts out never costs points (`Score.ofVerdicts_sublist`) and never makes the status worse
(`Status.ofVerdicts_sublist`), whichever are left out, and the order of the verdicts does not matter
for either. The least penalty is large enough that rounding does not hide it, so only verdicts that
have all passed score a hundred (`Score.ofVerdicts_eq_hundred`).
-/

namespace PackageAudit

namespace Score

theorem penaltyHalves_sublist {vs ws : List Verdict} (h : vs.Sublist ws) :
    penaltyHalves vs ≤ penaltyHalves ws := by
  induction h with
  | slnil => exact Nat.le_refl _
  | cons w _ ih => exact Nat.le_trans ih (Nat.le_add_left _ _)
  | cons_cons w _ ih => exact Nat.add_le_add_left ih _

/-- **Fewer verdicts do not score lower**: rounding and the bound at zero keep the order. -/
theorem ofVerdicts_sublist {vs ws : List Verdict} (h : vs.Sublist ws) :
    ofVerdicts ws ≤ ofVerdicts vs :=
  roundDiv_mono (Nat.sub_le_sub_left (penaltyHalves_sublist h) 200) 2

theorem penaltyHalves_perm {vs ws : List Verdict} (h : vs.Perm ws) :
    penaltyHalves vs = penaltyHalves ws := by
  induction h with
  | nil => rfl
  | cons v _ ih => exact congrArg (v.severity.penalty * v.status.halfWeight + ·) ih
  | swap v w _ => exact Nat.add_left_comm _ _ _
  | trans _ _ ih ih' => exact ih.trans ih'

theorem ofVerdicts_perm {vs ws : List Verdict} (h : vs.Perm ws) : ofVerdicts vs = ofVerdicts ws := by
  unfold ofVerdicts
  rw [penaltyHalves_perm h]

theorem le_penaltyHalves {vs : List Verdict} {v : Verdict} (h : v ∈ vs) :
    v.severity.penalty * v.status.halfWeight ≤ penaltyHalves vs :=
  penaltyHalves_sublist (List.singleton_sublist.mpr h)

theorem five_le_penalty (s : Severity) : 5 ≤ s.penalty := by
  cases s <;> decide

theorem penaltyHalves_of_passed {vs : List Verdict} (h : ∀ v ∈ vs, v.status = .pass) :
    penaltyHalves vs = 0 := by
  induction vs with
  | nil => rfl
  | cons v vs ih =>
    obtain ⟨hv, hvs⟩ := List.forall_mem_cons.mp h
    simp [penaltyHalves, hv, Status.halfWeight, ih hvs]

/-- **A hundred points are for verdicts that have all passed**: whatever else costs at least two and a
half points. -/
theorem ofVerdicts_eq_hundred {vs : List Verdict} :
    ofVerdicts vs = 100 ↔ ∀ v ∈ vs, v.status = .pass := by
  constructor
  · intro hscore v hv
    apply Classical.byContradiction
    intro hnot
    have hweight : 1 ≤ v.status.halfWeight := by
      cases hs : v.status <;> simp_all +decide
    have hcost : 5 * 1 ≤ penaltyHalves vs :=
      Nat.le_trans (Nat.mul_le_mul (five_le_penalty v.severity) hweight) (le_penaltyHalves hv)
    -- of 97.5 points, the most that are left then, the even neighbour is 98
    have hbound : ofVerdicts vs ≤ roundDiv 195 2 :=
      roundDiv_mono (Nat.sub_le_sub_left hcost 200) 2
    rw [hscore] at hbound
    exact absurd hbound (by decide)
  · intro h
    unfold ofVerdicts
    rw [penaltyHalves_of_passed h]
    rfl

/-- A violation costs at least five points. -/
theorem ofVerdicts_of_violation {vs : List Verdict} {v : Verdict} (hv : v ∈ vs)
    (h : v.isViolation = true) : ofVerdicts vs ≤ 95 := by
  have hweight : v.status.halfWeight = 2 := by
    unfold Verdict.isViolation at h
    cases hs : v.status <;> simp_all +decide
  have hcost : 5 * 2 ≤ penaltyHalves vs :=
    Nat.le_trans (Nat.mul_le_mul (five_le_penalty v.severity) (Nat.le_of_eq hweight.symm))
      (le_penaltyHalves hv)
  exact roundDiv_mono (Nat.sub_le_sub_left hcost 200) 2

end Score

/-- If the greater of two is picked each time, what is left is the greatest. -/
theorem measure_foldl_le {α : Type} {measure : α → Nat} {pick : α → α → α}
    (h : ∀ a b, measure (pick a b) = max (measure a) (measure b)) {n : Nat} :
    ∀ {xs : List α} {a : α},
      measure (xs.foldl pick a) ≤ n ↔ measure a ≤ n ∧ ∀ x ∈ xs, measure x ≤ n
  | [], a => by simp
  | x :: xs, a => by
    rw [List.foldl_cons, measure_foldl_le h, h, Nat.max_le, List.forall_mem_cons, and_assoc]

namespace Status

/-- The status of verdicts is as bad as the worst of them. -/
theorem rank_ofVerdicts_le {vs : List Verdict} {n : Nat} :
    (ofVerdicts vs).rank ≤ n ↔ ∀ v ∈ vs, v.status.rank ≤ n := by
  unfold ofVerdicts
  rw [measure_foldl_le rank_worse, List.forall_mem_map]
  exact and_iff_right (Nat.zero_le n)

/-- **Fewer verdicts do not have a worse status.** -/
theorem ofVerdicts_sublist {vs ws : List Verdict} (h : vs.Sublist ws) :
    (ofVerdicts vs).rank ≤ (ofVerdicts ws).rank :=
  rank_ofVerdicts_le.mpr fun v hv => rank_ofVerdicts_le.mp (Nat.le_refl _) v (h.subset hv)

/-- No two statuses are equally bad. -/
theorem rank_injective {a b : Status} (h : a.rank = b.rank) : a = b := by
  cases a <;> cases b <;> first | rfl | cases h

theorem ofVerdicts_perm {vs ws : List Verdict} (h : vs.Perm ws) : ofVerdicts vs = ofVerdicts ws :=
  rank_injective <| Nat.le_antisymm
    (rank_ofVerdicts_le.mpr fun v hv => rank_ofVerdicts_le.mp (Nat.le_refl _) v (h.mem_iff.mp hv))
    (rank_ofVerdicts_le.mpr fun v hv => rank_ofVerdicts_le.mp (Nat.le_refl _) v (h.mem_iff.mpr hv))

theorem ofVerdicts_eq_pass {vs : List Verdict} :
    ofVerdicts vs = .pass ↔ ∀ v ∈ vs, v.status = .pass := by
  have hpass : ∀ {s : Status}, s.rank ≤ 0 ↔ s = .pass := by
    intro s
    cases s <;> decide
  rw [← hpass, rank_ofVerdicts_le]
  simp only [hpass]

/-- The verdicts fail, or end in an error, if one of them is a violation. -/
theorem ofVerdicts_violated {vs : List Verdict} :
    (ofVerdicts vs = .fail ∨ ofVerdicts vs = .error) ↔ ∃ v ∈ vs, v.isViolation = true := by
  have hviolated : ∀ {s : Status}, (s = .fail ∨ s = .error) ↔ ¬ s.rank ≤ 2 := by
    intro s
    cases s <;> decide
  have hviolation : ∀ v : Verdict, v.isViolation = true ↔ ¬ v.status.rank ≤ 2 := by
    intro v
    rw [← hviolated]
    simp [Verdict.isViolation]
  rw [hviolated, rank_ofVerdicts_le]
  simp only [hviolation, Classical.not_forall, exists_prop]

end Status

end PackageAudit
