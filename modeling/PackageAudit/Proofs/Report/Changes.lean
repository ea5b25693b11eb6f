import PackageAudit.Proofs.Report.Metrics
import PackageAudit.Report.Basic

/-! # Changes between reports

A rule may have several verdicts in a report; the last of them is the one that counts (`Decides`). What
the changes say is told by these verdicts alone (`Changes.Tells`). `changesFrom_dual` adds what
comparing the other way round gives: the score changes by the opposite amount, and what is fixed one way
is a regression the other way, in the same order.
-/

namespace PackageAudit

/-- The verdict of verdicts that counts for its rule: none on the same rule comes later. -/
def Decides (vs : List Verdict) (v : Verdict) : Prop :=
  ∃ front back, vs = front ++ v :: back ∧ ∀ w ∈ back, w.ruleId ≠ v.ruleId

theorem Decides.mem {vs : List Verdict} {v : Verdict} (h : Decides vs v) : v ∈ vs := by
  obtain ⟨front, back, rfl, -⟩ := h
  simp

namespace Changes

section
variable {vs after before : List Verdict} {id : Text} {v w : Verdict}

theorem mem_rules : id ∈ rules vs ↔ ∃ v ∈ vs, v.ruleId = id := by
  rw [rules, Metrics.occurring_eq_eraseDups, List.mem_eraseDups, List.mem_map]

theorem nodup_rules (vs : List Verdict) : (rules vs).Nodup := by
  rw [rules, Metrics.occurring_eq_eraseDups]
  exact nodup_eraseDups _

/-! ## The verdict that counts -/

theorem last?_eq_some : last? vs id = some v ↔ v.ruleId = id ∧ Decides vs v := by
  unfold last?
  rw [List.find?_eq_some_iff_append, beq_iff_eq]
  refine and_congr_right fun hid => ⟨?_, ?_⟩
  · rintro ⟨later, earlier, hvs, hlater⟩
    refine ⟨earlier.reverse, later.reverse, ?_, fun w hw => ?_⟩
    · rw [← List.reverse_reverse vs, hvs]
      simp
    · simpa [hid] using hlater w (List.mem_reverse.mp hw)
  · rintro ⟨front, back, rfl, hback⟩
    exact ⟨back.reverse, front.reverse, by simp, fun w hw => by
      simpa [hid] using hback w (List.mem_reverse.mp hw)⟩

theorem last?_eq_none : last? vs id = none ↔ ∀ v ∈ vs, v.ruleId ≠ id := by
  simp [last?]

theorem exists_decides (h : id ∈ vs.map (·.ruleId)) : ∃ v, Decides vs v ∧ v.ruleId = id := by
  obtain ⟨w, hw, hid⟩ := List.mem_map.mp h
  cases hlast : last? vs id with
  | none => exact absurd hid (last?_eq_none.mp hlast w hw)
  | some v => exact ⟨v, (last?_eq_some.mp hlast).2, (last?_eq_some.mp hlast).1⟩

theorem decides_unique (hv : Decides vs v) (hw : Decides vs w) (hid : v.ruleId = w.ruleId) :
    v = w := by
  have hv' : last? vs v.ruleId = some v := last?_eq_some.mpr ⟨rfl, hv⟩
  have hw' : last? vs v.ruleId = some w := last?_eq_some.mpr ⟨hid.symm, hw⟩
  exact Option.some.inj (hv'.symm.trans hw')

theorem any_last?_iff {p : Verdict → Bool} :
    (last? vs id).any p = true ↔ ∃ v, Decides vs v ∧ v.ruleId = id ∧ p v = true := by
  rw [Option.any_eq_true]
  simp only [last?_eq_some]
  exact exists_congr fun v => ⟨fun ⟨⟨hid, hv⟩, hp⟩ => ⟨hv, hid, hp⟩, fun ⟨hv, hid, hp⟩ => ⟨⟨hid, hv⟩, hp⟩⟩

theorem mem_rules_of_any {p : Verdict → Bool} (h : (last? vs id).any p = true) : id ∈ rules vs := by
  obtain ⟨v, hv, hid, -⟩ := any_last?_iff.mp h
  exact mem_rules.mpr ⟨v, hv.mem, hid⟩

theorem violated_of_passes (h : passes vs id = true) : violated vs id = false := by
  obtain ⟨v, hv, hid, hpass⟩ := any_last?_iff.mp h
  rw [← Bool.not_eq_true]
  intro hviolated
  obtain ⟨w, hw, hid', hviolation⟩ := any_last?_iff.mp hviolated
  obtain rfl := decides_unique hv hw (hid.trans hid'.symm)
  rw [beq_iff_eq] at hpass
  simp [Verdict.isViolation, hpass] at hviolation

end

/-! ## What changes say -/

/-- The verdict that counts for a rule is a violation. -/
def Violated (vs : List Verdict) (id : Text) : Prop :=
  ∃ v, Decides vs v ∧ v.ruleId = id ∧ (v.status = .fail ∨ v.status = .error)

/-- The verdict that counts for a rule is a pass. -/
def Passed (vs : List Verdict) (id : Text) : Prop :=
  ∃ v, Decides vs v ∧ v.ruleId = id ∧ v.status = .pass

/-- The changes tell the rules that are newly violated, and those of them that had passed, from the
rules that are no longer violated. -/
structure Tells (after before : List Verdict) (c : Changes) : Prop where
  mem_new : ∀ id, id ∈ c.newViolations ↔ Violated after id ∧ ¬ Violated before id
  mem_fixed : ∀ id, id ∈ c.fixedViolations ↔ Violated before id ∧ Passed after id
  mem_regressions : ∀ id, id ∈ c.regressions ↔ Violated after id ∧ Passed before id
  nodup_new : c.newViolations.Nodup
  nodup_fixed : c.fixedViolations.Nodup
  nodup_regressions : c.regressions.Nodup
  regressions_sublist : c.regressions.Sublist c.newViolations
  disjoint : c.newViolations.Disjoint c.fixedViolations
  /-- A rule that is violated is new, or was violated and still is. -/
  violated : ∀ id, Violated after id ↔
    id ∈ c.newViolations ∨ Violated before id ∧ Violated after id
  /-- A rule that was violated still is, or is fixed, or has no verdict, or one that is neither. -/
  wasViolated : ∀ id, Violated before id → Violated after id ∨ id ∈ c.fixedViolations ∨
    (∀ v ∈ after, v.ruleId ≠ id) ∨
    ∃ v, Decides after v ∧ v.ruleId = id ∧ (v.status = .warning ∨ v.status = .partly)

section
variable {vs after before : List Verdict} {id : Text} {x y : Int}

theorem violated_iff : violated vs id = true ↔ Violated vs id := by
  rw [violated, any_last?_iff]
  simp only [Violated, Verdict.isViolation, Bool.or_eq_true, beq_iff_eq]

theorem passes_iff : passes vs id = true ↔ Passed vs id := by
  rw [passes, any_last?_iff]
  simp only [Passed, beq_iff_eq]

theorem mem_newViolations : id ∈ (between after before x y).newViolations ↔
    Violated after id ∧ ¬ Violated before id := by
  simp only [between, List.mem_filter, Bool.and_eq_true, Bool.not_eq_true', ← Bool.not_eq_true,
    violated_iff]
  refine and_iff_right_of_imp fun ⟨h, _⟩ => ?_
  exact mem_rules_of_any (violated_iff.mpr h)

theorem mem_fixedViolations : id ∈ (between after before x y).fixedViolations ↔
    Violated before id ∧ Passed after id := by
  simp only [between, List.mem_filter, Bool.and_eq_true, violated_iff, passes_iff]
  refine and_iff_right_of_imp fun ⟨h, _⟩ => ?_
  exact mem_rules_of_any (violated_iff.mpr h)

theorem Passed.not_violated (h : Passed vs id) : ¬ Violated vs id := by
  rw [← violated_iff, Bool.not_eq_true]
  exact violated_of_passes (passes_iff.mpr h)

/-- **What is fixed one way is a regression the other way**, in the same order. -/
theorem fixedViolations_eq (after before : List Verdict) (x y : Int) :
    (between after before x y).fixedViolations = (between before after y x).regressions := by
  simp only [between, List.filter_filter]
  refine List.filter_congr fun id _ => ?_
  cases hp : passes after id with
  | false => simp
  | true => simp [violated_of_passes hp]

theorem tells_between (after before : List Verdict) (x y : Int) :
    Tells after before (between after before x y) where
  mem_new _ := mem_newViolations
  mem_fixed _ := mem_fixedViolations
  mem_regressions id := by
    rw [← fixedViolations_eq, mem_fixedViolations]
  nodup_new := (nodup_rules after).filter _
  nodup_fixed := (nodup_rules before).filter _
  nodup_regressions := ((nodup_rules after).filter _).filter _
  regressions_sublist := List.filter_sublist
  disjoint id hnew hfixed :=
    (mem_newViolations.mp hnew).2 (mem_fixedViolations.mp hfixed).1
  violated id := by
    rw [mem_newViolations]
    by_cases h : Violated before id <;> simp [h]
  wasViolated id h := by
    rw [mem_fixedViolations]
    cases hlast : last? after id with
    | none => exact .inr (.inr (.inl (last?_eq_none.mp hlast)))
    | some v =>
      obtain ⟨hid, hv⟩ := last?_eq_some.mp hlast
      cases hs : v.status with
      | pass => exact .inr (.inl ⟨h, v, hv, hid, hs⟩)
      | fail => exact .inl ⟨v, hv, hid, .inl hs⟩
      | warning => exact .inr (.inr (.inr ⟨v, hv, hid, .inl hs⟩))
      | partly => exact .inr (.inr (.inr ⟨v, hv, hid, .inr hs⟩))
      | error => exact .inl ⟨v, hv, hid, .inr hs⟩

theorem between_self (vs : List Verdict) (x : Int) : between vs vs x x = ⟨0, [], [], []⟩ := by
  have hnew : (between vs vs x x).newViolations = [] :=
    List.eq_nil_iff_forall_not_mem.mpr fun id h =>
      (mem_newViolations.mp h).2 (mem_newViolations.mp h).1
  have hfixed : (between vs vs x x).fixedViolations = [] :=
    List.eq_nil_iff_forall_not_mem.mpr fun id h =>
      (mem_fixedViolations.mp h).2.not_violated (mem_fixedViolations.mp h).1
  have hregressions : (between vs vs x x).regressions = [] :=
    (fixedViolations_eq vs vs x x).symm.trans hfixed
  have hscore : (between vs vs x x).scoreChange = 0 := Int.sub_self x
  cases hc : between vs vs x x with
  | mk score new fixed regressions =>
    rw [hc] at hnew hfixed hregressions hscore
    simp_all

end

end Changes

/-- **Comparing reports tells what has changed, and is dual**: a report does not differ from itself, and
compared the other way round the score changes by the opposite amount and what was fixed has become a
regression. -/
theorem Report.changesFrom_dual (a b : Report) :
    a.changesFrom a = ⟨0, [], [], []⟩ ∧
    (a.changesFrom b).scoreChange = (a.score : Int) - b.score ∧
    (a.changesFrom b).scoreChange = -(b.changesFrom a).scoreChange ∧
    (a.changesFrom b).fixedViolations = (b.changesFrom a).regressions ∧
    Changes.Tells a.verdicts b.verdicts (a.changesFrom b) :=
  ⟨Changes.between_self _ _, rfl, (Int.neg_sub _ _).symm, Changes.fixedViolations_eq _ _ _ _,
    Changes.tells_between _ _ _ _⟩

end PackageAudit
