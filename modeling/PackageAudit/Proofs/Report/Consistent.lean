import PackageAudit.Proofs.Report.Metrics
import PackageAudit.Proofs.Report.Score
import PackageAudit.Report.Basic

/-! # Reports that do not contradict themselves

Score, status, violations and counts of a report are computed apart from each other, all of them from
the verdicts. `Report.Consistent` is what they have to do with each other, and `consistent_build` says
that the report of any verdicts is consistent, and that the order of the verdicts does not matter.
-/

namespace PackageAudit

namespace Report

/-- The score, the status, the violations and the counts of a report agree on its verdicts. -/
structure Consistent (r : Report) : Prop where
  perfect : r.score = 100 ↔ r.status = .pass
  passing : r.status = .pass ↔ ∀ v ∈ r.verdicts, v.status = .pass
  violated : (r.status = .fail ∨ r.status = .error) ↔ r.violations ≠ []
  penalized : r.violations ≠ [] → r.score ≤ 95
  fixable_sublist : r.fixableViolations.Sublist r.violations
  fixable : r.metrics.fixable = r.fixableViolations.length
  total : r.metrics.total = r.verdicts.length
  statuses : r.metrics.total = r.metrics.passed + r.metrics.failed + r.metrics.warnings +
    r.metrics.partials + r.metrics.errors
  violations : r.metrics.failed + r.metrics.errors = r.violations.length
  passed : r.metrics.passed = r.verdicts.countP (·.status == .pass)
  failed : r.metrics.failed = r.verdicts.countP (·.status == .fail)
  warnings : r.metrics.warnings = r.verdicts.countP (·.status == .warning)
  partials : r.metrics.partials = r.verdicts.countP (·.status == .partly)
  errors : r.metrics.errors = r.verdicts.countP (·.status == .error)
  severities : Metrics.CountsBy (fun v => some v.severity) id r.metrics.bySeverity r.verdicts
  severities_sum :
    (r.metrics.bySeverity.map fun x => x.2.passed + x.2.failed).sum = r.metrics.total
  categories : Metrics.CountsBy (·.category) FullTally.toTally r.metrics.byCategory r.verdicts
  categories_total : ∀ x ∈ r.metrics.byCategory, x.2.total = x.2.passed + x.2.failed
  categories_sum : (r.metrics.byCategory.map (·.2.total)).sum =
    r.verdicts.countP fun v => v.category.isSome

theorem violations_ne_nil (r : Report) :
    r.violations ≠ [] ↔ ∃ v ∈ r.verdicts, v.isViolation = true := by
  rw [violations, Ne, List.filter_eq_nil_iff, Classical.not_forall]
  simp

theorem fixableViolations_sublist (r : Report) : r.fixableViolations.Sublist r.violations := by
  refine List.monotone_filter_right r.verdicts fun v hv => ?_
  simp only [Verdict.isFixable, Verdict.isViolation, Bool.and_eq_true, Bool.or_eq_true] at hv ⊢
  exact .inl hv.2

/-- **Reports do not contradict themselves**, whatever the verdicts, and the order of the verdicts
matters neither for the score nor for the status nor for the counts. -/
theorem consistent_build (p : Package) (vs : List Verdict) (included excluded : List Text)
    (time : Int) :
    (build p vs included excluded time).Consistent ∧
    ∀ ws, vs.Perm ws →
      (build p ws included excluded time).score = (build p vs included excluded time).score ∧
      (build p ws included excluded time).status = (build p vs included excluded time).status ∧
      Metrics.Same (build p vs included excluded time).metrics
        (build p ws included excluded time).metrics := by
  refine ⟨?_, fun ws h => ⟨(Score.ofVerdicts_perm h).symm, (Status.ofVerdicts_perm h).symm,
    Metrics.same_ofVerdicts h⟩⟩
  have hviolated := violations_ne_nil (build p vs included excluded time)
  have hseverities : Metrics.CountsBy (fun v => some v.severity) id
      (Metrics.ofVerdicts vs).bySeverity vs := Metrics.countsBy_breakdown Tally.foldl_add vs
  have htally : ∀ ws : List Verdict,
      (ws.foldl FullTally.add FullTally.zero).toTally = Tally.of ws :=
    fun ws => congrArg FullTally.toTally (FullTally.foldl_add ws)
  have hcategories : Metrics.CountsBy (·.category) FullTally.toTally
      (Metrics.ofVerdicts vs).byCategory vs := Metrics.countsBy_breakdown htally vs
  have htotals : ∀ x ∈ (Metrics.ofVerdicts vs).byCategory, x.2.total = x.2.passed + x.2.failed :=
    fun _ => Metrics.total_of_mem_byCategory
  exact {
    perfect := Score.ofVerdicts_eq_hundred.trans Status.ofVerdicts_eq_pass.symm
    passing := Status.ofVerdicts_eq_pass
    violated := Status.ofVerdicts_violated.trans hviolated.symm
    penalized := fun h => by
      obtain ⟨v, hv, hviolation⟩ := hviolated.mp h
      exact Score.ofVerdicts_of_violation hv hviolation
    fixable_sublist := fixableViolations_sublist _
    fixable := List.countP_eq_length_filter
    total := rfl
    statuses := Metrics.length_eq_having vs
    violations := Metrics.length_violations vs
    passed := rfl
    failed := rfl
    warnings := rfl
    partials := rfl
    errors := rfl
    severities := hseverities
    severities_sum := hseverities.sum.trans (congrFun List.countP_true vs)
    categories := hcategories
    categories_total := htotals
    categories_sum := (congrArg List.sum (List.map_congr_left htotals)).trans hcategories.sum }

/-! ### Half a penalty -/

namespace Half

def package : Package := ⟨[], [], [], .utility, [], [], [], [], 0⟩

def verdict (status : Status) (category : Option Category) : Verdict :=
  ⟨"RULE", "Rule", status, .warning, category, "It was looked at", none, none, [], false, []⟩

def verdicts : List Verdict := [verdict .pass (some .testing), verdict .partly none]

end Half

/-- Two and a half points are lost, and what is left is rounded to 98, in either order. -/
theorem consistent_build_half :
    (build Half.package Half.verdicts [] [] 0).Consistent ∧
      (build Half.package Half.verdicts.reverse [] [] 0).score = 98 ∧
      (build Half.package Half.verdicts.reverse [] [] 0).status = .partly ∧
      Metrics.Same (build Half.package Half.verdicts [] [] 0).metrics
        (build Half.package Half.verdicts.reverse [] [] 0).metrics := by
  obtain ⟨hconsistent, hperm⟩ := consistent_build Half.package Half.verdicts [] [] 0
  exact ⟨hconsistent, hperm _ (List.reverse_perm _).symm⟩

end Report

end PackageAudit
