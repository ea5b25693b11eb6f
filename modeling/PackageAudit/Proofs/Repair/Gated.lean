import PackageAudit.Proofs.Repair.Isolated
import PackageAudit.Rule.Builtin

/-! # Violations that are skipped

A violation that is skipped, for whatever reason, might as well not be in the list: neither the tree
nor the count of the files that are written has changed. So a run over the others (`unskipped`) does
what the run over all of them does (`repairAll_unskipped`). `Admitted` is what a violation needs in
order not to be skipped.
-/

namespace PackageAudit

namespace Repair

/-- The violations that are not skipped, given the outcomes of all. -/
def unskipped (vs : List Verdict) (outs : List RepairOutcome) : List Verdict :=
  ((vs.zip outs).filter (·.2.status != .skipped)).map (·.1)

/-- A violation may be repaired: it fails a rule and can be repaired, the filters let it pass, there is
a remedy, and a repair of high risk is wanted and, where somebody is asked, confirmed. -/
structure Admitted (cat : Catalog) (remedies : Remedies) (o : RepairOptions) (t : Tree)
    (v : Verdict) : Prop where
  fails : v.status = .fail
  repairable : v.canAutoFix = true
  included : o.included = [] ∨ v.ruleId ∈ o.included
  not_excluded : v.ruleId ∉ o.excluded
  remedied : ∃ remedy, remedies.find? v.ruleId = some remedy
  risked : cat.risk v.ruleId = .high →
    o.aggressive = true ∧ ∀ confirms, o.confirms = some confirms → confirms t v = true

section
variable {p : Plan} {s s' : Progress} {v : Verdict} {vs : List Verdict} {out : RepairOutcome}
  {outs : List RepairOutcome} {t : Tree} {risk : Risk}

/-! ## What holds a violation back -/

theorem ite_some_eq_none {c : Prop} [Decidable c] {reason : Text} {r : Option Text} :
    (if c then some reason else r) = none ↔ ¬ c ∧ r = none := by
  split <;> simp [*]

theorem gate_eq_none : gate p t risk v = none ↔
    (v.status = .fail ∧ v.canAutoFix = true) ∧
      (p.options.included = [] ∨ v.ruleId ∈ p.options.included) ∧
      v.ruleId ∉ p.options.excluded ∧ (risk = .high → p.options.aggressive = true) ∧
      (risk = .high → ∀ confirms, p.options.confirms = some confirms → confirms t v = true) := by
  have hconfirmed : (p.options.confirms.map fun c => c t v) ≠ some false ↔
      ∀ confirms, p.options.confirms = some confirms → confirms t v = true := by
    cases p.options.confirms <;> simp
  have hfiltered : ¬ (!p.options.included.isEmpty && !p.options.included.contains v.ruleId) = true ↔
      p.options.included = [] ∨ v.ruleId ∈ p.options.included := by
    rw [← Bool.not_or, Bool.not_eq_true, Bool.not_eq_false', Bool.or_eq_true, List.isEmpty_iff,
      List.contains_iff_mem]
  simp only [gate, ite_some_eq_none, hfiltered, not_or, not_and, Decidable.not_not,
    Bool.not_eq_false, List.contains_iff_mem, hconfirmed, and_true]

theorem Asks.admitted {remedy : Remedy} (h : Asks p s v remedy) :
    Admitted p.catalog p.remedies p.options s.bench.tree v := by
  obtain ⟨⟨hfails, hrepairable⟩, hincluded, hexcluded, haggressive, hconfirmed⟩ :=
    gate_eq_none.mp h.gate
  exact ⟨hfails, hrepairable, hincluded, hexcluded, ⟨remedy, h.remedy⟩,
    fun hrisk => ⟨haggressive hrisk, hconfirmed hrisk⟩⟩

theorem admitted_of_repairOne (hone : repairOne p s v = (s', .ok out))
    (hout : out.status ≠ .skipped) :
    Admitted p.catalog p.remedies p.options s.bench.tree v := by
  have hasks : ∃ remedy, Asks p s v remedy := by
    cases step_iff.mpr hone with
    | held h => exact absurd rfl hout
    | unanswered hgate h => exact absurd rfl hout
    | gaveUp hraises => exact hraises.imp fun _ h => h.1
    | overLimit hplans hl => exact absurd rfl hout
    | foretold hplans hl hd => exact hplans.imp fun _ h => h.1
    | done hplans hl hd hall => exact hplans.imp fun _ h => h.1
    | refused hplans hl hd hall => exact hplans.imp fun _ h => h.1
  obtain ⟨remedy, h⟩ := hasks
  exact h.admitted

/-! ## Leaving out what is skipped -/

theorem unskipped_cons_of_skipped (h : out.status = .skipped) :
    unskipped (v :: vs) (out :: outs) = unskipped vs outs := by
  simp [unskipped, h]

theorem unskipped_cons_of_not_skipped (h : out.status ≠ .skipped) :
    unskipped (v :: vs) (out :: outs) = v :: unskipped vs outs := by
  simp [unskipped, h]

/-- **A run does the same without the violations that it skips.** -/
theorem repairAll_unskipped (h : repairAll p s vs = (s', .ok outs)) :
    repairAll p s (unskipped vs outs) = (s', .ok (outs.filter (·.status != .skipped))) := by
  induction vs generalizing s outs with
  | nil =>
    cases h
    rfl
  | cons v vs ih =>
    obtain ⟨s₁, out, rest, hone, hrest, rfl⟩ := repairAll_cons_eq_ok.mp h
    by_cases hout : out.status = .skipped
    · rw [unskipped_cons_of_skipped hout, List.filter_cons_of_neg (by simp [hout])]
      -- the others start where this one did, with the same tree and the same files counted
      exact repairOne_of_skipped hone hout ▸ ih hrest
    · rw [unskipped_cons_of_not_skipped hout, List.filter_cons_of_pos (by simp [hout])]
      exact repairAll_cons_eq_ok.mpr ⟨s₁, out, _, hone, ih hrest, rfl⟩

/-- What a run does not skip is admitted, in the tree that the violations before it have left. -/
theorem admitted_of_repairAll (h : repairAll p s vs = (s', .ok outs)) {i : Nat}
    (hv : vs[i]? = some v) (hout : outs[i]? = some out) (hnot : out.status ≠ .skipped) :
    Admitted p.catalog p.remedies p.options (repairAll p s (vs.take i)).1.bench.tree v := by
  obtain ⟨hi, rfl⟩ := List.getElem?_eq_some_iff.mp hv
  rw [← List.take_append_drop i vs, List.drop_eq_getElem_cons hi] at h
  obtain ⟨s₁, before, s₂, out', after, hdone, hone, -, rfl⟩ := repairAll_split h
  have hlength : before.length = i :=
    (length_outcomes hdone).trans (List.length_take_of_le (Nat.le_of_lt hi))
  rw [List.getElem?_append_right (Nat.le_of_eq hlength), hlength, Nat.sub_self] at hout
  cases hout
  rw [hdone]
  exact admitted_of_repairOne hone hnot

end

end Repair

/-! ## A repair -/

/-- The summary of the violations that are not skipped. -/
def RepairSummary.unskipped (s : RepairSummary) : RepairSummary :=
  let outs := s.outcomes.filter (·.status != .skipped)
  { s with total := outs.length, outcomes := outs }

/-- **What is skipped has no effect**, for every catalog, all remedies and options and every tree: a
repair of the violations that are not skipped leaves the same bench and answers with the same
outcomes, less those of the skipped ones. And what is not skipped is admitted, in the tree that the
repair of the violations before it leaves. -/
theorem repair_unskipped {cat : Catalog} {remedies : Remedies} {st : Settings} {b b' : Bench}
    {path : Text} {vs : List Verdict} {o : RepairOptions} {summary : RepairSummary}
    (h : repair cat remedies st b path vs o = (b', .ok summary)) :
    repair cat remedies st b path (Repair.unskipped vs summary.outcomes) o =
        (b', .ok summary.unskipped) ∧
      ∀ i v out, vs[i]? = some v → summary.outcomes[i]? = some out → out.status ≠ .skipped →
        Repair.Admitted cat remedies o (repair cat remedies st b path (vs.take i) o).1.tree v := by
  cases hroot : b.tree.resolve (.ofText path) with
  | error f =>
    unfold repair at h
    rw [hroot] at h
    cases h
  | ok root =>
    obtain ⟨s, hall, hpath, hdry, -⟩ := Repair.of_repair hroot (congrArg Prod.snd h)
    obtain rfl : s.bench = b' := by
      have hleft := congrArg Prod.fst h
      rwa [Repair.bench_repair hroot, hall] at hleft
    have hrun := Repair.repairAll_unskipped hall
    refine ⟨?_, fun i v out hv hout hnot => ?_⟩
    · rw [Repair.repair_of_resolve hroot, hrun, ← Repair.length_outcomes hrun, ← hpath, ← hdry]
      rfl
    · rw [Repair.bench_repair hroot]
      exact Repair.admitted_of_repairAll hall hv hout hnot

/-! ### A repair that waits for another -/

namespace Waiting

open Repair.Sample

def remedies : Remedies :=
  ((Remedies.builtin.put "FIRST" (writing "x")).put "NO_MOCK_DATA" (writing "x")).put "LAST"
    (writing "y")

/-- One file may be written, and a repair of high risk is confirmed once it is there. -/
def options : RepairOptions :=
  ⟨false, false, none, some 1, true, [], [],
    some fun t _ => (t.isFile (.ofText "/pkg/x")).toOption.getD false⟩

def violations : List Verdict :=
  [violation "NO_MOCK_DATA", violation "FIRST", violation "NO_MOCK_DATA", violation "LAST"]

def summary : RepairSummary :=
  ⟨"/pkg", false, 4,
    [Repair.skip .high (violation "NO_MOCK_DATA") "High-risk fix not confirmed",
      repaired "FIRST" .medium, repaired "NO_MOCK_DATA" .high,
      Repair.skip .medium (violation "LAST") "File limit reached (1 files)"]⟩

theorem repair_eq : repair (.builtin .default) remedies .default bench "/pkg" violations options =
    (left, .ok summary) := by
  rfl

end Waiting

/-- The first violation is not confirmed yet and the last one goes over the limit. Without them the
repair is the same. -/
theorem repair_unskipped_waiting :
    repair (.builtin .default) Waiting.remedies .default Repair.Sample.bench "/pkg"
        [Repair.Sample.violation "FIRST", Repair.Sample.violation "NO_MOCK_DATA"] Waiting.options =
      (Repair.Sample.left, .ok Waiting.summary.unskipped) ∧
    Repair.Admitted (.builtin .default) Waiting.remedies Waiting.options Repair.Sample.left.tree
      (Repair.Sample.violation "NO_MOCK_DATA") := by
  obtain ⟨hkept, hadmitted⟩ := repair_unskipped Waiting.repair_eq
  exact ⟨hkept, hadmitted 2 _ _ (by rfl) (by rfl) (by decide)⟩

end PackageAudit
