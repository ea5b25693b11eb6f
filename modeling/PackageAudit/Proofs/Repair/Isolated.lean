import PackageAudit.Proofs.Repair.Step

/-! # Failures of repairs

A remedy that gives up costs its own violation a failed repair, and the others are treated as if that
violation were not there (`repair_insert`). Any other fault ends the run: what was written until then
stays, and nobody is told what it was. `failures_isolated_iff` says when no violation does this, with
`Breaks` for the faults that do.
-/

namespace PackageAudit

theorem List.insertIdx_length_append {α : Type} (xs ys : List α) (a : α) :
    (xs ++ ys).insertIdx xs.length a = xs ++ a :: ys := by
  induction xs with
  | nil => rfl
  | cons x xs ih => simp [ih]

namespace Repair

section
variable {p : Plan} {s s' : Progress} {v : Verdict} {vs done rest : List Verdict}
  {out : RepairOutcome} {outs : List RepairOutcome} {f : Fault}

/-! ## One outcome for each violation -/

theorem length_outcomes (h : repairAll p s vs = (s', .ok outs)) : outs.length = vs.length := by
  induction vs generalizing s outs with
  | nil =>
    cases h
    rfl
  | cons v vs ih =>
    obtain ⟨s₁, out, rest, -, hrest, rfl⟩ := repairAll_cons_eq_ok.mp h
    rw [List.length_cons, List.length_cons, ih hrest]

theorem repairAll_split (h : repairAll p s (done ++ v :: rest) = (s', .ok outs)) :
    ∃ s₁ before s₂ out after, repairAll p s done = (s₁, .ok before) ∧
      repairOne p s₁ v = (s₂, .ok out) ∧ repairAll p s₂ rest = (s', .ok after) ∧
      outs = before ++ out :: after := by
  cases hdone : repairAll p s done with
  | mk s₁ res =>
    cases res with
    | error f =>
      rw [repairAll_append_of_error hdone] at h
      cases h
    | ok before =>
      rw [repairAll_append_of_ok hdone, mapOutcomes_eq_ok] at h
      obtain ⟨later, hlater, rfl⟩ := h
      obtain ⟨s₂, out, after, hone, hrest, rfl⟩ := repairAll_cons_eq_ok.mp hlater
      exact ⟨s₁, before, s₂, out, after, rfl, hone, hrest, rfl⟩

/-- **A run answers if and only if no violation breaks it**, seen from what the violations before it
have left. -/
theorem exists_outcomes_iff : (∃ outs, (repairAll p s vs).2 = .ok outs) ↔
    ∀ done v rest f, vs = done ++ v :: rest → ¬ Breaks p (repairAll p s done).1 v f := by
  constructor
  · rintro ⟨outs, hok⟩ done v rest f rfl hbreaks
    have hall : repairAll p s (done ++ v :: rest) =
        ((repairAll p s (done ++ v :: rest)).1, .ok outs) := Prod.ext rfl hok
    obtain ⟨s₁, before, s₂, out, after, hdone, hone, -, -⟩ := repairAll_split hall
    rw [hdone] at hbreaks
    have herror := repairOne_eq_error.mpr hbreaks
    rw [hone] at herror
    cases herror
  · intro hnone
    induction vs generalizing s with
    | nil => exact ⟨[], rfl⟩
    | cons v vs ih =>
      cases hone : repairOne p s v with
      | mk s₁ res =>
        cases res with
        | error f =>
          have hbreaks : Breaks p s v f := repairOne_eq_error.mp (congrArg Prod.snd hone)
          exact absurd hbreaks (hnone [] v vs f rfl)
        | ok out =>
          have hlater : ∀ done w rest f, vs = done ++ w :: rest →
              ¬ Breaks p (repairAll p s₁ done).1 w f := by
            rintro done w rest f rfl
            have hnot := hnone (v :: done) w rest f rfl
            rwa [repairAll_cons_of_ok hone] at hnot
          obtain ⟨outs, hok⟩ := ih hlater
          refine ⟨out :: outs, ?_⟩
          rw [repairAll_cons_of_ok hone]
          exact congrArg (Except.map _) hok

/-! ## A violation that leaves no trace -/

/-- **A violation whose treatment changes nothing adds its outcome and nothing else.** -/
theorem repairAll_insert
    (h : repairOne p (repairAll p s done).1 v = ((repairAll p s done).1, .ok out)) :
    repairAll p s (done ++ v :: rest) =
      mapOutcomes (·.insertIdx done.length out) (repairAll p s (done ++ rest)) := by
  cases hdone : repairAll p s done with
  | mk s₁ res =>
    cases res with
    | error f =>
      rw [repairAll_append_of_error hdone, repairAll_append_of_error hdone]
      rfl
    | ok before =>
      rw [hdone] at h
      rw [repairAll_append_of_ok hdone, repairAll_append_of_ok hdone, repairAll_cons_of_ok h,
        mapOutcomes_mapOutcomes, mapOutcomes_mapOutcomes]
      simp only [← length_outcomes hdone, List.insertIdx_length_append]

/-- A run ends at the first violation that breaks it. -/
theorem repairAll_of_breaks {before : List RepairOutcome}
    (hdone : (repairAll p s done).2 = .ok before) (h : Breaks p (repairAll p s done).1 v f) :
    repairAll p s (done ++ v :: rest) =
      ((repairOne p (repairAll p s done).1 v).1, .error f) := by
  have hone : repairOne p (repairAll p s done).1 v =
      ((repairOne p (repairAll p s done).1 v).1, .error f) :=
    Prod.ext rfl (repairOne_eq_error.mpr h)
  rw [repairAll_append_of_ok (Prod.ext rfl hdone), repairAll_cons_of_error hone]
  rfl

end

end Repair

/-! ## A repair -/

/-- The summary with the outcome of one more violation at a place. -/
def RepairSummary.insert (s : RepairSummary) (i : Nat) (out : RepairOutcome) : RepairSummary :=
  { s with total := s.total + 1, outcomes := s.outcomes.insertIdx i out }

namespace Repair

/-- **Failures are isolated.** The repair answers with one outcome for each violation, in order: that of
the violation's own treatment. A remedy that raises a fault, whatever its kind, makes the repair of its
own violation fail, and all else is as if that violation were not there. -/
structure FailuresIsolated (p : Plan) (b : Bench) (path : Text) (vs : List Verdict) : Prop where
  answers : ∃ summary,
    (repair p.catalog p.remedies p.settings b path vs p.options).2 = .ok summary ∧
    summary.total = vs.length ∧ summary.outcomes.length = vs.length ∧
    ∀ done v rest, vs = done ++ v :: rest → ∃ out, summary.outcomes[done.length]? = some out ∧
      out.ruleId = v.ruleId ∧ (repairOne p (repairAll p ⟨b, []⟩ done).1 v).2 = .ok out
  raising : ∀ done v rest f, vs = done ++ v :: rest → Raises p (repairAll p ⟨b, []⟩ done).1 v f →
    ∃ out, out.ruleId = v.ruleId ∧ out.status = .failed ∧
      (f.isRepairFailure = true → out.errorMessage = some f.message) ∧
      let others := repair p.catalog p.remedies p.settings b path (done ++ rest) p.options
      repair p.catalog p.remedies p.settings b path vs p.options =
        (others.1, others.2.map (·.insert done.length out))

section
variable {p : Plan} {b : Bench} {path : Text} {vs done rest : List Verdict} {v : Verdict} {f : Fault}
  {out : RepairOutcome} (hroot : b.tree.resolve (.ofText path) = .ok p.root)

include hroot

theorem repair_eq_run : repair p.catalog p.remedies p.settings b path vs p.options =
    match repairAll p ⟨b, []⟩ vs with
    | (s, .error f) => (s.bench, .error f)
    | (s, .ok outs) => (s.bench, .ok ⟨p.root.toText, p.options.dryRun, vs.length, outs⟩) :=
  repair_of_resolve hroot

theorem repair_insert
    (h : repairOne p (repairAll p ⟨b, []⟩ done).1 v = ((repairAll p ⟨b, []⟩ done).1, .ok out)) :
    let others := repair p.catalog p.remedies p.settings b path (done ++ rest) p.options
    repair p.catalog p.remedies p.settings b path (done ++ v :: rest) p.options =
      (others.1, others.2.map (·.insert done.length out)) := by
  intro others
  simp only [others, repair_eq_run hroot, repairAll_insert h]
  cases repairAll p ⟨b, []⟩ (done ++ rest) with
  | mk s res =>
    cases res with
    | error f => rfl
    | ok outs => simp [mapOutcomes, Except.map, RepairSummary.insert, Nat.add_assoc]

theorem answers_of_outcomes {s : Progress} {outs : List RepairOutcome}
    (h : repairAll p ⟨b, []⟩ vs = (s, .ok outs)) : ∃ summary,
      (repair p.catalog p.remedies p.settings b path vs p.options).2 = .ok summary ∧
      summary.total = vs.length ∧ summary.outcomes.length = vs.length ∧
      ∀ done v rest, vs = done ++ v :: rest → ∃ out, summary.outcomes[done.length]? = some out ∧
        out.ruleId = v.ruleId ∧ (repairOne p (repairAll p ⟨b, []⟩ done).1 v).2 = .ok out := by
  rw [repair_eq_run hroot, h]
  refine ⟨_, rfl, rfl, length_outcomes h, ?_⟩
  rintro done v rest rfl
  obtain ⟨s₁, before, s₂, out, after, hdone, hone, -, rfl⟩ := repairAll_split h
  refine ⟨out, ?_, ruleId_repairOne hone, ?_⟩
  · rw [← length_outcomes hdone, List.getElem?_append_right (Nat.le_refl _), Nat.sub_self]
    rfl
  · rw [hdone]
    exact congrArg Prod.snd hone

/-- **When failures are isolated**, for every catalog, all remedies and options, every tree and every
list of violations: if and only if no violation breaks the run. The first one that does ends the repair
with its fault: what was done until then stays, and there is no summary. -/
theorem failures_isolated_iff :
    (FailuresIsolated p b path vs ↔
      ∀ done v rest f, vs = done ++ v :: rest → ¬ Breaks p (repairAll p ⟨b, []⟩ done).1 v f) ∧
    ∀ done v rest f, vs = done ++ v :: rest →
      (∃ before, (repairAll p ⟨b, []⟩ done).2 = .ok before) →
      Breaks p (repairAll p ⟨b, []⟩ done).1 v f →
      repair p.catalog p.remedies p.settings b path vs p.options =
        ((repairOne p (repairAll p ⟨b, []⟩ done).1 v).1.bench, .error f) := by
  refine ⟨⟨fun h => ?_, fun h => ?_⟩, ?_⟩
  · obtain ⟨summary, hok, -⟩ := h.answers
    rw [repair_eq_run hroot] at hok
    refine exists_outcomes_iff.mp ?_
    cases hall : repairAll p ⟨b, []⟩ vs with
    | mk s res =>
      rw [hall] at hok
      cases res with
      | error f => cases hok
      | ok outs => exact ⟨outs, rfl⟩
  · obtain ⟨outs, hok⟩ := exists_outcomes_iff.mpr h
    refine ⟨answers_of_outcomes hroot (Prod.ext rfl hok), ?_⟩
    rintro done v rest f rfl hraises
    -- a fault that is no failure of a repair would break the run
    cases hf : f.isRepairFailure with
    | false => exact absurd (.raised hraises hf) (h done v rest f rfl)
    | true =>
      obtain ⟨rule, reason, rfl⟩ := Fault.isRepairFailure_iff.mp hf
      exact ⟨_, rfl, rfl, fun _ => rfl, repair_insert hroot (step_iff.mp (.gaveUp hraises))⟩
  · rintro done v rest f rfl ⟨before, hdone⟩ hbreaks
    rw [repair_eq_run hroot, repairAll_of_breaks hdone hbreaks]

end

/-! ### A remedy that raises a fault of its own -/

namespace Sample

/-- A remedy that writes one file. -/
def writing (path : Text) : Remedy := fun _ _ => .ok [⟨some path, "Wrote a file", some "x"⟩]

/-- A package with its manifest only. -/
def bench : Bench :=
  ⟨⟨[(["pkg"], .folder), (["pkg", "package.json"], .file [123, 125])], []⟩, 7⟩

/-- The package with the file that is written. -/
def left : Bench :=
  ⟨⟨[(["pkg"], .folder), (["pkg", "package.json"], .file [123, 125]),
    (["pkg", "x"], .file [120])], []⟩, 7⟩

def violation (ruleId : Text) : Verdict :=
  ⟨ruleId, ruleId, .fail, .warning, none, "It is violated", none, none, [], true, []⟩

def repaired (ruleId : Text) (risk : Risk) : RepairOutcome :=
  ⟨ruleId, .success, risk, some "x", ["Wrote a file"], none, none⟩

end Sample

namespace Foreign

open Sample

/-- A remedy that raises a fault that is no failure of a repair. -/
def raising : Remedy := fun _ _ => .error (.raised "RuntimeError" "no luck")

def plan : Plan :=
  ⟨.empty, (Remedies.builtin.put "WRITES" (writing "x")).put "RAISES" raising, .default,
    ⟨.root, ["pkg"]⟩, ⟨false, false, none, none, false, [], [], none⟩⟩

def violations : List Verdict := [violation "WRITES", violation "RAISES", violation "WRITES"]

theorem repairAll_writes : repairAll plan ⟨bench, []⟩ [violation "WRITES"] =
    (⟨left, [some "x"]⟩, .ok [repaired "WRITES" .medium]) := by
  rfl

theorem raises : Raises plan ⟨left, [some "x"]⟩ (violation "RAISES")
    (.raised "RuntimeError" "no luck") :=
  ⟨raising, ⟨rfl, rfl⟩, rfl⟩

end Foreign

/-- The file that the first remedy has written stays, and instead of a summary there is the fault of
the second remedy. -/
theorem failures_not_isolated_raised :
    ¬ FailuresIsolated Foreign.plan Sample.bench "/pkg" Foreign.violations ∧
      repair Foreign.plan.catalog Foreign.plan.remedies Foreign.plan.settings Sample.bench "/pkg"
        Foreign.violations Foreign.plan.options =
          (Sample.left, .error (.raised "RuntimeError" "no luck")) := by
  have hdone := Foreign.repairAll_writes
  have hone := step_iff.mp (.raised Foreign.raises rfl)
  have hbreaks : Breaks Foreign.plan (repairAll Foreign.plan ⟨Sample.bench, []⟩
      [Sample.violation "WRITES"]).1 (Sample.violation "RAISES")
      (.raised "RuntimeError" "no luck") := by
    rw [hdone]
    exact .raised Foreign.raises rfl
  obtain ⟨hiff, hends⟩ :=
    @failures_isolated_iff Foreign.plan Sample.bench "/pkg" Foreign.violations rfl
  refine ⟨fun hisolated => hiff.mp hisolated _ _ _ _ rfl hbreaks, ?_⟩
  rw [hends _ _ _ _ rfl ⟨_, congrArg Prod.snd hdone⟩ hbreaks, hdone, hone]

end Repair

end PackageAudit
