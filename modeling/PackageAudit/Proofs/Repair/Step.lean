import PackageAudit.Proofs.Repair.Journal

/-! # What the repair of one violation does

`Step` lists the ways in which a violation can be treated, each with what it leaves and how it ends,
and `step_iff` says that these are all. What every treatment keeps is shown by its cases.

* `repairOne_of_skipped`: a violation that is skipped leaves everything as it is.
* `repairOne_eq_error`: the faults that a violation ends a run with (`Breaks`).
-/

namespace PackageAudit

/-- Is the fault the failure of one repair, after which a run goes on? -/
def Fault.isRepairFailure : Fault → Bool
  | .failure (.repairFailed _ _) => true
  | _ => false

theorem Fault.isRepairFailure_iff {f : Fault} :
    f.isRepairFailure = true ↔ ∃ rule reason, f = .failure (.repairFailed rule reason) := by
  constructor
  · intro h
    unfold isRepairFailure at h
    split at h
    · exact ⟨_, _, rfl⟩
    · cases h
  · rintro ⟨rule, reason, rfl⟩
    rfl

theorem Fault.isRepairFailure_eq_false {f : Fault} : f.isRepairFailure = false ↔
    ∀ rule reason, f ≠ .failure (.repairFailed rule reason) := by
  simp [Bool.eq_false_iff, isRepairFailure_iff]

namespace Repair

/-! ## The ways to treat a violation -/

/-- The outcome of a repair that succeeded. -/
def succeeded (risk : Risk) (v : Verdict) (actions : List Action) (kept : Option Text) :
    RepairOutcome :=
  ⟨v.ruleId, .success, risk, (targets actions).head?.getD v.filePath,
    if actions.isEmpty then ["Nothing to change"] else actions.map (·.description), kept, none⟩

/-- Nothing holds a violation back, and there is a remedy for it. -/
structure Asks (p : Plan) (s : Progress) (v : Verdict) (remedy : Remedy) : Prop where
  gate : gate p s.bench.tree (p.catalog.risk v.ruleId) v = none
  remedy : p.remedies.find? v.ruleId = some remedy

/-- The remedy of a violation is asked and makes a plan. -/
def Plans (p : Plan) (s : Progress) (v : Verdict) (actions : List Action) : Prop :=
  ∃ remedy, Asks p s v remedy ∧ remedy ⟨s.bench.tree, p.root, p.settings⟩ v = .ok actions

/-- The remedy of a violation is asked and raises a fault. -/
def Raises (p : Plan) (s : Progress) (v : Verdict) (f : Fault) : Prop :=
  ∃ remedy, Asks p s v remedy ∧ remedy ⟨s.bench.tree, p.root, p.settings⟩ v = .error f

/-- A plan would write more files than are left. -/
def OverLimit (p : Plan) (s : Progress) (actions : List Action) : Prop :=
  p.limit < (addTargets s.touched actions).length

/-- How a violation is treated: what that leaves and how it ends. -/
inductive Step (p : Plan) (s : Progress) (v : Verdict) :
    Progress × Except Fault RepairOutcome → Prop
  | held {reason : Text} (h : gate p s.bench.tree (p.catalog.risk v.ruleId) v = some reason) :
    Step p s v (s, .ok (skip (p.catalog.risk v.ruleId) v reason))
  | unanswered (hgate : gate p s.bench.tree (p.catalog.risk v.ruleId) v = none)
    (h : p.remedies.find? v.ruleId = none) :
    Step p s v (s, .ok (skip (p.catalog.risk v.ruleId) v
      "No automated fix available; marked for manual resolution"))
  | gaveUp {rule reason : Text} (h : Raises p s v (.failure (.repairFailed rule reason))) :
    Step p s v (s, .ok (failed (p.catalog.risk v.ruleId) v (.repairFailed rule reason) none))
  | raised {f : Fault} (h : Raises p s v f) (hf : f.isRepairFailure = false) :
    Step p s v (s, .error f)
  | overLimit {actions : List Action} (h : Plans p s v actions) (hl : OverLimit p s actions) :
    Step p s v (s, .ok (skip (p.catalog.risk v.ruleId) v
      ("File limit reached (" ++ Text.ofInt p.limit ++ " files)")))
  | foretold {actions : List Action} (h : Plans p s v actions) (hl : ¬ OverLimit p s actions)
    (hd : p.options.dryRun = true) :
    Step p s v (⟨s.bench, addTargets s.touched actions⟩,
      .ok (succeeded (p.catalog.risk v.ruleId) v actions none))
  | done {actions : List Action} {b : Bench} {kept : Option Text} (h : Plans p s v actions)
    (hl : ¬ OverLimit p s actions) (hd : p.options.dryRun = false)
    (hall : performAll p v.ruleId s.bench none actions = (b, .ok kept)) :
    Step p s v (⟨b, addTargets s.touched actions⟩,
      .ok (succeeded (p.catalog.risk v.ruleId) v actions kept))
  | refused {actions : List Action} {b : Bench} {rule reason : Text} (h : Plans p s v actions)
    (hl : ¬ OverLimit p s actions) (hd : p.options.dryRun = false)
    (hall : performAll p v.ruleId s.bench none actions =
      (b, .error (.failure (.repairFailed rule reason)))) :
    Step p s v (⟨b, addTargets s.touched actions⟩, .ok (failed (p.catalog.risk v.ruleId) v
      (.repairFailed rule reason) ((targets actions).head?.getD v.filePath)))
  | broken {actions : List Action} {b : Bench} {f : Fault} (h : Plans p s v actions)
    (hl : ¬ OverLimit p s actions) (hd : p.options.dryRun = false)
    (hall : performAll p v.ruleId s.bench none actions = (b, .error f))
    (hf : f.isRepairFailure = false) :
    Step p s v (⟨b, addTargets s.touched actions⟩, .error f)

section
variable {p : Plan} {s s' : Progress} {v : Verdict} {actions : List Action} {f : Fault}
  {r : Progress × Except Fault RepairOutcome}

theorem repairOne_of_plans (h : Plans p s v actions) :
    repairOne p s v = carryOut p s (p.catalog.risk v.ruleId) v actions := by
  obtain ⟨remedy, hasks, hplan⟩ := h
  unfold repairOne
  simp only [hasks.gate, hasks.remedy, hplan]

theorem carryOut_of_limit (risk : Risk) (h : OverLimit p s actions) :
    carryOut p s risk v actions = (s, .ok (skip risk v
      ("File limit reached (" ++ Text.ofInt p.limit ++ " files)"))) :=
  if_pos h

theorem carryOut_of_dryRun (risk : Risk) (h : ¬ OverLimit p s actions)
    (hd : p.options.dryRun = true) : carryOut p s risk v actions =
      (⟨s.bench, addTargets s.touched actions⟩, .ok (succeeded risk v actions none)) :=
  (if_neg h).trans (if_pos hd)

theorem carryOut_eq (risk : Risk) (h : ¬ OverLimit p s actions) (hd : p.options.dryRun = false) :
    carryOut p s risk v actions = match performAll p v.ruleId s.bench none actions with
      | (b, .ok kept) =>
        (⟨b, addTargets s.touched actions⟩, .ok (succeeded risk v actions kept))
      | (b, .error (.failure (.repairFailed rule reason))) => (⟨b, addTargets s.touched actions⟩,
        .ok (failed risk v (.repairFailed rule reason) ((targets actions).head?.getD v.filePath)))
      | (b, .error f) => (⟨b, addTargets s.touched actions⟩, .error f) :=
  (if_neg h).trans (if_neg (Bool.eq_false_iff.mp hd))

theorem step_carryOut (h : Plans p s v actions) :
    Step p s v (carryOut p s (p.catalog.risk v.ruleId) v actions) := by
  by_cases hl : OverLimit p s actions
  · rw [carryOut_of_limit _ hl]
    exact .overLimit h hl
  cases hd : p.options.dryRun with
  | true =>
    rw [carryOut_of_dryRun _ hl hd]
    exact .foretold h hl hd
  | false =>
    rw [carryOut_eq _ hl hd]
    cases hall : performAll p v.ruleId s.bench none actions with
    | mk b res =>
      cases res with
      | ok kept => exact .done h hl hd hall
      | error f =>
        split
        · next heq => cases heq
        · next heq =>
          cases heq
          exact .refused h hl hd hall
        · next hnot heq =>
          cases heq
          exact .broken h hl hd hall (Fault.isRepairFailure_eq_false.mpr hnot)

theorem step_repairOne (p : Plan) (s : Progress) (v : Verdict) : Step p s v (repairOne p s v) := by
  unfold repairOne
  simp only
  split
  · next reason hg => exact .held hg
  · next hg =>
    split
    · next hr => exact .unanswered hg hr
    · next remedy hr =>
      split
      · next h => exact .gaveUp ⟨remedy, ⟨hg, hr⟩, h⟩
      · next hnot h => exact .raised ⟨remedy, ⟨hg, hr⟩, h⟩ (Fault.isRepairFailure_eq_false.mpr hnot)
      · next h => exact step_carryOut ⟨remedy, ⟨hg, hr⟩, h⟩

/-- **A violation is treated in one of these ways.** -/
theorem step_iff : Step p s v r ↔ repairOne p s v = r := by
  refine ⟨fun h => ?_, fun h => h ▸ step_repairOne p s v⟩
  cases h with
  | held h =>
    unfold repairOne
    simp only [h]
  | unanswered hgate h =>
    unfold repairOne
    simp only [hgate, h]
  | gaveUp h =>
    obtain ⟨remedy, hasks, hraised⟩ := h
    unfold repairOne
    simp only [hasks.gate, hasks.remedy, hraised]
  | raised h hf =>
    obtain ⟨remedy, hasks, hraised⟩ := h
    have hnot := Fault.isRepairFailure_eq_false.mp hf
    unfold repairOne
    simp only [hasks.gate, hasks.remedy, hraised]
  | overLimit h hl => rw [repairOne_of_plans h, carryOut_of_limit _ hl]
  | foretold h hl hd => rw [repairOne_of_plans h, carryOut_of_dryRun _ hl hd]
  | done h hl hd hall => rw [repairOne_of_plans h, carryOut_eq _ hl hd, hall]
  | refused h hl hd hall => rw [repairOne_of_plans h, carryOut_eq _ hl hd, hall]
  | broken h hl hd hall hf =>
    have hnot := Fault.isRepairFailure_eq_false.mp hf
    simp only [repairOne_of_plans h, carryOut_eq _ hl hd, hall]

section
variable {out : RepairOutcome}

/-! ## What follows from the ways -/

theorem ruleId_repairOne (h : repairOne p s v = (s', .ok out)) : out.ruleId = v.ruleId := by
  cases step_iff.mpr h <;> rfl

theorem repairOne_of_skipped (h : repairOne p s v = (s', .ok out)) (hout : out.status = .skipped) :
    s' = s := by
  cases step_iff.mpr h with
  | held h => rfl
  | unanswered hgate h => rfl
  | gaveUp h => rfl
  | overLimit h hl => rfl
  | foretold h hl hd => cases hout
  | done h hl hd hall => cases hout
  | refused h hl hd hall => cases hout

end

/-! ## What ends a run -/

theorem planned_eq_some : planned p s v = some actions ↔
    Plans p s v actions ∧ ¬ OverLimit p s actions ∧ p.options.dryRun = false := by
  constructor
  · intro h
    unfold planned at h
    split at h
    · next remedy hg hr =>
      split at h
      · next hplan =>
        split at h
        · cases h
        · next hnot =>
          cases h
          obtain ⟨hl, hd⟩ := not_or.mp hnot
          exact ⟨⟨remedy, ⟨hg, hr⟩, hplan⟩, hl, Bool.eq_false_iff.mpr hd⟩
      · cases h
    · cases h
  · rintro ⟨⟨remedy, hasks, hplan⟩, hl, hd⟩
    unfold planned
    simp only [hasks.gate, hasks.remedy, hplan]
    exact if_neg (not_or.mpr ⟨hl, Bool.eq_false_iff.mp hd⟩)

/-- What a plan ends with at an action that cannot be carried out. -/
def stop (ruleId : Text) (a : Action) (g : FileFault) : Fault :=
  if g.isRefusal then
    .failure (.repairFailed ruleId ("cannot write " ++ a.path.getD [] ++ ": " ++ g.message))
  else .file g

theorem performAll_cons_error {ruleId : Text} {b b' : Bench} {kept : Option Text} {a : Action}
    {rest : List Action} {g : FileFault} (h : perform p b a = (b', .error g)) :
    performAll p ruleId b kept (a :: rest) = (b', .error (stop ruleId a g)) := by
  rw [performAll, h]
  unfold stop
  simp only
  split <;> rfl

theorem performAll_eq_error {ruleId : Text} {b : Bench} {kept : Option Text} :
    (performAll p ruleId b kept actions).2 = .error f ↔
      ∃ x ∈ performed p b actions, ∃ g, (perform p x.1 x.2).2 = .error g ∧
        f = stop ruleId x.2 g := by
  induction actions generalizing b kept with
  | nil => simp [performAll, performed]
  | cons a rest ih =>
    cases hpf : perform p b a with
    | mk b' res =>
      cases res with
      | ok backup =>
        rw [performAll_cons_of_ok hpf, ih]
        simp [performed, hpf]
      | error g =>
        rw [performAll_cons_error hpf]
        simp [performed, hpf, eq_comm]

/-- The faults that a violation ends a run with: its remedy raises one that is no failure of a repair,
or an action of its plan fails and it is not the file system that refuses it. -/
inductive Breaks (p : Plan) (s : Progress) (v : Verdict) : Fault → Prop
  | raised {f : Fault} (h : Raises p s v f) (hf : f.isRepairFailure = false) : Breaks p s v f
  | stumbled {x : Bench × Action} {g : FileFault} (hx : x ∈ performedFor p s v)
    (h : (perform p x.1 x.2).2 = .error g) (hg : g.isRefusal = false) : Breaks p s v (.file g)

/-- **When the repair of a violation ends the run.** -/
theorem repairOne_eq_error : (repairOne p s v).2 = .error f ↔ Breaks p s v f := by
  constructor
  · intro h
    cases hone : repairOne p s v with
    | mk s' res =>
      rw [hone] at h
      obtain rfl : res = .error f := h
      cases step_iff.mpr hone with
      | raised h hf => exact .raised h hf
      | broken h hl hd hall hf =>
        obtain ⟨x, hx, g, hg, rfl⟩ := performAll_eq_error.mp (congrArg Prod.snd hall)
        have hfor : x ∈ performedFor p s v :=
          mem_performedFor.mpr ⟨_, planned_eq_some.mpr ⟨h, hl, hd⟩, hx⟩
        cases hrefusal : g.isRefusal with
        | true =>
          unfold stop at hf
          rw [if_pos hrefusal] at hf
          cases hf
        | false =>
          unfold stop
          rw [if_neg (Bool.eq_false_iff.mp hrefusal)]
          exact .stumbled hfor hg hrefusal
  · intro h
    cases h with
    | raised h hf => rw [step_iff.mp (.raised h hf)]
    | stumbled hx hg hrefusal =>
      next x g =>
      obtain ⟨actions, hplan, hx⟩ := mem_performedFor.mp hx
      obtain ⟨h, hl, hd⟩ := planned_eq_some.mp hplan
      have hend : (performAll p v.ruleId s.bench none actions).2 = .error (.file g) :=
        performAll_eq_error.mpr ⟨x, hx, g, hg, (if_neg (Bool.eq_false_iff.mp hrefusal)).symm⟩
      have hall : performAll p v.ruleId s.bench none actions =
          ((performAll p v.ruleId s.bench none actions).1, .error (.file g)) :=
        Prod.ext rfl hend
      rw [step_iff.mp (.broken h hl hd hall rfl)]

/-! ## A run is made of its steps -/

/-- What a run ends with, its outcomes changed by a function. -/
def mapOutcomes (g : List RepairOutcome → List RepairOutcome)
    (r : Progress × Except Fault (List RepairOutcome)) :
    Progress × Except Fault (List RepairOutcome) := (r.1, r.2.map g)

theorem mapOutcomes_mapOutcomes (g g' : List RepairOutcome → List RepairOutcome)
    (r : Progress × Except Fault (List RepairOutcome)) :
    mapOutcomes g (mapOutcomes g' r) = mapOutcomes (fun outs => g (g' outs)) r := by
  obtain ⟨s, f | outs⟩ := r <;> rfl

theorem mapOutcomes_nil_append (r : Progress × Except Fault (List RepairOutcome)) :
    mapOutcomes ([] ++ ·) r = r := by
  obtain ⟨s, f | outs⟩ := r <;> rfl

theorem mapOutcomes_eq_ok {g : List RepairOutcome → List RepairOutcome}
    {r : Progress × Except Fault (List RepairOutcome)} {outs : List RepairOutcome} :
    mapOutcomes g r = (s', .ok outs) ↔ ∃ outs', r = (s', .ok outs') ∧ outs = g outs' := by
  obtain ⟨s, f | outs'⟩ := r
  · simp [mapOutcomes, Except.map]
  · simp only [mapOutcomes, Except.map, Prod.mk.injEq, Except.ok.injEq]
    constructor
    · rintro ⟨rfl, rfl⟩
      exact ⟨outs', ⟨rfl, rfl⟩, rfl⟩
    · rintro ⟨_, ⟨rfl, rfl⟩, rfl⟩
      exact ⟨rfl, rfl⟩

theorem repairAll_cons_of_error (h : repairOne p s v = (s', .error f)) (vs : List Verdict) :
    repairAll p s (v :: vs) = (s', .error f) := by
  rw [repairAll, h]

theorem repairAll_cons_of_ok {out : RepairOutcome} (h : repairOne p s v = (s', .ok out))
    (vs : List Verdict) :
    repairAll p s (v :: vs) = mapOutcomes (out :: ·) (repairAll p s' vs) := by
  rw [repairAll, h]
  simp only
  split <;> next hrest => rw [hrest]; rfl

theorem repairAll_cons_eq_ok {vs : List Verdict} {outs : List RepairOutcome} :
    repairAll p s (v :: vs) = (s', .ok outs) ↔ ∃ s₁ out rest,
      repairOne p s v = (s₁, .ok out) ∧ repairAll p s₁ vs = (s', .ok rest) ∧
        outs = out :: rest := by
  cases hone : repairOne p s v with
  | mk s₁ res =>
    cases res with
    | error f => simp [repairAll_cons_of_error hone]
    | ok out => simp [repairAll_cons_of_ok hone, mapOutcomes_eq_ok, and_assoc]

theorem repairAll_append_of_error {xs : List Verdict} (h : repairAll p s xs = (s', .error f))
    (ys : List Verdict) : repairAll p s (xs ++ ys) = (s', .error f) := by
  induction xs generalizing s with
  | nil => cases h
  | cons v xs ih =>
    cases hone : repairOne p s v with
    | mk s₁ res =>
      cases res with
      | error g =>
        rw [repairAll_cons_of_error hone] at h
        rw [List.cons_append, repairAll_cons_of_error hone, h]
      | ok out =>
        rw [repairAll_cons_of_ok hone] at h
        rw [List.cons_append, repairAll_cons_of_ok hone]
        cases hrest : repairAll p s₁ xs with
        | mk s₂ res =>
          rw [hrest] at h
          cases res with
          | ok outs => cases h
          | error g =>
            cases h
            rw [ih hrest]
            rfl

/-- **A run goes on where the run over the first violations has come to.** -/
theorem repairAll_append_of_ok {xs : List Verdict} {outs : List RepairOutcome}
    (h : repairAll p s xs = (s', .ok outs)) (ys : List Verdict) :
    repairAll p s (xs ++ ys) = mapOutcomes (outs ++ ·) (repairAll p s' ys) := by
  induction xs generalizing s outs with
  | nil =>
    cases h
    exact (mapOutcomes_nil_append _).symm
  | cons v xs ih =>
    obtain ⟨s₁, out, rest, hone, hrest, rfl⟩ := repairAll_cons_eq_ok.mp h
    rw [List.cons_append, repairAll_cons_of_ok hone, ih hrest, mapOutcomes_mapOutcomes]
    rfl

end

end Repair

end PackageAudit
