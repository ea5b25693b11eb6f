import PackageAudit.Proofs.Audit
import PackageAudit.Proofs.Repair.Carried
import PackageAudit.Service

/-! # The journal of a fix

A fix audits a package, repairs it and audits it again; only the repair changes anything
(`fix_bench`), and `Service.journal` are its changes (`account_fix`).
-/

namespace PackageAudit

open PackageAudit.Tree (Change Account Sound)

namespace Service

/-- The plan of the repair that a fix makes. -/
def plan (sv : Service) (root : Path) (o : RepairOptions) : Repair.Plan :=
  ⟨sv.auditor.catalog, sv.remedies, sv.auditor.settings, root, o⟩

/-- The changes that a fix makes, in order. -/
def journal (sv : Service) (b : Bench) (path : Text) (audit : AuditOptions) (o : RepairOptions) :
    List Change :=
  match sv.audit b.tree path audit, b.tree.resolve (.ofText path) with
  | .ok before, .ok root => Repair.journal (sv.plan root o) ⟨b, []⟩ before.fixableViolations
  | _, _ => []

section
variable {sv : Service} {b : Bench} {path : Text} {audit : AuditOptions} {o : RepairOptions}

theorem fix_bench : (sv.fix b path audit o).1 =
    match sv.audit b.tree path audit with
    | .error _ => b
    | .ok before => (sv.repair b path before.fixableViolations o).1 := by
  unfold fix
  cases sv.audit b.tree path audit with
  | error f => rfl
  | ok before =>
    simp only
    cases sv.repair b path before.fixableViolations o with
    | mk b' r =>
      cases r with
      | error f => rfl
      | ok summary =>
        simp only
        split
        · rfl
        · cases sv.audit b'.tree path audit <;> rfl

/-- **What a fix answers with**: the summary of its repair, and the report on what it has left if
something was repaired, else the first one. -/
theorem fix_eq_ok {summary : RepairSummary} {report : Report} :
    (sv.fix b path audit o).2 = .ok (summary, report) ↔
      ∃ before, sv.audit b.tree path audit = .ok before ∧
        (sv.repair b path before.fixableViolations o).2 = .ok summary ∧
        if o.dryRun || summary.ending .success == 0 then report = before
        else ∃ after, sv.audit (sv.fix b path audit o).1.tree path audit = .ok after ∧
          report = { after with changes := some (after.changesFrom before) } := by
  rw [fix_bench]
  unfold fix
  cases sv.audit b.tree path audit with
  | error f => simp
  | ok before =>
    simp only [Except.ok.injEq, exists_eq_left']
    cases sv.repair b path before.fixableViolations o with
    | mk b' res =>
      cases res with
      | error f => simp
      | ok found =>
        simp only [Except.ok.injEq]
        constructor
        · intro h
          split at h
          · next hend =>
            cases h
            exact ⟨rfl, by rw [if_pos hend]⟩
          · next hend =>
            cases hagain : sv.audit b'.tree path audit with
            | error f =>
              rw [hagain] at h
              cases h
            | ok after =>
              rw [hagain] at h
              cases h
              exact ⟨rfl, by rw [if_neg hend]; exact ⟨after, rfl, rfl⟩⟩
        · rintro ⟨rfl, h⟩
          split at h
          · next hend => rw [if_pos hend, h]
          · next hend =>
            obtain ⟨after, hafter, rfl⟩ := h
            simp only [if_neg hend, hafter]

theorem of_fix {before : Report} (haudit : sv.audit b.tree path audit = .ok before)
    {summary : RepairSummary} {report : Report}
    (h : (sv.fix b path audit o).2 = .ok (summary, report)) :
    (sv.repair b path before.fixableViolations o).2 = .ok summary ∧
    (o.dryRun = false → summary.ending .success ≠ 0 → ∃ after,
      sv.audit (sv.fix b path audit o).1.tree path audit = .ok after ∧
        report = { after with changes := some (after.changesFrom before) }) := by
  obtain ⟨before', hbefore, hrepair, hreport⟩ := fix_eq_ok.mp h
  obtain rfl := Except.ok.inj (haudit.symm.trans hbefore)
  refine ⟨hrepair, fun hdry hsome => ?_⟩
  rwa [hdry, Bool.false_or, if_neg (by rwa [beq_iff_eq])] at hreport

theorem fix_of_repaired {before after : Report} {b' : Bench} {summary : RepairSummary}
    (haudit : sv.audit b.tree path audit = .ok before)
    (hrepair : sv.repair b path before.fixableViolations o = (b', .ok summary))
    (hdry : o.dryRun = false) (hsome : summary.ending .success ≠ 0)
    (hafter : sv.audit b'.tree path audit = .ok after) : sv.fix b path audit o =
      (b', .ok (summary, { after with changes := some (after.changesFrom before) })) := by
  unfold fix
  simp only [haudit, hrepair, hdry, Bool.false_or, beq_iff_eq, if_neg hsome, hafter]

theorem fix_of_unrepaired {before : Report} {b' : Bench} {summary : RepairSummary}
    (haudit : sv.audit b.tree path audit = .ok before)
    (hrepair : sv.repair b path before.fixableViolations o = (b', .ok summary))
    (hnone : summary.ending .success = 0) :
    sv.fix b path audit o = (b', .ok (summary, before)) := by
  have hend : (o.dryRun || summary.ending .success == 0) = true := by
    rw [hnone]
    exact Bool.or_true _
  unfold fix
  simp only [haudit, hrepair, if_pos hend]

/-- The repair of a fix is about the verdicts of its first audit. -/
theorem fix_bench_of_verdicts {p : Package} {vs : List Verdict}
    (hp : describe b.tree sv.auditor.settings path audit.search = .ok p)
    (hvs : sv.auditor.verdicts b.tree p audit = .ok vs) (hr : sv.auditor.reportFault = none) :
    (sv.fix b path audit o).1 = (sv.repair b path (vs.filter (·.isFixable)) o).1 := by
  have haudit : sv.audit b.tree path audit = .ok _ := audit_eq_ok.mpr ⟨hr, p, vs, hp, hvs, rfl⟩
  rw [fix_bench, haudit]
  rfl

theorem rooted_plan (hs : Sound b.tree) {root : Path}
    (hroot : b.tree.resolve (.ofText path) = .ok root)
    (hdir : (o.backupDirectory.getD sv.auditor.settings.backupDirectory).Proper) :
    (sv.plan root o).Rooted := by
  obtain ⟨habs, hsteps⟩ := Tree.resolve_steps hs hroot
  have hproper : root.Proper := fun name hn => (hsteps name hn).1
  exact ⟨hproper, habs, hproper.join hdir⟩

theorem bench_repair {root : Path} (hroot : b.tree.resolve (.ofText path) = .ok root)
    (vs : List Verdict) :
    (sv.repair b path vs o).1 = (Repair.repairAll (sv.plan root o) ⟨b, []⟩ vs).1.bench :=
  Repair.bench_repair hroot

theorem of_repair {root : Path} (hroot : b.tree.resolve (.ofText path) = .ok root)
    {vs : List Verdict} {summary : RepairSummary} (h : (sv.repair b path vs o).2 = .ok summary) :
    ∃ s, Repair.repairAll (sv.plan root o) ⟨b, []⟩ vs = (s, .ok summary.outcomes) ∧
      summary.packagePath = root.toText ∧ summary.dryRun = o.dryRun ∧ summary.total = vs.length :=
  Repair.of_repair hroot h

/-- **The journal of a fix accounts for what it leaves.** -/
theorem account_fix (hs : Sound b.tree)
    (hdir : (o.backupDirectory.getD sv.auditor.settings.backupDirectory).Proper) :
    Account b.tree (sv.journal b path audit o) (sv.fix b path audit o).1.tree := by
  rw [fix_bench]
  unfold journal
  cases sv.audit b.tree path audit with
  | error f => exact .nil hs
  | ok before =>
    simp only
    cases hroot : b.tree.resolve (.ofText path) with
    | error f =>
      have hr : (sv.repair b path before.fixableViolations o).1 = b := by
        unfold Service.repair PackageAudit.repair
        rw [hroot]
      rw [hr]
      exact .nil hs
    | ok root =>
      rw [bench_repair hroot]
      exact Repair.account_repairAll (rooted_plan hs hroot hdir) (s := ⟨b, []⟩) hs _

theorem of_mem_journal {c : Change} (h : c ∈ sv.journal b path audit o) :
    ∃ before root, sv.audit b.tree path audit = .ok before ∧
      b.tree.resolve (.ofText path) = .ok root ∧
      ∃ x ∈ Repair.performedIn (sv.plan root o) ⟨b, []⟩ before.fixableViolations,
        c ∈ Repair.changesOf (sv.plan root o) x.1 x.2 := by
  unfold journal at h
  split at h
  · next before root hbefore hroot =>
    obtain ⟨x, hx, hc⟩ := List.mem_flatMap.mp h
    exact ⟨before, root, hbefore, hroot, x, hx, hc⟩
  · cases h

/-- The tree and the stamp that an action of a fix is carried out on, and what comes of it. -/
theorem performed_fix (hs : Sound b.tree) {root : Path} {before : Report}
    (hbefore : sv.audit b.tree path audit = .ok before)
    (hroot : b.tree.resolve (.ofText path) = .ok root)
    (hdir : (o.backupDirectory.getD sv.auditor.settings.backupDirectory).Proper)
    {x : Bench × Action}
    (hx : x ∈ Repair.performedIn (sv.plan root o) ⟨b, []⟩ before.fixableViolations) :
    Sound x.1.tree ∧ b.clock ≤ x.1.clock ∧ Tree.Grows b.tree x.1.tree ∧
      Tree.Grows (Repair.perform (sv.plan root o) x.1 x.2).1.tree
        (sv.fix b path audit o).1.tree := by
  have hp : (sv.plan root o).Rooted := rooted_plan hs hroot hdir
  obtain ⟨hsx, hcx, hgx, hg⟩ := Repair.grows_of_performedIn hp (s := ⟨b, []⟩) hs hx
  refine ⟨hsx, hcx, hgx, ?_⟩
  rw [fix_bench, hbefore]
  simp only
  rw [bench_repair hroot]
  exact hg

end

end Service

end PackageAudit
