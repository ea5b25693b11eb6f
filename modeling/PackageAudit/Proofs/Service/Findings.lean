import PackageAudit.Proofs.Package.Describe
import PackageAudit.Proofs.Repair.Step
import PackageAudit.Proofs.Service.Journal

/-! # What the report of a fix is about

A fix audits its package again only if a repair has succeeded. A repair that fails may have written
some of its files before, so the first report, which is the answer then, need not be about the tree
that is left. `fix_report_iff` says when it is, and that a repair which has failed half-way is to blame
where it is not.
-/

namespace PackageAudit

namespace Repair

section
variable {p : Plan} {s s' : Progress} {v : Verdict} {out : RepairOutcome}

/-- A violation of a run whose outcome this is, and what its repair leaves of the tree differs from
what it has found. -/
def Changing (p : Plan) (s : Progress) (vs : List Verdict) (out : RepairOutcome) : Prop :=
  ∃ done v rest s', vs = done ++ v :: rest ∧
    repairOne p (repairAll p s done).1 v = (s', .ok out) ∧
    s'.bench.tree ≠ (repairAll p s done).1.bench.tree

/-- A run that changes the tree does so at one of its violations. -/
theorem exists_changing : ∀ {vs : List Verdict} {s s' : Progress} {outs : List RepairOutcome},
    repairAll p s vs = (s', .ok outs) → s'.bench.tree ≠ s.bench.tree →
    ∃ out ∈ outs, Changing p s vs out
  | [], s, s', outs, h, hne => by
    cases h
    exact absurd rfl hne
  | v :: vs, s, s', outs, h, hne => by
    obtain ⟨s₁, out, rest, hone, hrest, rfl⟩ := repairAll_cons_eq_ok.mp h
    by_cases hchanged : s₁.bench.tree = s.bench.tree
    · rw [← hchanged] at hne
      obtain ⟨out', hout', done, w, more, s₃, rfl, hw, hdiff⟩ := exists_changing hrest hne
      have hstart : (repairAll p s (v :: done)).1 = (repairAll p s₁ done).1 := by
        rw [repairAll_cons_fst, hone]
      refine ⟨out', List.mem_cons_of_mem out hout', v :: done, w, more, s₃, rfl, ?_⟩
      rw [hstart]
      exact ⟨hw, hdiff⟩
    · exact ⟨out, List.mem_cons_self, [], v, vs, s₁, rfl, hone, hchanged⟩

theorem Changing.not_skipped {vs : List Verdict} (h : Changing p s vs out) :
    out.status ≠ .skipped := by
  obtain ⟨done, v, rest, s', -, hone, hne⟩ := h
  intro hskipped
  exact hne (congrArg (·.bench.tree) (repairOne_of_skipped hone hskipped))

end

end Repair

namespace Service

/-- An audit of the tree finds what the report says. -/
def Finds (sv : Service) (t : Tree) (path : Text) (audit : AuditOptions) (r : Report) : Prop :=
  ∃ now, sv.audit t path audit = .ok now ∧ now.verdicts = r.verdicts ∧ now.score = r.score ∧
    now.status = r.status

section
variable {sv : Service} {b : Bench} {path : Text} {audit : AuditOptions} {o : RepairOptions}
  {summary : RepairSummary} {report : Report}

theorem ending_success_eq_zero : summary.ending .success = 0 ↔
    ∀ out ∈ summary.outcomes, out.status ≠ .success := by
  unfold RepairSummary.ending
  rw [List.countP_eq_zero]
  simp

/-- Where something was repaired the answer is about the tree that is left. -/
theorem finds_of_success (hdry : o.dryRun = false)
    (h : (sv.fix b path audit o).2 = .ok (summary, report))
    (hsome : ∃ out ∈ summary.outcomes, out.status = .success) :
    sv.Finds (sv.fix b path audit o).1.tree path audit report := by
  obtain ⟨before, hbefore, -⟩ := fix_eq_ok.mp h
  have hcount : summary.ending .success ≠ 0 := by
    rw [Ne, ending_success_eq_zero]
    rintro hnone
    obtain ⟨out, hout, hsuccess⟩ := hsome
    exact hnone out hout hsuccess
  obtain ⟨after, hafter, rfl⟩ := (of_fix hbefore h).2 hdry hcount
  exact ⟨after, hafter, rfl, rfl, rfl⟩

/-- Where nothing was repaired the answer is the first report. -/
theorem audit_of_no_success (h : (sv.fix b path audit o).2 = .ok (summary, report))
    (hnone : ∀ out ∈ summary.outcomes, out.status ≠ .success) :
    sv.audit b.tree path audit = .ok report := by
  obtain ⟨before, hbefore, -, hreport⟩ := fix_eq_ok.mp h
  have hend : (o.dryRun || summary.ending .success == 0) = true := by
    rw [ending_success_eq_zero.mpr hnone]
    exact Bool.or_true _
  rw [if_pos hend] at hreport
  rw [hbefore, hreport]

/-- A fix that repairs nothing and yet changes the tree has a repair that failed half-way. -/
theorem exists_failed (h : (sv.fix b path audit o).2 = .ok (summary, report))
    (hnone : ∀ out ∈ summary.outcomes, out.status ≠ .success)
    (hchanged : (sv.fix b path audit o).1.tree ≠ b.tree) :
    ∃ root, b.tree.resolve (.ofText path) = .ok root ∧ ∃ out ∈ summary.outcomes,
      out.status = .failed ∧
        Repair.Changing (sv.plan root o) ⟨b, []⟩ report.fixableViolations out := by
  have hbefore := audit_of_no_success h hnone
  obtain ⟨before, haudit, hrepair, -⟩ := fix_eq_ok.mp h
  obtain rfl := Except.ok.inj (hbefore.symm.trans haudit)
  rw [fix_bench, hbefore] at hchanged
  cases hroot : b.tree.resolve (.ofText path) with
  | error f =>
    unfold repair PackageAudit.repair at hrepair
    rw [hroot] at hrepair
    cases hrepair
  | ok root =>
    simp only at hchanged
    rw [bench_repair hroot] at hchanged
    obtain ⟨s, hall, -⟩ := of_repair hroot hrepair
    rw [hall] at hchanged
    obtain ⟨out, hout, hchanging⟩ := Repair.exists_changing hall hchanged
    refine ⟨root, rfl, out, hout, ?_, hchanging⟩
    cases hstatus : out.status with
    | success => exact absurd hstatus (hnone out hout)
    | failed => rfl
    | skipped => exact absurd hstatus hchanging.not_skipped

end

end Service

/-- **When the report of a fix is about the tree that it leaves**, for every catalog, all checks and
remedies and every tree: if and only if some repair has succeeded, or the first report, which is the
answer then, still holds. Where it is not about that tree, a repair has changed the tree and failed
afterwards. -/
theorem fix_report_iff {sv : Service} {b : Bench} {path : Text} {audit : AuditOptions}
    {o : RepairOptions} {summary : RepairSummary} {report : Report} (hdry : o.dryRun = false)
    (h : (sv.fix b path audit o).2 = .ok (summary, report)) :
    let left := (sv.fix b path audit o).1.tree
    (sv.Finds left path audit report ↔
      (∃ out ∈ summary.outcomes, out.status = .success) ∨
        ∃ first, sv.audit b.tree path audit = .ok first ∧ sv.Finds left path audit first) ∧
    (¬ sv.Finds left path audit report → sv.audit b.tree path audit = .ok report ∧
      ∃ root, b.tree.resolve (.ofText path) = .ok root ∧ ∃ out ∈ summary.outcomes,
        out.status = .failed ∧
          Repair.Changing (sv.plan root o) ⟨b, []⟩ report.fixableViolations out) := by
  intro left
  by_cases hsome : ∃ out ∈ summary.outcomes, out.status = .success
  · have hfinds := Service.finds_of_success hdry h hsome
    exact ⟨iff_of_true hfinds (.inl hsome), fun hnot => absurd hfinds hnot⟩
  · have hnone : ∀ out ∈ summary.outcomes, out.status ≠ .success :=
      fun out hout hsuccess => hsome ⟨out, hout, hsuccess⟩
    have hfirst := Service.audit_of_no_success h hnone
    refine ⟨⟨fun hfinds => .inr ⟨report, hfirst, hfinds⟩, fun hor => ?_⟩, fun hnot =>
      ⟨hfirst, Service.exists_failed h hnone fun hsame => hnot ?_⟩⟩
    · rcases hor with hsuccess | ⟨first, hagain, hfinds⟩
      · exact absurd hsuccess hsome
      · exact Except.ok.inj (hfirst.symm.trans hagain) ▸ hfinds
    · exact ⟨report, (congrArg (sv.audit · path audit) hsame).trans hfirst, rfl, rfl, rfl⟩

/-! ### A repair that fails at its second file -/

namespace Halfway

/-- A remedy that writes the type configuration and then a file below the manifest, which is no
directory. -/
def remedy : Remedy := fun _ _ => .ok
  [⟨some "tsconfig.json", "Wrote the configuration", some "'compilerOptions':"⟩,
    ⟨some "package.json/x", "Wrote below a file", some "y"⟩]

def service : Service := ⟨.builtin .default, Remedies.builtin.put "TYPE_CONFIG_REQUIRED" remedy⟩

/-- A package without a type configuration. -/
def bench : Bench :=
  ⟨⟨[(["pkg"], .folder), (["pkg", "package.json"], .file [123, 125])], []⟩, 7⟩

/-- The package with the type configuration. -/
def left : Bench :=
  ⟨⟨[(["pkg"], .folder), (["pkg", "package.json"], .file [123, 125]),
    (["pkg", "tsconfig.json"], .file [39, 99, 111, 109, 112, 105, 108, 101, 114, 79, 112, 116, 105,
      111, 110, 115, 39, 58])], []⟩, 7⟩

def root : Path := ⟨.root, ["pkg"]⟩

/-- Only the type configuration is audited. -/
def audit : AuditOptions := { AuditOptions.default with included := ["TYPE_CONFIG_REQUIRED"] }

def options : RepairOptions := ⟨false, false, none, none, false, [], [], none⟩

def manifest : PackageFile := ⟨"package.json", false, 2, some 1, false⟩

theorem describe_eq : describe bench.tree .default "/pkg" audit.search =
    .ok (Describe.package .default root [] [manifest]) := by
  have hnames : bench.tree.names ["pkg"] = [Text.ofString "package.json"] :=
    Tree.names_of_ordered (by decide) (by decide)
  exact describe_of_names rfl rfl rfl rfl rfl rfl hnames rfl

def leftFiles : List PackageFile := [manifest, ⟨"tsconfig.json", false, 18, some 1, false⟩]

theorem describe_left : describe left.tree .default "/pkg" audit.search =
    .ok (Describe.package .default root [] leftFiles) := by
  have hnames : left.tree.names ["pkg"] =
      [Text.ofString "package.json", Text.ofString "tsconfig.json"] :=
    Tree.names_of_ordered (by decide) (by decide)
  exact describe_of_names rfl rfl rfl rfl rfl rfl hnames rfl

def missing : Verdict :=
  Evaluation.verdict BuiltinCheck.typeConfig.rule
    ((Outcome.failed "tsconfig.json file is missing").about "tsconfig.json")

def present : Verdict :=
  Evaluation.verdict BuiltinCheck.typeConfig.rule
    ((Outcome.passed "tsconfig.json exists and has compilerOptions").about "tsconfig.json")

theorem audit_eq : ∃ before, service.audit bench.tree "/pkg" audit = .ok before ∧
    before.verdicts = [missing] ∧ before.fixableViolations = [missing] :=
  ⟨_, audit_eq_ok.mpr ⟨rfl, _, _, describe_eq, rfl, rfl⟩, rfl, rfl⟩

theorem audit_left : ∃ now, service.audit left.tree "/pkg" audit = .ok now ∧
    now.verdicts = [present] :=
  ⟨_, audit_eq_ok.mpr ⟨rfl, _, _, describe_left, rfl, rfl⟩, rfl⟩

theorem repair_eq : ∃ summary, service.repair bench "/pkg" [missing] options = (left, .ok summary) ∧
    summary.outcomes.map (·.status) = [.failed] := by
  have hleft : (service.repair bench "/pkg" [missing] options).1 = left := by decide +kernel
  have hend : (service.repair bench "/pkg" [missing] options).2.toOption.map
      (fun summary => summary.outcomes.map (·.status)) = some [.failed] := by decide +kernel
  obtain ⟨summary, hok, hfailed⟩ := Option.map_eq_some_iff.mp hend
  exact ⟨summary, Prod.ext hleft (eq_ok_of_toOption hok), hfailed⟩

end Halfway

/-- The type configuration is written and the repair fails, so the report still calls it missing. -/
theorem fix_report_halfway : ∃ summary report,
    (Halfway.service.fix Halfway.bench "/pkg" Halfway.audit Halfway.options).2 =
        .ok (summary, report) ∧ report.verdicts = [Halfway.missing] ∧
      ¬ Halfway.service.Finds Halfway.left.tree "/pkg" Halfway.audit report ∧
      ∃ root, Halfway.bench.tree.resolve (.ofText "/pkg") = .ok root ∧ ∃ out ∈ summary.outcomes,
        out.status = .failed ∧ Repair.Changing (Halfway.service.plan root Halfway.options)
          ⟨Halfway.bench, []⟩ report.fixableViolations out := by
  obtain ⟨before, hbefore, hverdicts, hfixable⟩ := Halfway.audit_eq
  obtain ⟨summary, hrepair, hend⟩ := Halfway.repair_eq
  rw [← hfixable] at hrepair
  have hnone : summary.ending .success = 0 := by
    refine Service.ending_success_eq_zero.mpr fun out hout hsuccess => ?_
    have hmem : RepairStatus.success ∈ summary.outcomes.map (·.status) :=
      hsuccess ▸ List.mem_map_of_mem hout
    rw [hend] at hmem
    cases List.mem_singleton.mp hmem
  have hfix := Service.fix_of_unrepaired hbefore hrepair hnone
  have hnot : ¬ Halfway.service.Finds Halfway.left.tree "/pkg" Halfway.audit before := by
    rintro ⟨now, hnow, hsame, -⟩
    obtain ⟨now', hnow', hpresent⟩ := Halfway.audit_left
    obtain rfl := Except.ok.inj (hnow.symm.trans hnow')
    rw [hpresent, hverdicts] at hsame
    exact absurd (congrArg (·.map (·.status)) hsame) (by decide)
  have hiff := @fix_report_iff Halfway.service Halfway.bench "/pkg" Halfway.audit Halfway.options
    summary before rfl (congrArg Prod.snd hfix)
  rw [congrArg Prod.fst hfix] at hiff
  exact ⟨summary, before, congrArg Prod.snd hfix, hverdicts, hnot, (hiff.2 hnot).2⟩

end PackageAudit
