import PackageAudit.Proofs.Service.Agreement

/-! # Dry runs

A dry run makes the same plans as a real one and carries none of them out. It changes nothing, and it
foretells a real run in which nothing fails (`dry_run_predicts`), although each plan of the real run is
made for a tree that the plans before have changed: only what is said about the manifest depends on the
tree, and the manifest comes first.
-/

namespace PackageAudit

/-! ## What a plan says it does -/

/-- What is said about a step of a plan, whatever the content. -/
def Action.outline (a : Action) : Option Text × Text × Bool :=
  (a.path, a.description, a.content.isSome)

section
variable {actions actions' : List Action} (h : actions.map Action.outline = actions'.map Action.outline)

theorem targets_eq_outline : ∀ actions : List Action, Repair.targets actions =
    ((actions.map Action.outline).filter (·.2.2)).map (·.1)
  | [] => rfl
  | a :: rest => by
    have ih := targets_eq_outline rest
    unfold Repair.targets at ih ⊢
    rw [List.filter_cons, List.map_cons, List.filter_cons]
    cases hc : a.content.isSome
    · simpa [Action.outline, hc] using ih
    · simpa [Action.outline, hc] using ih

include h in
theorem targets_congr : Repair.targets actions = Repair.targets actions' := by
  rw [targets_eq_outline, targets_eq_outline, h]

include h in
theorem addTargets_congr (touched : List (Option Text)) :
    Repair.addTargets touched actions = Repair.addTargets touched actions' := by
  unfold Repair.addTargets
  rw [targets_congr h]

include h in
theorem descriptions_congr : actions.map (·.description) = actions'.map (·.description) := by
  have hd := congrArg (List.map fun x => x.2.1) h
  simpa [Action.outline, Function.comp_def] using hd

include h in
theorem isEmpty_congr : actions.isEmpty = actions'.isEmpty := by
  have hd := congrArg List.isEmpty h
  simpa using hd

end

section
variable {site site' : Site} {v : Verdict} {actions actions' : List Action}

/-- **Two plans of a remedy say the same**, whatever trees they are made for; only the one for the
manifest says what is missing in it. -/
theorem outline_of_plan {r : BuiltinRemedy} (hr : r ≠ .manifest)
    (hsettings : site.settings = site'.settings) (h : r.plan site v = .ok actions)
    (h' : r.plan site' v = .ok actions') :
    actions.map Action.outline = actions'.map Action.outline := by
  cases r with
  | manifest => exact absurd rfl hr
  | readme =>
    obtain ⟨name, -, rfl⟩ := writeReadme_eq_ok.mp h
    obtain ⟨name', -, rfl⟩ := writeReadme_eq_ok.mp h'
    simp [Action.outline, hsettings]
  | typeConfig =>
    cases h
    cases h'
    simp [Remedies.writeJson, Action.outline, hsettings]
  | testDirectory =>
    obtain ⟨name, -, rfl⟩ := addTests_eq_ok.mp h
    obtain ⟨name', -, rfl⟩ := addTests_eq_ok.mp h'
    simp [Action.outline]
  | buildScript =>
    obtain ⟨ms, -, rfl⟩ := addBuildScript_eq_ok.mp h
    obtain ⟨ms', -, rfl⟩ := addBuildScript_eq_ok.mp h'
    simp [Remedies.writeJson, Action.outline, hsettings]
  | ignoreFile =>
    cases h
    cases h'
    simp [Action.outline, hsettings]

end

/-! ## One violation -/

/-- An outcome without the place of the backup. -/
def RepairOutcome.withoutBackup (out : RepairOutcome) : RepairOutcome :=
  { out with backupPath := none }

namespace Repair

/-- The plan of a dry run. -/
def Plan.dry (p : Plan) : Plan := { p with options := { p.options with dryRun := true } }

section
variable {p : Plan} {s s' : Progress} {v : Verdict} {actions actions' : List Action}
  {out : RepairOutcome} (b : Bench)

/-- Only a repair of high risk has to be confirmed, and only that may depend on the tree. -/
theorem gate_of_risk {risk : Risk} (h : risk ≠ .high) (t t' : Tree) :
    gate p t risk v = gate p t' risk v := by
  unfold gate
  simp only [h, false_and, if_false]

/-- A plan that is made in a dry run is said to succeed, or goes over the limit. -/
theorem repairOne_dry_of_plans {touched : List (Option Text)}
    (h : Plans p.dry ⟨b, touched⟩ v actions) :
    ∃ touched' out, repairOne p.dry ⟨b, touched⟩ v = (⟨b, touched'⟩, .ok out) ∧
      out.backupPath = none ∧ out.status ≠ .failed := by
  by_cases hlimit : OverLimit p.dry ⟨b, touched⟩ actions
  · exact ⟨_, _, step_iff.mp (.overLimit h hlimit), rfl, nofun⟩
  · exact ⟨_, _, step_iff.mp (.foretold h hlimit rfl), rfl, nofun⟩

/-- A violation is let through in both trees or in neither, and whatever plan is made for it in one
tree, one that says the same is made in the other. -/
def Foretells (p : Plan) (t t' : Tree) (v : Verdict) : Prop :=
  gate p t (p.catalog.risk v.ruleId) v = gate p t' (p.catalog.risk v.ruleId) v ∧
  ∀ remedy actions, p.remedies.find? v.ruleId = some remedy →
    remedy ⟨t', p.root, p.settings⟩ v = .ok actions → ∃ actions',
      remedy ⟨t, p.root, p.settings⟩ v = .ok actions' ∧
        actions.map Action.outline = actions'.map Action.outline

theorem repairOne_dry (hplans : ∀ remedy, p.remedies.find? v.ruleId = some remedy →
      ∃ actions, remedy ⟨b.tree, p.root, p.settings⟩ v = .ok actions)
    (touched : List (Option Text)) :
    ∃ touched' out, repairOne p.dry ⟨b, touched⟩ v = (⟨b, touched'⟩, .ok out) ∧
      out.backupPath = none ∧ out.status ≠ .failed := by
  cases hgate : gate p b.tree (p.catalog.risk v.ruleId) v with
  | some reason => exact ⟨touched, _, step_iff.mp (.held hgate), rfl, nofun⟩
  | none =>
    cases hfind : p.remedies.find? v.ruleId with
    | none => exact ⟨touched, _, step_iff.mp (.unanswered hgate hfind), rfl, nofun⟩
    | some remedy =>
      obtain ⟨actions, hactions⟩ := hplans remedy hfind
      exact repairOne_dry_of_plans b ⟨remedy, ⟨hgate, hfind⟩, hactions⟩

/-- A plan that is foretold is made in the dry run. -/
theorem Foretells.plans (h : Foretells p b.tree s.bench.tree v) (hplans : Plans p s v actions) :
    ∃ actions', Plans p.dry ⟨b, s.touched⟩ v actions' ∧
      actions.map Action.outline = actions'.map Action.outline := by
  obtain ⟨remedy, ⟨hgate, hfind⟩, hmade⟩ := hplans
  obtain ⟨actions', hmade', houtline⟩ := h.2 remedy actions hfind hmade
  exact ⟨actions', ⟨remedy, ⟨h.1.trans hgate, hfind⟩, hmade'⟩, houtline⟩

theorem succeeded_congr (h : actions.map Action.outline = actions'.map Action.outline) (risk : Risk)
    (v : Verdict) (kept : Option Text) :
    succeeded risk v actions kept = succeeded risk v actions' kept := by
  unfold succeeded
  rw [targets_congr h, descriptions_congr h, isEmpty_congr h]

/-- A violation whose repair does not fail ends in a dry run as it does in a real one. -/
theorem repairOne_predicts (hdry : p.options.dryRun = false)
    (hforetells : Foretells p b.tree s.bench.tree v) (hreal : repairOne p s v = (s', .ok out))
    (hok : out.status ≠ .failed) :
    repairOne p.dry ⟨b, s.touched⟩ v = (⟨b, s'.touched⟩, .ok out.withoutBackup) := by
  cases step_iff.mpr hreal with
  | held hgate => exact step_iff.mp (.held (hforetells.1.trans hgate))
  | unanswered hgate hfind => exact step_iff.mp (.unanswered (hforetells.1.trans hgate) hfind)
  | gaveUp hraises => exact absurd rfl hok
  | overLimit hplans hlimit =>
    obtain ⟨actions', hplans', houtline⟩ := hforetells.plans b hplans
    rw [OverLimit, addTargets_congr houtline] at hlimit
    exact step_iff.mp (.overLimit hplans' hlimit)
  | foretold hplans hlimit hd =>
    rw [hdry] at hd
    cases hd
  | done hplans hlimit hd hall =>
    obtain ⟨actions', hplans', houtline⟩ := hforetells.plans b hplans
    rw [OverLimit, addTargets_congr houtline] at hlimit
    have hone := step_iff.mp (.foretold hplans' hlimit rfl)
    rw [hone, addTargets_congr houtline, ← succeeded_congr houtline]
    rfl
  | refused hplans hlimit hd hall => exact absurd rfl hok

/-! ## A run -/

/-- A dry run ends with outcomes, of which none is a failure and none has a backup. -/
theorem repairAll_dry : ∀ {vs : List Verdict} (touched : List (Option Text)),
    (∀ v ∈ vs, ∀ remedy, p.remedies.find? v.ruleId = some remedy →
      ∃ actions, remedy ⟨b.tree, p.root, p.settings⟩ v = .ok actions) →
    ∃ touched' outs, repairAll p.dry ⟨b, touched⟩ vs = (⟨b, touched'⟩, .ok outs) ∧
      ∀ out ∈ outs, out.backupPath = none ∧ out.status ≠ .failed
  | [], touched, _ => ⟨touched, [], rfl, nofun⟩
  | v :: vs, touched, hplans => by
    obtain ⟨hv, hvs⟩ := List.forall_mem_cons.mp hplans
    obtain ⟨touched₁, out, hone, hout⟩ := repairOne_dry b hv touched
    obtain ⟨touched₂, outs, hrest, houts⟩ := repairAll_dry touched₁ hvs
    refine ⟨touched₂, out :: outs, ?_, List.forall_mem_cons.mpr ⟨hout, houts⟩⟩
    exact repairAll_cons_eq_ok.mpr ⟨_, _, _, hone, hrest, rfl⟩

/-- The plan for the first violation is foretold in one tree, those for the others in every tree. -/
def ForetellsAll (p : Plan) (t t' : Tree) : List Verdict → Prop
  | [] => True
  | v :: vs => Foretells p t t' v ∧ ∀ v' ∈ vs, ∀ t'', Foretells p t t'' v'

theorem foretellsAll_of_forall {t : Tree} (t' : Tree) : ∀ {vs : List Verdict},
    (∀ v ∈ vs, ∀ t'', Foretells p t t'' v) → ForetellsAll p t t' vs
  | [], _ => trivial
  | v :: _, h => ⟨h v List.mem_cons_self t', fun v' hv' => h v' (List.mem_cons_of_mem v hv')⟩

/-- **The outcomes of a run in which nothing fails are foretold by a dry run.** -/
theorem repairAll_predicts (hdry : p.options.dryRun = false) :
    ∀ {vs : List Verdict} {s s' : Progress} {outs : List RepairOutcome},
      ForetellsAll p b.tree s.bench.tree vs → repairAll p s vs = (s', .ok outs) →
      (∀ out ∈ outs, out.status ≠ .failed) →
      repairAll p.dry ⟨b, s.touched⟩ vs =
        (⟨b, s'.touched⟩, .ok (outs.map RepairOutcome.withoutBackup))
  | [], s, s', outs, _, hreal, _ => by
    cases hreal
    rfl
  | v :: vs, s, s', outs, hplans, hreal, hok => by
    obtain ⟨hv, hvs⟩ := hplans
    obtain ⟨s₁, out, rest, hone, hrest, rfl⟩ := repairAll_cons_eq_ok.mp hreal
    obtain ⟨hout, hrestOk⟩ := List.forall_mem_cons.mp hok
    have hfirst := repairOne_predicts b hdry hv hone hout
    have hothers := repairAll_predicts hdry (foretellsAll_of_forall _ hvs) hrest hrestOk
    exact repairAll_cons_eq_ok.mpr ⟨_, _, _, hfirst, hothers, rfl⟩

end

end Repair

/-! ## A fix -/

section
variable {b : Bench} {path : Text} {audit : AuditOptions} {o : RepairOptions} {root : Path}
  {before : Report}

theorem exists_plan {t : Tree} {ms : Json.Members}
    (hms : readManifest t (manifestPath .default root) = .ok ms) (r : BuiltinRemedy) (v : Verdict) :
    ∃ actions, r.plan ⟨t, root, .default⟩ v = .ok actions := by
  have hfound : Remedies.manifest? ⟨t, root, .default⟩ = .ok (some ms) := manifest?_eq_some.mpr hms
  obtain ⟨name, hname⟩ : ∃ name, Remedies.packageName ⟨t, root, .default⟩ = .ok name := by
    unfold Remedies.packageName
    rw [hfound]
    exact ⟨_, rfl⟩
  cases r with
  | manifest => exact ⟨_, completeManifest_eq_ok.mpr (.inr ⟨ms, hfound, rfl⟩)⟩
  | readme => exact ⟨_, writeReadme_eq_ok.mpr ⟨_, hname, rfl⟩⟩
  | typeConfig => exact ⟨_, rfl⟩
  | testDirectory => exact ⟨_, addTests_eq_ok.mpr ⟨_, hname, rfl⟩⟩
  | buildScript => exact ⟨_, addBuildScript_eq_ok.mpr ⟨ms, hfound, rfl⟩⟩
  | ignoreFile => exact ⟨_, rfl⟩

theorem manifest_first (haudit : Service.standard.audit b.tree path audit = .ok before)
    {v : Verdict} {vs : List Verdict} (hvs : before.fixableViolations = v :: vs) :
    ∀ v' ∈ vs, v'.ruleId ≠ BuiltinRemedy.manifest.ruleId := by
  have hsub : ((v :: vs).map (·.ruleId)).Sublist (BuiltinCheck.all.map fun c => c.rule.id) := by
    rw [← hvs]
    exact (List.filter_sublist.map _).trans (ruleIds_sublist haudit)
  intro v' hv'
  have hmem : v'.ruleId ∈ (BuiltinCheck.all.map fun c => c.rule.id).tail :=
    hsub.tail.subset (List.mem_map_of_mem hv')
  intro hid
  rw [hid] at hmem
  exact absurd hmem (by decide)

/-- What a fix may repair is of no high risk. -/
theorem risk_of_fixable (haudit : Service.standard.audit b.tree path audit = .ok before) {v : Verdict}
    (hv : v ∈ before.fixableViolations) : (Catalog.builtin .default).risk v.ruleId ≠ .high := by
  obtain ⟨hmem, hfixable⟩ := List.mem_filter.mp hv
  obtain ⟨p, -, c, hid, -, hfix⟩ := verdict_builtin haudit hmem
  obtain ⟨-, hrep⟩ := hfix.mp hfixable
  rw [hid]
  cases c with
  | noMockData => exact absurd hrep BuiltinCheck.not_repairable_noMockData
  | securityConfig => exact absurd hrep BuiltinCheck.not_repairable_securityConfig
  | _ => decide

/-- The plans of a fix are foretold in the tree that was audited. -/
theorem foretells_standard {ms : Json.Members}
    (hms : readManifest b.tree (manifestPath .default root) = .ok ms) {t : Tree} {v : Verdict}
    (hrisk : (Catalog.builtin .default).risk v.ruleId ≠ .high)
    (hv : v.ruleId = BuiltinRemedy.manifest.ruleId → t = b.tree) :
    Repair.Foretells (Service.standard.plan root o) b.tree t v := by
  refine ⟨Repair.gate_of_risk hrisk _ t, ?_⟩
  intro remedy actions hfind hmade
  obtain ⟨r, -, hr⟩ := List.mem_map.mp (Repair.mem_of_find? hfind)
  obtain ⟨hid, rfl⟩ := Prod.mk.inj hr
  by_cases hmanifest : r = .manifest
  · obtain rfl := hv (hid.symm.trans (congrArg BuiltinRemedy.ruleId hmanifest))
    exact ⟨actions, hmade, rfl⟩
  · obtain ⟨actions', hactions'⟩ := exists_plan hms r v
    exact ⟨actions', hactions', outline_of_plan hmanifest (by rfl) hmade hactions'⟩

end

/-! ### What a summary counts -/

section
variable {s s' : RepairSummary} (h : s'.outcomes = s.outcomes.map RepairOutcome.withoutBackup)

include h in
theorem ending_congr (e : RepairStatus) : s'.ending e = s.ending e := by
  unfold RepairSummary.ending
  rw [h, List.countP_map]
  rfl

include h in
theorem modifiedFiles_congr : s'.modifiedFiles = s.modifiedFiles := by
  unfold RepairSummary.modifiedFiles
  rw [h, List.filter_map, List.filterMap_map]
  rfl

theorem backups_eq_zero (hnone : ∀ out ∈ s.outcomes, out.backupPath = none) : s.backups = 0 := by
  refine List.countP_eq_zero.mpr fun out hout => ?_
  rw [hnone out hout]
  exact Bool.false_ne_true

end

/-! ## A whole fix -/

section
variable {b : Bench} {path : Text} {audit : AuditOptions} {o : RepairOptions} {root : Path}
  {before : Report} {ms : Json.Members}
  (haudit : Service.standard.audit b.tree path audit = .ok before)
  (hroot : b.tree.resolve (.ofText path) = .ok root)
  (hms : readManifest b.tree (manifestPath .default root) = .ok ms)

include haudit hroot hms in
/-- A dry fix leaves everything as it is and ends with the outcomes of a dry run. -/
theorem fix_dry : ∃ touched foretold,
    Repair.repairAll (Service.standard.plan root { o with dryRun := false }).dry ⟨b, []⟩
      before.fixableViolations = (⟨b, touched⟩, .ok foretold.outcomes) ∧
    foretold.total = before.fixableViolations.length ∧ foretold.backups = 0 ∧
    Service.standard.fix b path audit { o with dryRun := true } = (b, .ok (foretold, before)) := by
  have hplans : ∀ v ∈ before.fixableViolations, ∀ remedy,
      Remedies.builtin.find? v.ruleId = some remedy →
      ∃ actions, remedy ⟨b.tree, root, .default⟩ v = .ok actions := by
    intro v _ remedy hfind
    obtain ⟨r, -, hr⟩ := List.mem_map.mp (Repair.mem_of_find? hfind)
    obtain ⟨-, rfl⟩ := Prod.mk.inj hr
    exact exists_plan hms r v
  obtain ⟨touched, outs, hrun, houts⟩ := @Repair.repairAll_dry
    (Service.standard.plan root { o with dryRun := false }) b before.fixableViolations [] hplans
  refine ⟨touched, ⟨root.toText, true, before.fixableViolations.length, outs⟩, hrun, rfl,
    backups_eq_zero fun out hout => (houts out hout).1, ?_⟩
  have hrepair : Service.standard.repair b path before.fixableViolations { o with dryRun := true } =
      (b, .ok ⟨root.toText, true, before.fixableViolations.length, outs⟩) := by
    have hrun' : Repair.repairAll (Service.standard.plan root { o with dryRun := true }) ⟨b, []⟩
        before.fixableViolations = _ := hrun
    refine (Repair.repair_of_resolve hroot).trans ?_
    unfold Service.plan at hrun'
    rw [hrun']
  unfold Service.fix
  simp only [haudit, hrepair, Bool.true_or, if_true]

include haudit hroot hms in
theorem outcomes_of_fix {summary : RepairSummary} {report : Report}
    (hfix : (Service.standard.fix b path audit { o with dryRun := false }).2 = .ok (summary, report))
    (hok : ∀ out ∈ summary.outcomes, out.status ≠ .failed) :
    summary.total = before.fixableViolations.length ∧ ∃ touched,
      Repair.repairAll (Service.standard.plan root { o with dryRun := false }).dry ⟨b, []⟩
        before.fixableViolations =
          (⟨b, touched⟩, .ok (summary.outcomes.map RepairOutcome.withoutBackup)) := by
  obtain ⟨s, hall, -, -, htotal⟩ := Service.of_repair hroot (Service.of_fix haudit hfix).1
  have hforetells : Repair.ForetellsAll (Service.standard.plan root { o with dryRun := false }) b.tree
      b.tree before.fixableViolations := by
    have hrisk := fun v => risk_of_fixable haudit (v := v)
    cases hvs : before.fixableViolations with
    | nil => exact trivial
    | cons v vs =>
      rw [hvs] at hrisk
      refine ⟨foretells_standard hms (hrisk v List.mem_cons_self) fun _ => rfl, fun v' hv' t =>
        foretells_standard hms (hrisk v' (List.mem_cons_of_mem v hv')) fun hid => ?_⟩
      exact absurd hid (manifest_first haudit hvs v' hv')
  exact ⟨htotal, s.touched, Repair.repairAll_predicts (s := ⟨b, []⟩) b rfl hforetells hall hok⟩

end

/-- **A dry run changes nothing and foretells the real run**, for every package that can be audited,
whatever links are in the tree: it ends with a summary and makes no backup; and if nothing fails in the
real run, its outcomes are those of the real run but for the backups, in the same order, and it counts
the same. -/
theorem dry_run_predicts {b : Bench} {path : Text} {audit : AuditOptions} {o : RepairOptions}
    {before : Report} (haudit : Service.standard.audit b.tree path audit = .ok before) :
    let dry := Service.standard.fix b path audit { o with dryRun := true }
    let real := Service.standard.fix b path audit { o with dryRun := false }
    dry.1 = b ∧ ∃ foretold, dry.2 = .ok (foretold, before) ∧ foretold.backups = 0 ∧
      ∀ summary report, real.2 = .ok (summary, report) →
        (∀ out ∈ summary.outcomes, out.status ≠ .failed) →
        foretold.outcomes = summary.outcomes.map RepairOutcome.withoutBackup ∧
        foretold.total = summary.total ∧ (∀ e, foretold.ending e = summary.ending e) ∧
        foretold.modifiedFiles = summary.modifiedFiles := by
  intro dry real
  obtain ⟨-, p, -, hp, -⟩ := audit_eq_ok.mp haudit
  obtain ⟨root, hroot, hdesc⟩ := describe_eq_ok.mp hp
  obtain ⟨-, -, ms, files, hms, -⟩ := describeAt_eq_ok.mp hdesc
  obtain ⟨touched, foretold, hdry, htotal, hbackups, hfix⟩ := fix_dry (o := o) haudit hroot hms
  refine ⟨congrArg Prod.fst hfix, foretold, congrArg Prod.snd hfix, hbackups,
    fun summary report hreal hok => ?_⟩
  obtain ⟨htotal', touched', hrun⟩ := outcomes_of_fix haudit hroot hms hreal hok
  have houtcomes : foretold.outcomes = summary.outcomes.map RepairOutcome.withoutBackup :=
    Except.ok.inj (Prod.mk.inj (hdry.symm.trans hrun)).2
  exact ⟨houtcomes, htotal.trans htotal'.symm, ending_congr houtcomes, modifiedFiles_congr houtcomes⟩

/-! ### A package with an empty manifest -/

namespace Unfinished

/-- A package whose manifest declares nothing. -/
def bench : Bench :=
  ⟨⟨[(["pkg"], .folder), (["pkg", "package.json"], .file [123, 125])], []⟩, 7⟩

def root : Path := ⟨.root, ["pkg"]⟩

/-- Only the manifest is audited. -/
def audit : AuditOptions :=
  { AuditOptions.default with included := ["MANIFEST_VALID", "BUILD_SCRIPT_REQUIRED"] }

def options : RepairOptions := ⟨false, true, none, none, false, [], [], none⟩

def files : List PackageFile := [⟨"package.json", false, 2, some 1, false⟩]

theorem describe_eq : describe bench.tree .default "/pkg" audit.search =
    .ok (Describe.package .default root [] files) := by
  have hnames : bench.tree.names ["pkg"] = [Text.ofString "package.json"] :=
    Tree.names_of_ordered (by decide) (by decide)
  exact describe_of_names rfl rfl rfl rfl rfl rfl hnames rfl

/-- What is said about the manifest. -/
def verdicts : List Verdict :=
  [Evaluation.verdict BuiltinCheck.manifestValid.rule
      (Check.manifestDeclares .default (Describe.package .default root [] files)),
    Evaluation.verdict BuiltinCheck.buildScript.rule
      (Check.buildScriptDeclared .default (Describe.package .default root [] files))]

theorem verdicts_eq : Service.standard.auditor.verdicts bench.tree
    (Describe.package .default root [] files) audit = .ok verdicts := by
  have h : Service.standard.auditor.verdicts bench.tree (Describe.package .default root [] files)
      audit = evaluate (.builtin .default) bench.tree (Describe.package .default root [] files)
        (.seconds (.ofInt 30)) [BuiltinCheck.manifestValid.rule, BuiltinCheck.buildScript.rule] := by
    rfl
  rw [h]
  rfl

theorem audit_eq : ∃ before, Service.standard.audit bench.tree "/pkg" audit = .ok before ∧
    before.verdicts = verdicts :=
  ⟨_, audit_eq_ok.mpr ⟨rfl, _, _, describe_eq, verdicts_eq, rfl⟩, rfl⟩

theorem repair_eq : ((Service.standard.repair bench "/pkg" (verdicts.filter (·.isFixable))
    options).2.toOption.map fun summary => summary.outcomes.map (·.status)) =
      some [.success, .success] := by decide +kernel

theorem sound : Tree.Sound bench.tree := Tree.sound_of_entries rfl nofun (by decide)

theorem named : Tree.Named bench.tree := ⟨by decide, by decide, by decide, by decide⟩

theorem noLinks : Tree.NoLinks bench.tree := Tree.noLinks_of_entries (by simp [bench])

/-- The fix answers, and nothing fails. -/
theorem fix_eq : ∃ summary report,
    (Service.standard.fix bench "/pkg" audit options).2 = .ok (summary, report) ∧
      summary.outcomes.map (·.status) = [.success, .success] := by
  obtain ⟨before, hbefore, hverdicts⟩ := audit_eq
  have hfixable : before.fixableViolations = verdicts.filter (·.isFixable) := by
    rw [← hverdicts]
    rfl
  obtain ⟨root, base, ms, h, -⟩ := (describe_eq_described sound named noLinks).mp describe_eq
  obtain ⟨-, -, after, -, hafter, -⟩ := audit_fix (o := options) sound named noLinks h hbefore rfl
  obtain ⟨summary, hok, hoks⟩ := Option.map_eq_some_iff.mp repair_eq
  have hrepair := eq_ok_of_toOption hok
  rw [← hfixable] at hrepair
  have hsome : summary.ending .success = 2 := by
    have hcount : summary.ending .success =
        (summary.outcomes.map (·.status)).countP (· == .success) := by
      rw [List.countP_map]
      rfl
    rw [hcount, hoks]
    rfl
  have hif : ¬ (options.dryRun || summary.ending .success == 0) = true := by
    rw [hsome]
    decide
  exact ⟨summary, _, Service.fix_eq_ok.mpr
    ⟨before, hbefore, hrepair, (if_neg hif).mpr ⟨after, hafter, rfl⟩⟩, hoks⟩

end Unfinished

/-- A dry run foretells that the manifest is completed and that a build script is declared. -/
theorem dry_run_predicts_manifest :
    let dry := Service.standard.fix Unfinished.bench "/pkg" Unfinished.audit
      { Unfinished.options with dryRun := true }
    dry.1 = Unfinished.bench ∧ ∃ foretold before summary report, dry.2 = .ok (foretold, before) ∧
      (Service.standard.fix Unfinished.bench "/pkg" Unfinished.audit Unfinished.options).2 =
        .ok (summary, report) ∧
      summary.outcomes.map (·.status) = [.success, .success] ∧
      foretold.outcomes = summary.outcomes.map RepairOutcome.withoutBackup := by
  obtain ⟨before, hbefore, -⟩ := Unfinished.audit_eq
  obtain ⟨hsame, foretold, hdry, -, hpredicts⟩ :=
    @dry_run_predicts Unfinished.bench "/pkg" Unfinished.audit Unfinished.options before hbefore
  obtain ⟨summary, report, hfix, hstatus⟩ := Unfinished.fix_eq
  have hok : ∀ out ∈ summary.outcomes, out.status ≠ .failed := by
    intro out hout
    have hmem : out.status ∈ [RepairStatus.success, .success] := hstatus ▸ List.mem_map_of_mem hout
    revert hmem
    cases out.status <;> decide
  exact ⟨hsame, foretold, before, summary, report, hdry, hfix, hstatus,
    (hpredicts summary report hfix hok).1⟩

end PackageAudit
