import PackageAudit.Proofs.Service.Agreement

/-! # A second fix

After a fix in which nothing was skipped and nothing has failed no check asks for a repair. What was
asked for passes (`passes_of_success`), and what was not asked for is not asked for now, also where
its check is failed (`not_repairable_fix`). So a second fix considers nothing, leaves everything as it
is and answers with the same report (`fix_idempotent`).
-/

namespace PackageAudit

open PackageAudit.Tree (Sound Named NoLinks)

theorem Repair.ruleIds_repairAll {p : Repair.Plan} (hdry : p.options.dryRun = false) :
    ∀ {vs : List Verdict} {s s' : Repair.Progress} {outs : List RepairOutcome},
      Repair.repairAll p s vs = (s', .ok outs) → outs.map (·.ruleId) = vs.map (·.ruleId)
  | [], s, s', outs, h => by
    cases h
    rfl
  | v :: vs, s, s', outs, h => by
    obtain ⟨s₁, out, rest, hone, hrest, rfl⟩ := Repair.repairAll_cons_eq_ok.mp h
    rw [List.map_cons, List.map_cons, (Repair.of_repairOne hdry hone).1,
      ruleIds_repairAll hdry hrest]

section
variable {t : Tree} {o : SearchOptions} {path : Text} {root : Path} {base : Location}
  {ms : Json.Members}

/-- **A type configuration is asked for** unless there is one that is a text and not blank, whether or
not it declares compiler options. -/
theorem Described.repairable_typeConfig_iff (h : Described t .default o path root base ms)
    (hn : Named t) : BuiltinCheck.typeConfig.Repairable .default t h.package ↔
      ¬ ∃ bytes text, t.get? (base ++ [Settings.default.typeConfigName]) = some (.file bytes) ∧
        Utf8.decode bytes = .ok text ∧ text.isBlank = false := by
  have hlisted : Listing.isListed .default o Settings.default.typeConfigName = true :=
    Listing.isListed_of_not_hidden o (by decide)
  have hfile := h.hasFile_top hn Settings.default.typeConfigName (by decide)
  rw [BuiltinCheck.repairable_typeConfig]
  by_cases hthere : ∃ bytes, t.get? (base ++ [Settings.default.typeConfigName]) = some (.file bytes)
  · obtain ⟨bytes, hk⟩ := hthere
    rw [hfile.mpr ⟨hlisted, bytes, hk⟩, h.textOf_top hn _ (by decide) hlisted hk, hk]
    cases hd : Utf8.decode bytes with
    | error e => simp [Except.toOption, hd]
    | ok text => simp [Except.toOption, hd, Text.isBlank_uniformLineEnds]
  · have hnot : h.package.hasFile Settings.default.typeConfigName = false :=
      Bool.eq_false_iff.mpr fun hhas => hthere (hfile.mp hhas).2
    refine iff_of_true (.inl hnot) ?_
    rintro ⟨bytes, -, hk, -⟩
    exact hthere ⟨bytes, hk⟩

end

section
variable {b : Bench} {path : Text} {audit : AuditOptions} {o : RepairOptions} {root : Path}
  {base : Location} {ms ms' : Json.Members} (hs : Sound b.tree) (hn : Named b.tree)
  (hl : NoLinks b.tree) (hdir : o.backupDirectory = none)
  (h : Described b.tree .default audit.search path root base ms)

include hs hn hl hdir in
theorem not_repairable_readme_fix
    (h' : Described (Service.standard.fix b path audit o).1.tree .default audit.search path root base
      ms')
    (hrep : ¬ BuiltinCheck.readmeExists.Repairable .default b.tree h.package) :
    ¬ BuiltinCheck.readmeExists.Repairable .default (Service.standard.fix b path audit o).1.tree
      h'.package := by
  have hn' := named_fix hs hn hl hdir h
  rw [BuiltinCheck.repairable_readmeExists] at hrep ⊢
  intro hnone
  refine hrep ((h.readme?_eq_none hn).mpr fun name hreadme => ?_)
  refine (h'.readme?_eq_none hn').mp hnone name ((isReadme_fix_iff hs hn hl hdir h fun _ => ?_).mpr
    hreadme)
  rwa [BuiltinCheck.repairable_readmeExists]

include hs hn hl hdir in
theorem not_repairable_typeConfig_fix
    (h' : Described (Service.standard.fix b path audit o).1.tree .default audit.search path root base
      ms')
    (hrep : ¬ BuiltinCheck.typeConfig.Repairable .default b.tree h.package) :
    ¬ BuiltinCheck.typeConfig.Repairable .default (Service.standard.fix b path audit o).1.tree
      h'.package := by
  have honly : ∀ r : BuiltinRemedy, r.way.head? = some Settings.default.typeConfigName →
      r = .typeConfig := by
    intro r
    cases r <;> decide
  have hsame := get?_fix_of_head hs hn hl hdir h (x := Settings.default.typeConfigName) (by decide)
    (fun r hr => honly r hr ▸ hrep) []
  rw [h'.repairable_typeConfig_iff (named_fix hs hn hl hdir h), hsame]
  rwa [h.repairable_typeConfig_iff hn] at hrep

include hs hn hl hdir in
/-- **What was not asked for is not asked for after a fix**, whether its check is passed or is failed
in a way that cannot be repaired. -/
theorem not_repairable_fix (hname : Declarable root.name)
    (h' : Described (Service.standard.fix b path audit o).1.tree .default audit.search path root base
      ms') {c : BuiltinCheck} (hrep : ¬ c.Repairable .default b.tree h.package) :
    ¬ c.Repairable .default (Service.standard.fix b path audit o).1.tree h'.package := by
  have hpassed : ∀ r : BuiltinRemedy, r.check ∈ [.manifestValid, .buildScript, .ignoreFile] →
      ¬ r.check.Repairable .default b.tree h.package →
      ¬ r.check.Repairable .default (Service.standard.fix b path audit o).1.tree h'.package :=
    fun r hr hnot => (passes_fix hs hn hl hdir h hname h'
      (BuiltinCheck.passes_of_not_repairable hr hnot)).not_repairable
  cases c with
  | manifestValid => exact hpassed .manifest (by decide) hrep
  | buildScript => exact hpassed .buildScript (by decide) hrep
  | ignoreFile => exact hpassed .ignoreFile (by decide) hrep
  | readmeExists => exact not_repairable_readme_fix hs hn hl hdir h h' hrep
  | typeConfig => exact not_repairable_typeConfig_fix hs hn hl hdir h h' hrep
  | testDirectory =>
    rw [BuiltinCheck.repairable_testDirectory, find?_testFolders_fix hs hn hl hdir h h' hrep]
    rwa [BuiltinCheck.repairable_testDirectory] at hrep
  | noMockData => exact BuiltinCheck.not_repairable_noMockData
  | fileSize => exact BuiltinCheck.not_repairable_fileSize
  | securityConfig => exact BuiltinCheck.not_repairable_securityConfig

end

/-! ## The second fix -/

theorem Service.fix_of_nothing {sv : Service} {b : Bench} {path : Text} {audit : AuditOptions}
    {o : RepairOptions} {root : Path} {before : Report}
    (hroot : b.tree.resolve (.ofText path) = .ok root)
    (haudit : sv.audit b.tree path audit = .ok before) (hnone : before.fixableViolations = []) :
    sv.fix b path audit o = (b, .ok (⟨root.toText, o.dryRun, 0, []⟩, before)) := by
  have hrepair : sv.repair b path before.fixableViolations o =
      (b, .ok ⟨root.toText, o.dryRun, 0, []⟩) := by
    rw [hnone]
    exact Repair.repair_of_resolve hroot
  exact fix_of_unrepaired haudit hrepair rfl

theorem Service.changes_of_audit {sv : Service} {t : Tree} {path : Text} {audit : AuditOptions}
    {r : Report} (h : sv.audit t path audit = .ok r) : r.changes = none := by
  obtain ⟨-, p, vs, -, -, rfl⟩ := audit_eq_ok.mp h
  rfl

section
variable {b : Bench} {path : Text} {audit : AuditOptions} {o : RepairOptions} {root : Path}
  {base : Location} {ms ms' : Json.Members} {before after : Report} {summary : RepairSummary}
  {report : Report} (hs : Sound b.tree) (hn : Named b.tree) (hl : NoLinks b.tree)
  (hdir : o.backupDirectory = none) (hdry : o.dryRun = false)
  (h : Described b.tree .default audit.search path root base ms)
  (h' : Described (Service.standard.fix b path audit o).1.tree .default audit.search path root base
    ms')
  (haudit : Service.standard.audit b.tree path audit = .ok before)
  (hafter : Service.standard.audit (Service.standard.fix b path audit o).1.tree path audit =
    .ok after)
  (hfix : (Service.standard.fix b path audit o).2 = .ok (summary, report))
  (hdone : ∀ out ∈ summary.outcomes, out.status = .success)

include h hdry haudit hfix in
/-- What could be repaired has an outcome. -/
theorem exists_outcome {v : Verdict} (hv : v ∈ before.verdicts) (hfixable : v.isFixable = true) :
    ∃ out ∈ summary.outcomes, out.ruleId = v.ruleId := by
  obtain ⟨s, hall, -⟩ := Service.of_repair h.resolved (Service.of_fix haudit hfix).1
  have hmem : v.ruleId ∈ before.fixableViolations.map (·.ruleId) :=
    List.mem_map_of_mem (List.mem_filter.mpr ⟨hv, hfixable⟩)
  rw [← Repair.ruleIds_repairAll hdry hall] at hmem
  exact List.mem_map.mp hmem

include hs hn hl hdir hdry h h' haudit hafter hfix hdone in
/-- **After a fix without skips and failures nothing can be repaired.** -/
theorem fixableViolations_fix (hname : Declarable root.name) (hdepth : 1 ≤ audit.search.maxDepth)
    (hids : after.verdicts.map (·.ruleId) = before.verdicts.map (·.ruleId)) :
    after.fixableViolations = [] := by
  have hacc := account_standard path audit hs hdir
  have hp := (describe_eq_described hs hn hl).mpr ⟨root, base, ms, h, rfl⟩
  have hp' := (describe_eq_described hacc.sound (named_fix hs hn hl hdir h)
    (hl.grows hacc.grows)).mpr ⟨root, base, ms', h', rfl⟩
  refine List.filter_eq_nil_iff.mpr fun v hv hfixable => ?_
  obtain ⟨p, hpv, c, hid, -, hrepairable⟩ := verdict_builtin (s := .default) hafter hv
  obtain rfl := Except.ok.inj (hp'.symm.trans hpv)
  obtain ⟨htime, hrep'⟩ := hrepairable.mp hfixable
  by_cases hrep : c.Repairable .default b.tree h.package
  · obtain ⟨w, hw, hwid⟩ := List.mem_map.mp (hids ▸ List.mem_map_of_mem hv)
    have hwfix := (verdict_builtin_of_id haudit hp hw (hwid.trans hid)).2.mpr ⟨htime, hrep⟩
    obtain ⟨out, hout, houtid⟩ := exists_outcome hdry h haudit hfix hw hwfix
    obtain ⟨r, hr, -, -, hrrep, hprovided⟩ :=
      of_success hs hn hl h hname haudit hdir hdry hfix hout (hdone out hout)
    obtain rfl := BuiltinCheck.rule_id_inj ((hid.symm.trans (hwid.symm.trans houtid.symm)).trans hr)
    exact (passes_of_success hs hn hl hdir h hdepth h' hrrep hprovided).not_repairable hrep'
  · exact not_repairable_fix hs hn hl hdir h hname h' hrep hrep'

end

/-- **A second fix does nothing**, in a package without links: if nothing was skipped and nothing has
failed in the first one, the second one considers no violation, leaves the tree as it is, backups
included, and answers with the report of the first. -/
theorem fix_idempotent {b : Bench} {path : Text} {audit : AuditOptions} {o : RepairOptions}
    {root : Path} {summary : RepairSummary} {report : Report} (hs : Sound b.tree)
    (hn : Named b.tree) (hl : NoLinks b.tree) (hroot : b.tree.resolve (.ofText path) = .ok root)
    (hblank : root.name.isBlank = false) (hdepth : 1 ≤ audit.search.maxDepth)
    (hdir : o.backupDirectory = none) (hdry : o.dryRun = false)
    (hfix : (Service.standard.fix b path audit o).2 = .ok (summary, report))
    (hdone : ∀ out ∈ summary.outcomes, out.status ≠ .failed ∧ out.status ≠ .skipped) :
    let once := (Service.standard.fix b path audit o).1
    Service.standard.fix once path audit o =
      (once, .ok (⟨root.toText, false, 0, []⟩, { report with changes := none })) := by
  intro once
  have hall : ∀ out ∈ summary.outcomes, out.status = .success := by
    intro out hout
    obtain ⟨hfailed, hskipped⟩ := hdone out hout
    cases hstatus : out.status with
    | success => rfl
    | failed => exact absurd hstatus hfailed
    | skipped => exact absurd hstatus hskipped
  obtain ⟨before, haudit, hrepair, hreport⟩ := Service.fix_eq_ok.mp hfix
  obtain ⟨base, ms, h, -⟩ := described_of_audit hs hn hl hroot haudit
  have hname : Declarable root.name := ⟨h.ground.noHigh, hblank⟩
  obtain ⟨ms', h', after, hp', hafter, hids⟩ := audit_fix (o := o) hs hn hl h haudit hdir
  have hclean : after.fixableViolations = [] :=
    fixableViolations_fix hs hn hl hdir hdry h h' haudit hafter hfix hall hname hdepth hids
  have hagain := Service.fix_of_nothing (o := o) h'.resolved hafter hclean
  suffices hsame : after = { report with changes := none } by
    rw [hdry, hsame] at hagain
    exact hagain
  rw [hdry, Bool.false_or] at hreport
  split at hreport
  · next hend =>
    -- without a success there was nothing to repair, so the first fix did nothing either
    have hnone : before.fixableViolations = [] := by
      refine List.filter_eq_nil_iff.mpr fun v hv hfixable => ?_
      obtain ⟨out, hout, -⟩ := exists_outcome hdry h haudit hfix hv hfixable
      have hcount := List.countP_eq_zero.mp (beq_iff_eq.mp hend) out hout
      rw [hall out hout] at hcount
      exact hcount rfl
    have hfirst := Service.fix_of_nothing (o := o) hroot haudit hnone
    have hbench : once = b := congrArg Prod.fst hfirst
    change Service.standard.audit once.tree path audit = .ok after at hafter
    rw [hbench, haudit] at hafter
    obtain rfl := Except.ok.inj hafter
    rw [hreport, ← Service.changes_of_audit haudit]
  · obtain ⟨after', hafter', rfl⟩ := hreport
    obtain rfl := Except.ok.inj (hafter.symm.trans hafter')
    rw [← Service.changes_of_audit hafter]

/-! ### A package with a readme that is too short -/

namespace Terse

/-- A package with a short readme and no ignore file. -/
def bench : Bench :=
  ⟨⟨[(["pkg"], .folder), (["pkg", "README.md"], .file [120]),
    (["pkg", "package.json"], .file [123, 125])], []⟩, 7⟩

def root : Path := ⟨.root, ["pkg"]⟩

/-- The readme and the ignore file are audited. -/
def audit : AuditOptions :=
  { AuditOptions.default with included := ["README_EXISTS", "IGNORE_FILE_REQUIRED"] }

def options : RepairOptions := ⟨false, true, none, none, false, [], [], none⟩

def files : List PackageFile :=
  [⟨"README.md", false, 1, some 1, false⟩, ⟨"package.json", false, 2, some 1, false⟩]

theorem describe_eq : describe bench.tree .default "/pkg" audit.search =
    .ok (Describe.package .default root [] files) := by
  have hnames : bench.tree.names ["pkg"] =
      [Text.ofString "README.md", Text.ofString "package.json"] :=
    Tree.names_of_ordered (by decide) (by decide)
  exact describe_of_names rfl rfl rfl rfl rfl rfl hnames rfl

/-- The readme is there and cannot be repaired; the ignore file is missing. -/
def verdicts : List Verdict :=
  [Evaluation.verdict BuiltinCheck.readmeExists.rule
      ((((Outcome.failed "README.md exists but is too short (1 < 50 characters)").about
        "README.md").detailed [("length", .ofNat 1)]).unfixable),
    Evaluation.verdict BuiltinCheck.ignoreFile.rule
      ((Outcome.failed ".gitignore file is missing").about ".gitignore")]

theorem verdicts_eq : Service.standard.auditor.verdicts bench.tree
    (Describe.package .default root [] files) audit = .ok verdicts := by
  have h : Service.standard.auditor.verdicts bench.tree (Describe.package .default root [] files)
      audit = evaluate (.builtin .default) bench.tree (Describe.package .default root [] files)
        (.seconds (.ofInt 30)) [BuiltinCheck.readmeExists.rule, BuiltinCheck.ignoreFile.rule] := by
    rfl
  rw [h]
  rfl

/-- What the repair says. -/
def summary : RepairSummary :=
  ⟨"/pkg", false, 1, [⟨"IGNORE_FILE_REQUIRED", .success, .low, some ".gitignore",
    ["Generated .gitignore"], none, none⟩]⟩

theorem repair_eq : (Service.standard.repair bench "/pkg" (verdicts.filter (·.isFixable))
    options).2 = .ok summary :=
  eq_ok_of_toOption (by decide +kernel)

theorem sound : Sound bench.tree := Tree.sound_of_entries rfl nofun (by decide)

theorem named : Named bench.tree := ⟨by decide, by decide, by decide, by decide⟩

theorem noLinks : NoLinks bench.tree := Tree.noLinks_of_entries (by simp [bench])

theorem audit_eq : ∃ before, Service.standard.audit bench.tree "/pkg" audit = .ok before ∧
    before.fixableViolations = verdicts.filter (·.isFixable) :=
  ⟨_, audit_eq_ok.mpr ⟨rfl, _, _, describe_eq, verdicts_eq, rfl⟩, rfl⟩

theorem fix_eq : ∃ report,
    (Service.standard.fix bench "/pkg" audit options).2 = .ok (summary, report) := by
  obtain ⟨before, haudit, hfixable⟩ := audit_eq
  obtain ⟨root', base, ms, h, -⟩ := (describe_eq_described sound named noLinks).mp describe_eq
  obtain ⟨-, -, after, -, hafter, -⟩ :=
    audit_fix (o := options) sound named noLinks h haudit rfl
  have hrepair := repair_eq
  rw [← hfixable] at hrepair
  exact ⟨_, Service.fix_eq_ok.mpr
    ⟨before, haudit, hrepair, (if_neg (by decide)).mpr ⟨after, hafter, rfl⟩⟩⟩

end Terse

/-- The ignore file is generated and the readme stays too short; a second fix has nothing to do. -/
theorem fix_idempotent_terse : ∃ report,
    let once := (Service.standard.fix Terse.bench "/pkg" Terse.audit Terse.options).1
    (Service.standard.fix Terse.bench "/pkg" Terse.audit Terse.options).2 =
        .ok (Terse.summary, report) ∧
      Service.standard.fix once "/pkg" Terse.audit Terse.options =
        (once, .ok (⟨"/pkg", false, 0, []⟩, { report with changes := none })) := by
  obtain ⟨report, hfix⟩ := Terse.fix_eq
  refine ⟨report, hfix, ?_⟩
  exact @fix_idempotent Terse.bench "/pkg" Terse.audit Terse.options Terse.root Terse.summary report
    Terse.sound Terse.named Terse.noLinks rfl (by decide) (by decide) rfl rfl hfix (by decide)

end PackageAudit
