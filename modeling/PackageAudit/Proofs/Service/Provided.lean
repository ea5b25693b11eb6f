import PackageAudit.Proofs.Repair.Plans
import PackageAudit.Proofs.Repair.Step
import PackageAudit.Proofs.Repair.Written
import PackageAudit.Proofs.Service.Ways

/-! # What repairs provide

A remedy that succeeds provides a file that satisfies its check (`provided_of_success`), and what is
provided for a remedy is kept by the repairs of all other violations (`provided_repairOne`). So after
a run each success is provided for (`provided_repairAll`), whatever was skipped or has failed.
-/

namespace PackageAudit

open PackageAudit.Tree (Sound NoLinks Grows Account IsStep)

namespace Repair

section
variable {p : Plan} {s s' : Progress} {v : Verdict} {out : RepairOutcome}

/-- Every outcome is about the rule of its violation, and a success comes of a plan that was carried
out to its end. -/
theorem of_repairOne (hdry : p.options.dryRun = false) (hone : repairOne p s v = (s', .ok out)) :
    out.ruleId = v.ruleId ∧ (out.status = .success → ∃ actions kept, planned p s v = some actions ∧
      performAll p v.ruleId s.bench none actions = (s'.bench, .ok kept)) := by
  refine ⟨ruleId_repairOne hone, fun hout => ?_⟩
  cases step_iff.mpr hone with
  | held hgate => cases hout
  | unanswered hgate hfind => cases hout
  | gaveUp hraises => cases hout
  | overLimit hplans hl => cases hout
  | foretold hplans hl hd =>
    rw [hdry] at hd
    cases hd
  | done hplans hl hd hall => exact ⟨_, _, planned_eq_some.mpr ⟨hplans, hl, hdry⟩, hall⟩
  | refused hplans hl hd hall => cases hout

end

end Repair

theorem manifestPath_eq (root : Path) :
    manifestPath .default root = root.append [Settings.default.manifestName] := by
  have hstep : ∀ name ∈ [Settings.default.manifestName], IsStep name := by decide
  exact Path.join_ofText_join root fun name hn => (hstep name hn).1

/-- A tree without links in which a package has a manifest. -/
structure Stage (t : Tree) (root : Path) (base : Location) : Prop where
  sound : Sound t
  noLinks : NoLinks t
  ground : t.Ground root base
  isFile : t.isFile (manifestPath .default root) = .ok true

/-- In the package there is a file that satisfies the check that a remedy answers. -/
def Provided (r : BuiltinRemedy) (t : Tree) (base : Location) : Prop :=
  ∃ bytes, t.get? (base ++ r.way) = some (.file bytes) ∧ r.Serves bytes

section
variable {t t' : Tree} {root : Path} {base : Location} {o : RepairOptions}

theorem Stage.grows (h : Stage t root base) (hs : Sound t') (hg : Grows t t') :
    Stage t' root base :=
  ⟨hs, h.noLinks.grows hg, h.ground.grows hg, Tree.isFile_grows hg h.isFile⟩

theorem Stage.of_landing (h : Stage t root base) {names : List Text} (hne : names ≠ [])
    (hn : ∀ name ∈ names, IsStep name) {k : Location} (hk : t.landing (root.append names) = some k) :
    k = base ++ names.map Name.plain :=
  Tree.locate_append h.ground.folder hne hn (h.noLinks.clearWay base names)
    (Tree.landing_eq_some.mp hk)

theorem Stage.status_manifest (h : Stage t root base) :
    ∃ bytes, t.status (manifestPath .default root) =
      .ok (base ++ [Settings.default.manifestName], .file bytes) := by
  obtain ⟨-, l, bytes, hst⟩ := Tree.isFile_eq_true.mp h.isFile
  have hloc := (Tree.status_eq_ok.mp hst).1
  have hstep : ∀ name ∈ [Settings.default.manifestName], IsStep name := by decide
  rw [manifestPath_eq] at hloc
  have hl := Tree.locate_append h.ground.folder (List.cons_ne_nil _ _) hstep
    (h.noLinks.clearWay base _) hloc
  have hplain : Name.plain Settings.default.manifestName = Settings.default.manifestName := by
    decide
  rw [List.map_cons, List.map_nil, hplain] at hl
  exact ⟨bytes, hl ▸ hst⟩

theorem Stage.read_manifest (h : Stage t root base) :
    ∃ bytes, t.read (manifestPath .default root) = .ok bytes ∧
      t.get? (base ++ [Settings.default.manifestName]) = some (.file bytes) := by
  obtain ⟨bytes, hst⟩ := h.status_manifest
  obtain ⟨hv, -⟩ := Tree.isFile_eq_true.mp h.isFile
  exact ⟨bytes, Tree.read_eq_ok.mpr ⟨hv, _, hst⟩, (Tree.status_eq_ok.mp hst).2⟩

theorem Stage.rooted {cat : Catalog} {remedies : Remedies} (h : Stage t root base)
    (hdir : ∀ dir ∈ o.backupDirectory, dir.Proper) :
    Repair.Plan.Rooted ⟨cat, remedies, .default, root, o⟩ := by
  refine ⟨h.ground.proper, h.ground.isAbsolute, h.ground.proper.join ?_⟩
  cases hd : o.backupDirectory with
  | none => exact (by decide : Settings.default.backupDirectory.Proper)
  | some dir => exact hdir dir hd

theorem Stage.proper (h : Stage t root base) (hdir : o.backupDirectory = none) :
    (Service.standard.plan root o).Rooted :=
  h.rooted (by rw [hdir]; exact nofun)

section
variable {p : Repair.Plan} {b : Bench} {s : Repair.Progress} (hp : p.Rooted)

include hp

theorem Stage.perform (hst : Stage b.tree p.root base) (a : Action) :
    Stage (Repair.perform p b a).1.tree p.root base := by
  have hacc := Repair.account_perform hp hst.sound a
  exact hst.grows hacc.sound hacc.grows

theorem Stage.performAll (hst : Stage b.tree p.root base) (ruleId : Text) (kept : Option Text)
    (actions : List Action) :
    Stage (Repair.performAll p ruleId b kept actions).1.tree p.root base := by
  have hacc := Repair.account_performAll hp ruleId hst.sound kept actions
  exact hst.grows hacc.sound hacc.grows

theorem Stage.repairOne (hst : Stage s.bench.tree p.root base) (v : Verdict) :
    Stage (Repair.repairOne p s v).1.bench.tree p.root base := by
  rw [Repair.bench_repairOne]
  split
  · exact hst.performAll hp v.ruleId none _
  · exact hst

theorem Stage.repairAll (hst : Stage s.bench.tree p.root base) (vs : List Verdict) :
    Stage (Repair.repairAll p s vs).1.bench.tree p.root base := by
  have hacc := Repair.account_repairAll hp hst.sound vs
  exact hst.grows hacc.sound hacc.grows

end

/-- Only the two remedies that rewrite the manifest write the same file. -/
theorem eq_of_way_eq {r r' : BuiltinRemedy} (h : r.way = r'.way) :
    r = r' ∨ ((r = .manifest ∨ r = .buildScript) ∧ (r' = .manifest ∨ r' = .buildScript)) := by
  cases r <;> cases r' <;> first
    | exact .inl rfl
    | exact .inr ⟨by decide, by decide⟩
    | exact absurd h (by decide)

theorem way_ne_backup (r : BuiltinRemedy) (names : List Text) :
    r.way ≠ (Settings.default.backupDirectory.parts ++ names).map Name.plain := by
  intro h
  have hhead : r.way.head? = some (Name.plain ".modcomply-backup") := by
    rw [h]
    rfl
  cases r <;> exact absurd hhead (by decide)

/-! ## One plan -/

/-- The plan that is carried out for a violation is made by the remedy of its rule. -/
theorem exists_remedy {p : Repair.Plan} {s : Repair.Progress} (hset : p.settings = .default)
    (hrem : p.remedies = .builtin) {v : Verdict} {actions : List Action}
    (h : Repair.planned p s v = some actions) : ∃ r : BuiltinRemedy, v.ruleId = r.ruleId ∧
      r.plan ⟨s.bench.tree, p.root, .default⟩ v = .ok actions := by
  obtain ⟨remedy, hfind, hok, -, -⟩ := Repair.of_planned h
  rw [hset] at hok
  rw [hrem] at hfind
  obtain ⟨r, -, hr⟩ := List.mem_map.mp (Repair.mem_of_find? hfind)
  obtain ⟨hid, rfl⟩ := Prod.mk.inj hr
  exact ⟨r, hid.symm, hok⟩

section
variable {b b' : Bench} {v : Verdict} {actions : List Action} {r r' : BuiltinRemedy}
  (hst : Stage b.tree root base) (hdir : o.backupDirectory = none)
  (hname : Declarable root.name)

include hst hdir hname in
/-- **What a remedy provides is kept by the plans of the others**, as far as they are carried out. -/
theorem Provided.performAll (h : Provided r b.tree base) (hne : r ≠ r')
    (hok : r'.plan ⟨b.tree, root, .default⟩ v = .ok actions) (ruleId : Text)
    (kept : Option Text) :
    Provided r (Repair.performAll (Service.standard.plan root o) ruleId b kept actions).1.tree
      base := by
  obtain ⟨bytes, hk, hserves⟩ := h
  have hacc := Repair.account_performAll (hst.proper hdir) ruleId hst.sound kept actions
  have hst' := hst.performAll (hst.proper hdir) ruleId kept actions
  by_cases hsame : (Repair.performAll (Service.standard.plan root o) ruleId b kept
      actions).1.tree.get? (base ++ r.way) = some (.file bytes)
  · exact ⟨bytes, hsame, hserves⟩
  · obtain ⟨c, x, hlast, hx, -⟩ := (hacc.get?_ne_iff hk).mp hsame
    have hnew := (hacc.get?_eq_replay (by rw [hk]; exact nofun)).trans (hlast.replay_eq hx _)
    obtain ⟨⟨b₁, a⟩, hmem, hc⟩ := List.mem_flatMap.mp hlast.mem
    have ha := Repair.mem_performed hmem
    have hland := hlast.landing hx
    have hmark := mark_of_change hdir rfl hok ha hc
    generalize hcontent : a.content = content at hmark
    cases hmark with
    | folder names _ => cases hx
    | backups => cases hx
    | backup names hnames bytes =>
      cases hx
      have hfix : FixWay (Settings.default.backupDirectory.parts ++ names) :=
        .backup names fun name hn => (hnames name hn).1
      have hway := hst'.of_landing hfix.ne_nil hfix.isStep hland
      exact absurd (List.append_cancel_left hway) (way_ne_backup r names)
    | content text htext =>
      cases hx
      have hway := hst'.of_landing (FixWay.remedy r').ne_nil r'.isStep_way hland
      rw [r'.plain_way] at hway
      rcases eq_of_way_eq (List.append_cancel_left hway) with heq | ⟨hr, hr'⟩
      · exact absurd heq hne
      · obtain ⟨old, hold, hkold⟩ := hst.read_manifest
        have hman : r.way = [Settings.default.manifestName] := by
          rcases hr with rfl | rfl <;> rfl
        rw [hman, hkold] at hk
        cases hk
        exact ⟨_, hnew, keeps_of_plan hok hname hr hr' ha (hcontent.trans htext) hold hserves⟩

include hst hdir hname in
/-- **A remedy whose plan succeeds provides its file.** -/
theorem provided_of_performAll (hok : r.plan ⟨b.tree, root, .default⟩ v = .ok actions)
    {ruleId : Text} {before kept : Option Text}
    (h : Repair.performAll (Service.standard.plan root o) ruleId b before actions =
      (b', .ok kept)) : Provided r b'.tree base := by
  rcases last_of_plan hok hname with
    ⟨init, last, rfl, hpath, hsome⟩ | ⟨rfl, rfl, ms, hms, hcomplete⟩
  · obtain ⟨content, hcontent⟩ := Option.isSome_iff_exists.mp hsome
    have ha : last ∈ init ++ [last] := List.mem_append_right init List.mem_cons_self
    obtain ⟨names, hne, -, htarget, hway⟩ := target_standard root o rfl hok ha hpath
    obtain rfl := hway hsome
    obtain ⟨bytes, k, hbytes, hland, hk⟩ :=
      Repair.written_of_performAll (hst.proper hdir) ruleId hpath hcontent init hst.sound h
    have hst' := hst.performAll (hst.proper hdir) ruleId before (init ++ [last])
    rw [h] at hst'
    rw [htarget] at hland
    obtain rfl := hst'.of_landing hne r.isStep_way hland
    rw [r.plain_way] at hk
    exact ⟨bytes, hk, serves_of_plan hok hname ha hcontent hbytes⟩
  · cases h
    obtain ⟨bytes, hread, hk⟩ := hst.read_manifest
    have hmanifest := manifest?_eq_some.mp hms
    exact ⟨bytes, hk, ms, (readManifest_of_read hread).mp hmanifest, hcomplete⟩

end

/-! ## A whole run -/

section
variable {s s' : Repair.Progress} {v : Verdict} {vs : List Verdict} {r : BuiltinRemedy}
  (hst : Stage s.bench.tree root base) (hdir : o.backupDirectory = none)
  (hname : Declarable root.name)

include hst hdir hname in
/-- A step of a run keeps what is provided for the other rules. -/
theorem Provided.repairOne (h : Provided r s.bench.tree base) (hne : v.ruleId ≠ r.ruleId) :
    Provided r (Repair.repairOne (Service.standard.plan root o) s v).1.bench.tree base := by
  rw [Repair.bench_repairOne]
  split
  · next actions hplan =>
    obtain ⟨r', hid, hok⟩ := exists_remedy rfl rfl hplan
    exact h.performAll hst hdir hname (fun he => hne (he ▸ hid)) hok v.ruleId none
  · exact h

include hst hdir hname in
/-- A step of a run that succeeds provides for its rule. -/
theorem provided_of_repairOne {out : RepairOutcome} (hdry : o.dryRun = false)
    (h : Repair.repairOne (Service.standard.plan root o) s v = (s', .ok out))
    (hout : out.status = .success) (hid : out.ruleId = r.ruleId) :
    Provided r s'.bench.tree base := by
  obtain ⟨hrule, hsuccess⟩ := Repair.of_repairOne hdry h
  obtain ⟨actions, kept, hplan, hall⟩ := hsuccess hout
  obtain ⟨r', hid', hok⟩ := exists_remedy rfl rfl hplan
  have heq : r' = r := BuiltinRemedy.ruleId_inj (hid'.symm.trans (hrule.symm.trans hid))
  exact provided_of_performAll hst hdir hname (heq ▸ hok) hall

include hdir hname in
/-- **What is provided is kept by a run that has no violation of its rule.** -/
theorem Provided.repairAll : ∀ {vs : List Verdict} {s : Repair.Progress},
    Stage s.bench.tree root base → Provided r s.bench.tree base →
    (∀ v ∈ vs, v.ruleId ≠ r.ruleId) →
    Provided r (Repair.repairAll (Service.standard.plan root o) s vs).1.bench.tree base
  | [], _, _, h, _ => h
  | v :: vs, s, hst, h, hne => by
    have hst' := hst.repairOne (hst.proper hdir) v
    have h' := h.repairOne hst hdir hname (hne v List.mem_cons_self)
    rw [Repair.repairAll_cons_fst]
    split
    · next s' out hone =>
      rw [hone] at hst' h'
      exact Provided.repairAll hst' h' fun v hv => hne v (List.mem_cons_of_mem _ hv)
    · next s' f hone =>
      rw [hone] at h'
      exact h'

include hdir hname in
/-- **After a run each success is provided for**, if each rule has at most one violation. -/
theorem provided_of_repairAll (hdry : o.dryRun = false) {out : RepairOutcome}
    (hout : out.status = .success) (hid : out.ruleId = r.ruleId) :
    ∀ {vs : List Verdict} {s s' : Repair.Progress} {outs : List RepairOutcome},
      Stage s.bench.tree root base → (vs.map (·.ruleId)).Nodup →
      Repair.repairAll (Service.standard.plan root o) s vs = (s', .ok outs) → out ∈ outs →
      Provided r s'.bench.tree base
  | [], s, s', outs, _, _, h, hmem => by
    cases h
    cases hmem
  | v :: vs, s, s', outs, hst, hnodup, h, hmem => by
    rw [List.map_cons, List.nodup_cons] at hnodup
    have hst' := hst.repairOne (hst.proper hdir) v
    obtain ⟨s₁, out₁, outs', hone, hrest, rfl⟩ := Repair.repairAll_cons_eq_ok.mp h
    rw [hone] at hst'
    rcases List.mem_cons.mp hmem with rfl | hmem
    · have hprov := provided_of_repairOne hst hdir hname hdry hone hout hid
      have hothers : ∀ v' ∈ vs, v'.ruleId ≠ r.ruleId := by
        intro v' hv' he
        have hrule := (Repair.of_repairOne hdry hone).1.symm.trans (hid.trans he.symm)
        exact hnodup.1 (hrule ▸ List.mem_map_of_mem hv')
      have hkept := hprov.repairAll hdir hname hst' hothers
      rw [hrest] at hkept
      exact hkept
    · exact provided_of_repairAll hdry hout hid hst' hnodup.2 hrest hmem

end

end

end PackageAudit
