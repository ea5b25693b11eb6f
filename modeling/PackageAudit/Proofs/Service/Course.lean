import PackageAudit.Proofs.Repair.Carried
import PackageAudit.Proofs.Repair.Limit
import PackageAudit.Proofs.Service.DryRun
import PackageAudit.Proofs.Service.Members

/-! # The course of a run in which nothing fails

What the remedies of a run plan could be said before the run, and so could what becomes of each
violation, although each plan is made for the tree that the ones before have left. `OnCourse` is what a
run keeps in which nothing fails and whose limit leaves room for all the plans.
-/

namespace PackageAudit

open Json (Members Readable againMembers)
open PackageAudit.Tree (Sound NoLinks Grows)

/-- What a summary says of a violation: how it ended, and what was done for it. -/
def RepairOutcome.told (out : RepairOutcome) : Text × RepairStatus × List Text :=
  (out.ruleId, out.status, out.applied)

namespace Repair

/-- Whether a repair is confirmed for which there is a remedy does not depend on the tree. -/
def Steady (p : Plan) (vs : List Verdict) : Prop :=
  ∀ v ∈ vs, p.catalog.risk v.ruleId = .high → (p.remedies.find? v.ruleId).isSome →
    ∀ confirms ∈ p.options.confirms, ∀ t t', confirms t v = confirms t' v

/-- What is said about the steps of the plan for a violation, if there is a plan. -/
def outlineOf (p : Plan) (s : Progress) (v : Verdict) :
    Option (List (Option Text × Text × Bool)) :=
  (planOf p s v).map (·.map Action.outline)

/-- What a summary says of a violation with such a plan. -/
def foretold (v : Verdict) : Option (List (Option Text × Text × Bool)) →
    Text × RepairStatus × List Text
  | none => (v.ruleId, .skipped, [])
  | some steps => (v.ruleId, .success,
      if steps.isEmpty then ["Nothing to change"] else steps.map (·.2.1))

/-- The violation and what is said about the steps of a plan that is carried out. -/
def Carried.outline (x : Carried) : Verdict × List (Option Text × Text × Bool) :=
  (x.violation, x.actions.map Action.outline)

section
variable {p : Plan} {s s' : Progress} {v : Verdict} {vs : List Verdict} {out : RepairOutcome}
  {actions : List Action}

theorem gate_of_steady (h : Steady p vs) (hv : v ∈ vs) (hfind : (p.remedies.find? v.ruleId).isSome)
    (t t' : Tree) : gate p t (p.catalog.risk v.ruleId) v = gate p t' (p.catalog.risk v.ruleId) v := by
  by_cases hrisk : p.catalog.risk v.ruleId = .high
  · have hconfirms : (p.options.confirms.map fun c => c t v) =
        p.options.confirms.map fun c => c t' v := by
      cases hc : p.options.confirms with
      | none => rfl
      | some confirms => exact congrArg some (h v hv hrisk hfind confirms hc t t')
    unfold gate
    simp only [hconfirms]
  · exact gate_of_risk hrisk t t'

theorem planned_eq_planOf (hd : p.options.dryRun = false)
    (hl : ∀ actions, planOf p s v = some actions → ¬ OverLimit p s actions) :
    planned p s v = planOf p s v := by
  cases hplan : planOf p s v with
  | some actions => exact planned_eq_some.mpr ⟨planOf_eq_some.mp hplan, hl actions hplan, hd⟩
  | none =>
    cases hplanned : planned p s v with
    | none => rfl
    | some actions =>
      rw [planOf_eq_some.mpr (planned_eq_some.mp hplanned).1] at hplan
      cases hplan

theorem applied_of_skipped (h : repairOne p s v = (s', .ok out)) (hout : out.status = .skipped) :
    out.applied = [] := by
  cases step_iff.mpr h with
  | held h => rfl
  | unanswered hgate h => rfl
  | gaveUp h => rfl
  | overLimit h hl => rfl
  | foretold h hl hd => cases hout
  | refused h hl hd hall => rfl
  | done h hl hd hall => cases hout

theorem foretold_success (x : Carried) :
    (x.success p).told = foretold x.violation (some (x.actions.map Action.outline)) := by
  simp [RepairOutcome.told, Carried.success, succeeded, foretold, Action.outline, Function.comp_def]

theorem mem_addTargets (actions : List Action) {touched : List (Option Text)} (h : touched.Nodup) :
    (addTargets touched actions).Nodup ∧
      ∀ path ∈ addTargets touched actions, path ∈ touched ∨ path ∈ targets actions := by
  have hadd := addTargets_eraseDups touched actions
  rw [eraseDups_of_nodup h] at hadd
  rw [hadd]
  exact ⟨nodup_eraseDups _, fun path hpath => List.mem_append.mp (List.mem_eraseDups.mp hpath)⟩

end

end Repair

/-! ## The manifest after a success -/

section
variable {p : Repair.Plan} {b b' : Bench} {base : Location} {v : Verdict} {actions : List Action}
  {r : BuiltinRemedy} {ms : Members} {ruleId : Text} {kept : Option Text} (hp : p.Rooted)
  (hst : Stage b.tree p.root base)

include hp hst in
theorem hasManifest_of_written {description : Text} (hms : Readable (.obj ms))
    (h : Repair.performAll p ruleId b none
      (Remedies.writeJson Settings.default.manifestName description ms) = (b', .ok kept)) :
    HasManifest b'.tree base (againMembers ms) := by
  obtain ⟨bytes, k, hbytes, hland, hk⟩ :=
    Repair.written_of_performAll hp ruleId rfl rfl [] hst.sound h
  have hst' := hst.performAll hp ruleId none
    (Remedies.writeJson Settings.default.manifestName description ms)
  rw [h] at hst'
  have hstep : ∀ name ∈ [Settings.default.manifestName], Tree.IsStep name := by decide
  have hpath : p.target Settings.default.manifestName =
      p.root.append [Settings.default.manifestName] := manifestPath_eq p.root
  rw [hpath] at hland
  have hat := hst'.of_landing (List.cons_ne_nil _ _) hstep hland
  have hplain : [Settings.default.manifestName].map Name.plain =
      [Settings.default.manifestName] := by decide
  rw [hplain] at hat
  obtain ⟨bytes', hbytes', hread⟩ := manifestBytes_document hms
  cases hbytes.symm.trans hbytes'
  exact ⟨bytes, hat ▸ hk, hread⟩

include hp hst in
/-- **What a remedy whose plan succeeds makes of the manifest.** -/
theorem hasManifest_of_performAll (h : HasManifest b.tree base ms)
    (hok : r.plan ⟨b.tree, p.root, .default⟩ v = .ok actions)
    (hall : Repair.performAll p ruleId b none actions = (b', .ok kept)) :
    HasManifest b'.tree base (r.rewrite p.root.name ms) := by
  have hfound : Remedies.manifest? ⟨b.tree, p.root, .default⟩ = .ok (some ms) :=
    manifest?_eq_some.mpr (hst.readManifest_iff.mpr h)
  have hreadable := readable_of_manifest? hfound
  have hother : r.way ≠ [Settings.default.manifestName] → HasManifest b'.tree base ms := by
    intro hway
    obtain ⟨old, hk, hold⟩ := h
    have hkept := get?_manifest_performAll hp hst hok hway ruleId none hk
    rw [hall] at hkept
    exact ⟨old, hkept, hold⟩
  cases r with
  | manifest =>
    rcases completeManifest_eq_ok.mp hok with ⟨hnone, -⟩ | ⟨ms', hm, rfl⟩
    · cases hfound.symm.trans hnone
    cases hfound.symm.trans hm
    unfold completion at hall
    unfold BuiltinRemedy.rewrite
    split at hall
    · next hnone =>
      cases hall
      rwa [if_pos hnone]
    · next hsome =>
      rw [if_neg hsome]
      exact hasManifest_of_written hp hst (readable_completed hst.ground.noHigh hreadable) hall
  | buildScript =>
    obtain ⟨ms', hm, rfl⟩ := addBuildScript_eq_ok.mp hok
    cases hfound.symm.trans hm
    exact hasManifest_of_written hp hst (readable_withBuildScript hreadable) hall
  | readme => exact hother (by decide)
  | typeConfig => exact hother (by decide)
  | testDirectory => exact hother (by decide)
  | ignoreFile => exact hother (by decide)

end

/-! ## One violation -/

/-- Plans that complete manifests say the same if the same is missing. -/
theorem outline_of_manifest {site site' : Site} {v : Verdict} {actions actions' : List Action}
    {ms ms' : Members} (hset : site.settings = site'.settings) (hroot : site.root = site'.root)
    (hm : Remedies.manifest? site = .ok (some ms)) (hm' : Remedies.manifest? site' = .ok (some ms'))
    (hmissing : missingTexts site.root.name ms = missingTexts site.root.name ms')
    (h : BuiltinRemedy.manifest.plan site v = .ok actions)
    (h' : BuiltinRemedy.manifest.plan site' v = .ok actions') :
    actions.map Action.outline = actions'.map Action.outline := by
  have hplan : ∀ {site : Site} {ms : Members} {actions : List Action},
      Remedies.manifest? site = .ok (some ms) → BuiltinRemedy.manifest.plan site v = .ok actions →
      actions = completion site ms := by
    intro site ms actions hm h
    rcases completeManifest_eq_ok.mp h with ⟨hnone, -⟩ | ⟨ms', hms', hactions⟩
    · cases hm.symm.trans hnone
    · cases hm.symm.trans hms'
      exact hactions
  rw [hplan hm h, hplan hm' h']
  simp only [completion, ← hroot, ← hset, hmissing]
  split
  · rfl
  · simp [Remedies.writeJson, Action.outline]

/-- What a run has come to, with violations left, in which nothing has failed. What is missing in the
manifest is what was missing in the first one until that is treated, and no other files are counted
than those given. -/
structure OnCourse (p : Repair.Plan) (base : Location) (first ms : Members)
    (files : List (Option Text)) (s : Repair.Progress) (rest : List Verdict) : Prop where
  stage : Stage s.bench.tree p.root base
  manifest : HasManifest s.bench.tree base ms
  missing : ∀ v ∈ rest, v.ruleId = BuiltinRemedy.manifest.ruleId →
    missingTexts p.root.name ms = missingTexts p.root.name first
  nodup : s.touched.Nodup
  counted : ∀ path ∈ s.touched, path ∈ files

section
variable {p : Repair.Plan} {b : Bench} {base : Location} {first ms : Members}
  {files : List (Option Text)} {s s' : Repair.Progress} {v : Verdict} {vs : List Verdict}
  {out : RepairOutcome} (hp : p.Rooted) (hset : p.settings = .default) (hrem : p.remedies = .builtin)
  (hdry : p.options.dryRun = false) (hst : Stage b.tree p.root base)
  (hfirst : HasManifest b.tree base first) (hsteady : Repair.Steady p (v :: vs))

include hset hrem hst hfirst hsteady in
/-- **The plan for a violation says what the one would have said before the run.** -/
theorem OnCourse.outline (h : OnCourse p base first ms files s (v :: vs)) :
    Repair.outlineOf p s v = Repair.outlineOf p ⟨b, []⟩ v := by
  unfold Repair.outlineOf Repair.planOf
  cases hfind : p.remedies.find? v.ruleId with
  | none => cases Repair.gate p s.bench.tree _ v <;> cases Repair.gate p b.tree _ v <;> rfl
  | some remedy =>
    have hsome : (p.remedies.find? v.ruleId).isSome :=
      Option.isSome_iff_exists.mpr ⟨remedy, hfind⟩
    rw [Repair.gate_of_steady hsteady List.mem_cons_self hsome s.bench.tree b.tree, hset]
    cases Repair.gate p b.tree _ v with
    | some reason => rfl
    | none =>
      rw [hrem] at hfind
      obtain ⟨r, -, hr⟩ := List.mem_map.mp (Repair.mem_of_find? hfind)
      obtain ⟨hid, rfl⟩ := Prod.mk.inj hr
      have hms := h.stage.readManifest_iff.mpr h.manifest
      have hms₀ := hst.readManifest_iff.mpr hfirst
      obtain ⟨actions, hok⟩ := exists_plan hms r v
      obtain ⟨actions₀, hok₀⟩ := exists_plan hms₀ r v
      simp only [hok, hok₀]
      refine congrArg some ?_
      by_cases hmanifest : r = .manifest
      · subst hmanifest
        have hfound : Remedies.manifest? ⟨s.bench.tree, p.root, .default⟩ = .ok (some ms) :=
          manifest?_eq_some.mpr hms
        have hfound₀ : Remedies.manifest? ⟨b.tree, p.root, .default⟩ = .ok (some first) :=
          manifest?_eq_some.mpr hms₀
        exact outline_of_manifest (by rfl) (by rfl) hfound hfound₀ (h.missing v List.mem_cons_self hid.symm)
          hok hok₀
      · exact outline_of_plan hmanifest (by rfl) hok hok₀

include hset hrem hst hfirst hsteady in
theorem OnCourse.targets (h : OnCourse p base first ms files s (v :: vs))
    (hfiles : ∀ actions, Repair.planOf p ⟨b, []⟩ v = some actions →
      ∀ path ∈ Repair.targets actions, path ∈ files) {actions : List Action}
    (hplan : Repair.planOf p s v = some actions) : ∀ path ∈ Repair.targets actions, path ∈ files := by
  have houtline := h.outline hset hrem hst hfirst hsteady
  unfold Repair.outlineOf at houtline
  rw [hplan, Option.map_some] at houtline
  obtain ⟨actions₀, hplan₀, hsame⟩ := Option.map_eq_some_iff.mp houtline.symm
  rw [targets_congr hsame.symm]
  exact hfiles actions₀ hplan₀

theorem OnCourse.not_overLimit {rest : List Verdict} (h : OnCourse p base first ms files s rest)
    (hlimit : (files.length : Int) ≤ p.limit) {actions : List Action}
    (hfiles : ∀ path ∈ Repair.targets actions, path ∈ files) :
    ¬ Repair.OverLimit p s actions := by
  obtain ⟨hnodup, hmem⟩ := Repair.mem_addTargets actions h.nodup
  have hsub : Repair.addTargets s.touched actions ⊆ files := fun path hpath =>
    (hmem path hpath).elim (h.counted path) (hfiles path)
  have hlength := (List.subperm_of_subset hnodup hsub).length_le
  unfold Repair.OverLimit
  omega

/-- Another remedy than the one that completes it leaves missing what is missing in a manifest. -/
theorem missingTexts_rewrite {r : BuiltinRemedy} (hr : r ≠ .manifest) (root : Text) (ms : Members) :
    missingTexts root (r.rewrite root ms) = missingTexts root ms := by
  cases r with
  | manifest => exact absurd rfl hr
  | buildScript => exact missingTexts_withBuildScript root ms
  | _ => rfl

/-- Without its first violation a run is on course as well. -/
theorem OnCourse.rest (h : OnCourse p base first ms files s (v :: vs)) :
    OnCourse p base first ms files s vs :=
  ⟨h.stage, h.manifest, fun v' hv' => h.missing v' (List.mem_cons_of_mem v hv'), h.nodup, h.counted⟩

include hp hset hrem in
theorem OnCourse.success (h : OnCourse p base first ms files s (v :: vs))
    (hnodup : v.ruleId ∉ vs.map (·.ruleId)) {actions : List Action}
    (hplan : Repair.planned p s v = some actions)
    (hfiles : ∀ path ∈ Repair.targets actions, path ∈ files) {kept : Option Text}
    (hresult : Repair.performAll p v.ruleId s.bench none actions = (s'.bench, .ok kept))
    (hone : Repair.repairOne p s v = (s', .ok out)) :
    OnCourse p base first (rewriteFor p.root.name ms v) files s' vs := by
  obtain ⟨r, hrule, hok⟩ := exists_remedy hset hrem hplan
  have hmanifest := hasManifest_of_performAll hp h.stage h.manifest hok hresult
  have hstage := h.stage.repairOne hp v
  have htouched := @Repair.touched_repairOne p s v
  rw [hone, Repair.acceptedFor_of_planned hplan] at htouched
  rw [hone] at hstage
  obtain ⟨hdistinct, hmem⟩ := Repair.mem_addTargets actions h.nodup
  rw [rewriteFor_of_ruleId hrule]
  refine ⟨hstage, hmanifest, fun v' hv' hid' => ?_, by rw [htouched]; exact hdistinct, ?_⟩
  · have hother : r ≠ .manifest := by
      rintro rfl
      exact hnodup (List.mem_map.mpr ⟨v', hv', hid'.trans hrule.symm⟩)
    rw [missingTexts_rewrite hother]
    exact h.missing v' (List.mem_cons_of_mem v hv') hid'
  · rw [htouched]
    exact fun path hpath => (hmem path hpath).elim (h.counted path) (hfiles path)

include hp hset hrem hdry hst hfirst hsteady in
/-- **One step of a run in which nothing fails** ends as foretold. -/
theorem OnCourse.repairOne (h : OnCourse p base first ms files s (v :: vs))
    (hnodup : v.ruleId ∉ vs.map (·.ruleId))
    (hfiles : ∀ actions, Repair.planOf p ⟨b, []⟩ v = some actions →
      ∀ path ∈ Repair.targets actions, path ∈ files)
    (hlimit : (files.length : Int) ≤ p.limit) (hone : Repair.repairOne p s v = (s', .ok out))
    (hout : out.status ≠ .failed) :
    OnCourse p base first
        (if (Repair.outlineOf p ⟨b, []⟩ v).isSome then rewriteFor p.root.name ms v else ms) files s' vs ∧
      (Repair.carriedFor p s v).map Repair.Carried.outline =
        ((Repair.outlineOf p ⟨b, []⟩ v).map (Prod.mk v)).toList ∧
      out.told = Repair.foretold v (Repair.outlineOf p ⟨b, []⟩ v) := by
  have htargets : ∀ actions, Repair.planOf p s v = some actions →
      ∀ path ∈ Repair.targets actions, path ∈ files := fun actions hplan =>
    h.targets hset hrem hst hfirst hsteady hfiles hplan
  have hplanned := Repair.planned_eq_planOf hdry fun actions hplan =>
    h.not_overLimit hlimit (htargets actions hplan)
  rw [← h.outline hset hrem hst hfirst hsteady]
  unfold Repair.outlineOf
  rcases Repair.repairOne_of_unfailed hdry hone hout with
    ⟨hnone, rfl, hskipped, -⟩ | ⟨x, hfor, -, -, hresult, rfl⟩
  · have hplan : Repair.planOf p s' v = none := by
      unfold Repair.carriedFor at hnone
      rw [hplanned] at hnone
      cases hp' : Repair.planOf p s' v with
      | none => rfl
      | some actions =>
        rw [hp'] at hnone
        cases hnone
    rw [hnone, hplan]
    refine ⟨h.rest, rfl, ?_⟩
    rw [RepairOutcome.told, Repair.ruleId_repairOne hone, hskipped,
      Repair.applied_of_skipped hone hskipped]
    rfl
  · obtain ⟨actions, hactions, rfl⟩ := Option.map_eq_some_iff.mp
      (Option.mem_toList.mp (hfor ▸ List.mem_singleton_self x : x ∈ Repair.carriedFor p s v))
    have hplan := hplanned ▸ hactions
    rw [hfor, hplan, Option.map_some, if_pos Option.isSome_some]
    exact ⟨h.success hp hset hrem hnodup hactions (htargets actions hplan) hresult hone, rfl,
      Repair.foretold_success _⟩

end

/-! ## A run -/

section
variable {p : Repair.Plan} {b : Bench} {base : Location} {first : Members}
  {files : List (Option Text)} {vs : List Verdict} {outs : List RepairOutcome} (hp : p.Rooted)
  (hset : p.settings = .default) (hrem : p.remedies = .builtin) (hdry : p.options.dryRun = false)
  (hst : Stage b.tree p.root base) (hfirst : HasManifest b.tree base first)
  (hlimit : (files.length : Int) ≤ p.limit)

include hp hset hrem hdry hst hfirst hlimit in
/-- **A run in which nothing fails ends as foretold**: it carries out the plans that were foretold, says
what was foretold of each violation, and has rewritten the manifest for each plan in turn. -/
theorem course_repairAll : ∀ {vs : List Verdict} {s s' : Repair.Progress} {ms : Members}
    {outs : List RepairOutcome}, OnCourse p base first ms files s vs → Repair.Steady p vs →
    (vs.map (·.ruleId)).Nodup →
    (∀ v ∈ vs, ∀ actions, Repair.planOf p ⟨b, []⟩ v = some actions →
      ∀ path ∈ Repair.targets actions, path ∈ files) →
    Repair.repairAll p s vs = (s', .ok outs) → (∀ out ∈ outs, out.status ≠ .failed) →
    HasManifest s'.bench.tree base ((vs.filter fun v =>
        (Repair.outlineOf p ⟨b, []⟩ v).isSome).foldl (rewriteFor p.root.name) ms) ∧
      (Repair.carriedIn p s vs).map Repair.Carried.outline =
        vs.filterMap (fun v => (Repair.outlineOf p ⟨b, []⟩ v).map (Prod.mk v)) ∧
      outs.map RepairOutcome.told =
        vs.map fun v => Repair.foretold v (Repair.outlineOf p ⟨b, []⟩ v)
  | [], s, s', ms, outs, h, _, _, _, hall, _ => by
    cases hall
    exact ⟨h.manifest, rfl, rfl⟩
  | v :: vs, s, s', ms, outs, h, hsteady, hnodup, hfiles, hall, hout => by
    obtain ⟨hfresh, hrest⟩ := List.nodup_cons.mp hnodup
    obtain ⟨s₁, out, outs, hone, hothers, rfl⟩ := Repair.repairAll_cons_eq_ok.mp hall
    obtain ⟨hok, hoks⟩ := List.forall_mem_cons.mp hout
    obtain ⟨hnext, hfor, htold⟩ := h.repairOne hp hset hrem hdry hst hfirst hsteady hfresh
      (hfiles v List.mem_cons_self) hlimit hone hok
    obtain ⟨hmanifest, hcarried, htolds⟩ := course_repairAll hnext
      (fun v' hv' => hsteady v' (List.mem_cons_of_mem v hv')) hrest
      (fun v' hv' => hfiles v' (List.mem_cons_of_mem v hv')) hothers hoks
    refine ⟨?_, ?_, ?_⟩
    · rw [List.filter_cons]
      split at hmanifest
      · next hsome => rwa [if_pos hsome, List.foldl_cons]
      · next hnone => rwa [if_neg hnone]
    · rw [Repair.carriedIn, hone, List.map_append, hfor]
      simp only [hcarried, List.filterMap_cons]
      cases Repair.outlineOf p ⟨b, []⟩ v <;> rfl
    · rw [List.map_cons, List.map_cons, htold, htolds]

end

end PackageAudit
