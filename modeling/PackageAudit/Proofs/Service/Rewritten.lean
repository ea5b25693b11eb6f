import PackageAudit.Proofs.Service.Landing

/-! # What a run makes of the manifest

Only two remedies write the manifest: one completes its name and version, the other declares a build
script. A run applies them any number of times (`Rewritten`, `manifest_repairAll`), each to what is
read back of the one before.
-/

namespace PackageAudit

open Json (Members Readable PairFree againMembers)
open PackageAudit.Tree (Sound NoLinks Grows)

/-! ## One remedy -/

section
variable {t : Tree} {root : Path} {base : Location} {ms : Members}

/-- Texts that the file system takes have no halves of pairs that could join. -/
theorem noHigh_of_vet {text : Text} (h : Tree.vet text = .ok ()) :
    text.any CodePoint.isHighSurrogate = false := by
  unfold Tree.vet at h
  split at h
  · cases h
  · next hnone =>
    rw [List.any_eq_false]
    intro c hc hhigh
    have hfree := List.findIdx?_eq_none_iff.mp hnone c hc
    simp only [CodePoint.isHighSurrogate, CodePoint.isSurrogate, Name.standsForByte] at hhigh hfree
    simp at hhigh hfree
    omega

theorem Tree.Ground.noHigh (h : t.Ground root base) :
    root.name.any CodePoint.isHighSurrogate = false := by
  unfold Path.name
  cases hlast : root.parts.getLast? with
  | none => rfl
  | some name =>
    exact noHigh_of_vet ((Tree.vet_toText h.isAbsolute).mp h.vetted name (List.mem_of_getLast? hlast))

end

/-! ## Many remedies -/

/-- What a run has made of a manifest, and whether it has declared a build script. Each remedy reads
back what the one before has written. -/
inductive Rewritten (root : Text) : Bool → Members → Members → Prop
  | same (ms : Members) : Rewritten root false ms ms
  | complete {built : Bool} {ms ms' : Members} (h : Rewritten root built ms ms') :
    Rewritten root built ms (againMembers (completed root ms'))
  | build {built : Bool} {ms ms' : Members} (h : Rewritten root built ms ms') :
    Rewritten root true ms (againMembers (withBuildScript ms'))

theorem Rewritten.trans {root : Text} {built built' : Bool} {ms ms' ms'' : Members}
    (h : Rewritten root built ms ms') (h' : Rewritten root built' ms' ms'') :
    Rewritten root (built || built') ms ms'' := by
  induction h' with
  | same => rwa [Bool.or_false]
  | complete _ ih => exact .complete (ih h)
  | build _ ih =>
    rw [Bool.or_true]
    exact .build (ih h)

/-- The manifest in a tree has these members. -/
def HasManifest (t : Tree) (base : Location) (ms : Members) : Prop :=
  ∃ bytes, t.get? (base ++ [Settings.default.manifestName]) = some (.file bytes) ∧
    ManifestBytes bytes ms

theorem Stage.readManifest_iff {t : Tree} {root : Path} {base : Location} {ms : Members}
    (h : Stage t root base) :
    readManifest t (manifestPath .default root) = .ok ms ↔ HasManifest t base ms := by
  obtain ⟨bytes, hread, hk⟩ := h.read_manifest
  rw [readManifest_of_read hread]
  constructor
  · exact fun hms => ⟨bytes, hk, hms⟩
  · rintro ⟨bytes', hk', hms⟩
    cases hk.symm.trans hk'
    exact hms

section
variable {p : Repair.Plan} {b : Bench} {base : Location} {v : Verdict} {actions : List Action}
  {r : BuiltinRemedy} {ms : Members} (hp : p.Rooted) (hst : Stage b.tree p.root base)
  (hok : r.plan ⟨b.tree, p.root, .default⟩ v = .ok actions)

include hp hst hok in
theorem get?_manifest_performAll (hway : r.way ≠ [Settings.default.manifestName]) (ruleId : Text)
    (kept : Option Text) {old : List UInt8}
    (hk : b.tree.get? (base ++ [Settings.default.manifestName]) = some (.file old)) :
    (Repair.performAll p ruleId b kept actions).1.tree.get?
      (base ++ [Settings.default.manifestName]) = some (.file old) := by
  refine (Repair.performAll_induct (motive := fun b' => Stage b'.tree p.root base ∧
    b'.tree.get? (base ++ [Settings.default.manifestName]) = some (.file old)) ruleId ⟨hst, hk⟩ ?_).2
  rintro ⟨b', a⟩ hx ⟨hst', hk'⟩
  have ha := Repair.mem_performed hx
  refine ⟨hst'.perform hp a, ?_⟩
  rcases file_perform hp hst' rfl hok ha .manifest hk' with hsame | ⟨hr, -⟩
  · exact hsame
  · exact absurd hr hway

theorem performAll_singleton (ruleId : Text) (kept : Option Text) (a : Action) :
    (Repair.performAll p ruleId b kept [a]).1 = (Repair.perform p b a).1 ∧
      ∀ new, (Repair.perform p b a).2 = .ok new →
        (Repair.performAll p ruleId b kept [a]).2 = .ok (kept.or new) := by
  rw [Repair.performAll]
  cases Repair.perform p b a with
  | mk b' res =>
    cases res with
    | ok new => exact ⟨rfl, fun _ h => by cases h; rfl⟩
    | error f =>
      refine ⟨?_, by simp⟩
      simp only
      split <;> rfl

include hp hst in
/-- **A document that is written over the manifest is there afterwards**, or the plan has failed and
the manifest is as it was. -/
theorem hasManifest_performAll (h : HasManifest b.tree base ms)
    {description : Text} {ms' : Members} (hms' : Readable (.obj ms'))
    (hok : r.plan ⟨b.tree, p.root, .default⟩ v =
      .ok (Remedies.writeJson Settings.default.manifestName description ms')) (ruleId : Text) :
    let done := Repair.performAll p ruleId b none
      (Remedies.writeJson Settings.default.manifestName description ms')
    HasManifest done.1.tree base ms ∨
      HasManifest done.1.tree base (againMembers ms') ∧ ∃ kept, done.2 = .ok kept := by
  intro done
  obtain ⟨old, hk, hold⟩ := h
  obtain ⟨bytes, hbytes, hread⟩ := manifestBytes_document hms'
  obtain ⟨hbench, hend⟩ := performAll_singleton (p := p) (b := b) ruleId none
    ⟨some Settings.default.manifestName, description, some (Json.document (.obj ms'))⟩
  rw [← Repair.contentBytes_of_ok hbytes] at hread
  rcases file_perform hp hst rfl hok List.mem_cons_self .manifest hk with
    hsame | ⟨-, content, hcontent, hnew, hsucceeds⟩
  · rw [← hbench] at hsame
    exact .inl ⟨old, hsame, hold⟩
  · obtain rfl := Option.some.inj hcontent
    rw [← hbench] at hnew
    obtain ⟨kept, hkept⟩ := hsucceeds bytes hbytes
    exact .inr ⟨⟨_, hnew, hread⟩, _, hend kept hkept⟩

include hp hst hok in
/-- **What the plan of a remedy makes of the manifest.** -/
theorem manifest_performAll (h : HasManifest b.tree base ms) (ruleId : Text) :
    let done := Repair.performAll p ruleId b none actions
    ∃ built ms', HasManifest done.1.tree base ms' ∧ Rewritten p.root.name built ms ms' ∧
      (built = true → r = .buildScript ∧ ∃ kept, done.2 = .ok kept) := by
  have hfound : Remedies.manifest? ⟨b.tree, p.root, .default⟩ = .ok (some ms) :=
    manifest?_eq_some.mpr (hst.readManifest_iff.mpr h)
  have hreadable := readable_of_manifest? hfound
  by_cases hway : r.way = [Settings.default.manifestName]
  · cases r with
    | manifest =>
      rcases completeManifest_eq_ok.mp hok with ⟨hnone, -⟩ | ⟨ms, hm, hplan⟩
      · cases hfound.symm.trans hnone
      cases hfound.symm.trans hm
      unfold completion at hplan
      split at hplan
      · subst hplan
        exact ⟨false, ms, h, .same ms, nofun⟩
      · subst hplan
        have hcompleted := readable_completed hst.ground.noHigh hreadable
        rcases hasManifest_performAll hp hst h hcompleted hok ruleId with hsame | ⟨hnew, -⟩
        · exact ⟨false, ms, hsame, .same ms, nofun⟩
        · exact ⟨false, _, hnew, .complete (.same ms), nofun⟩
    | buildScript =>
      obtain ⟨ms, hm, rfl⟩ := addBuildScript_eq_ok.mp hok
      cases hfound.symm.trans hm
      have hbuilt := readable_withBuildScript hreadable
      rcases hasManifest_performAll hp hst h hbuilt hok ruleId with hsame | ⟨hnew, hend⟩
      · exact ⟨false, ms, hsame, .same ms, nofun⟩
      · exact ⟨true, _, hnew, .build (.same ms), fun _ => ⟨rfl, hend⟩⟩
    | readme => exact absurd hway (by decide)
    | typeConfig => exact absurd hway (by decide)
    | testDirectory => exact absurd hway (by decide)
    | ignoreFile => exact absurd hway (by decide)
  · obtain ⟨old, hk, hold⟩ := h
    exact ⟨false, ms, ⟨old, get?_manifest_performAll hp hst hok hway ruleId none hk, hold⟩, .same ms,
      nofun⟩

end

/-! ## A run -/

/-- The outcomes of a run until it ends, be it with a fault. -/
def Repair.outcomes (p : Repair.Plan) (s : Repair.Progress) : List Verdict → List RepairOutcome
  | [] => []
  | v :: vs =>
    match Repair.repairOne p s v with
    | (_, .error _) => []
    | (s, .ok out) => out :: Repair.outcomes p s vs

theorem Repair.outcomes_eq {p : Repair.Plan} : ∀ {vs : List Verdict} {s s' : Repair.Progress}
    {outs : List RepairOutcome}, Repair.repairAll p s vs = (s', .ok outs) →
    Repair.outcomes p s vs = outs
  | [], s, s', outs, h => by
    cases h
    rfl
  | v :: vs, s, s', outs, h => by
    obtain ⟨s₁, out, rest, hone, hrest, rfl⟩ := Repair.repairAll_cons_eq_ok.mp h
    simp only [Repair.outcomes, hone, Repair.outcomes_eq hrest]

theorem Repair.outcomes_of_repair {cat : Catalog} {remedies : Remedies} {set : Settings} {b : Bench}
    {path : Text} {root : Path} {vs : List Verdict} {o : RepairOptions} {summary : RepairSummary}
    (hroot : b.tree.resolve (.ofText path) = .ok root)
    (h : (repair cat remedies set b path vs o).2 = .ok summary) :
    summary.outcomes = Repair.outcomes ⟨cat, remedies, set, root, o⟩ ⟨b, []⟩ vs := by
  obtain ⟨s, hall, -⟩ := Repair.of_repair hroot h
  exact (Repair.outcomes_eq hall).symm

theorem success_of_planned {p : Repair.Plan} {s : Repair.Progress} {v : Verdict}
    {actions : List Action} (h : Repair.planned p s v = some actions) {kept : Option Text}
    (hall : (Repair.performAll p v.ruleId s.bench none actions).2 = .ok kept) :
    ∃ out, (Repair.repairOne p s v).2 = .ok out ∧ out.ruleId = v.ruleId ∧
      out.status = .success := by
  obtain ⟨hplans, hlimit, hdry⟩ := Repair.planned_eq_some.mp h
  have hone := Repair.step_iff.mp (.done hplans hlimit hdry (Prod.ext rfl hall))
  exact ⟨_, congrArg Prod.snd hone, rfl, rfl⟩

section
variable {p : Repair.Plan} {s : Repair.Progress} {base : Location} {ms : Members} (hp : p.Rooted)
  (hset : p.settings = .default) (hrem : p.remedies = .builtin)

include hp hset hrem in
theorem manifest_repairOne (hst : Stage s.bench.tree p.root base)
    (h : HasManifest s.bench.tree base ms) (v : Verdict) :
    ∃ built ms', HasManifest (Repair.repairOne p s v).1.bench.tree base ms' ∧
      Rewritten p.root.name built ms ms' ∧
      (built = true → ∃ out, (Repair.repairOne p s v).2 = .ok out ∧
        out.ruleId = BuiltinRemedy.buildScript.ruleId ∧ out.status = .success) := by
  rw [Repair.bench_repairOne]
  cases hplanned : Repair.planned p s v with
  | none => exact ⟨false, ms, h, .same ms, nofun⟩
  | some actions =>
    simp only
    obtain ⟨r, hid, hok⟩ := exists_remedy hset hrem hplanned
    obtain ⟨built, ms', hms', hrewritten, hbuilt⟩ := manifest_performAll hp hst hok h v.ruleId
    refine ⟨built, ms', hms', hrewritten, fun hb => ?_⟩
    obtain ⟨rfl, kept, hend⟩ := hbuilt hb
    obtain ⟨out, hout, hrule, hstatus⟩ := success_of_planned hplanned hend
    exact ⟨out, hout, hrule.trans hid, hstatus⟩

include hp hset hrem in
/-- **What a run makes of the manifest**, however it ends: it rewrites it some number of times, and
declares a build script only with a success. -/
theorem manifest_repairAll : ∀ {vs : List Verdict} {s : Repair.Progress} {ms : Members},
    Stage s.bench.tree p.root base → HasManifest s.bench.tree base ms →
    ∃ built ms', HasManifest (Repair.repairAll p s vs).1.bench.tree base ms' ∧
      Rewritten p.root.name built ms ms' ∧
      (built = true → ∃ out ∈ Repair.outcomes p s vs,
        out.ruleId = BuiltinRemedy.buildScript.ruleId ∧ out.status = .success)
  | [], s, ms, _, h => ⟨false, ms, h, .same ms, nofun⟩
  | v :: vs, s, ms, hst, h => by
    obtain ⟨built, ms', hms', hfirst, hbuilt⟩ := manifest_repairOne hp hset hrem hst h v
    have hst' := hst.repairOne hp v
    rw [Repair.repairAll_cons_fst, Repair.outcomes]
    cases hone : Repair.repairOne p s v with
    | mk s' res =>
      rw [hone] at hms' hbuilt hst'
      cases res with
      | error f =>
        refine ⟨built, ms', hms', hfirst, fun hb => ?_⟩
        obtain ⟨out, hout, -⟩ := hbuilt hb
        cases hout
      | ok out =>
        obtain ⟨built', ms'', hms'', hrest, hbuilt'⟩ := @manifest_repairAll vs _ _ hst' hms'
        refine ⟨built || built', ms'', hms'', hfirst.trans hrest, fun hb => ?_⟩
        rcases (Bool.or_eq_true _ _).mp hb with hb | hb
        · obtain ⟨out', hout', hin⟩ := hbuilt hb
          cases hout'
          exact ⟨out, List.mem_cons_self, hin⟩
        · obtain ⟨out', hmem, hin⟩ := hbuilt' hb
          exact ⟨out', List.mem_cons_of_mem out hmem, hin⟩

end

end PackageAudit
