import PackageAudit.Proofs.Service.Course
import PackageAudit.Proofs.Service.Places

/-! # Repairs commute

In whatever order violations of distinct rules are repaired by the remedies that come with the audit, a
package is left the same outside the backup directory, if nothing fails: `repairs_commute`. What a plan
needs in a run it also needs in the tree before the run (`MadeBy.needs_first`), so another order finds
the same files, makes the same directories and makes backups if the first one does.
-/

namespace PackageAudit

open Json (Members)
open PackageAudit.Tree (Sound NoLinks Grows Change)

theorem Repair.mem_performed_concat {p : Repair.Plan} (ruleId : Text) {b : Bench}
    (kept : Option Text) {init : List Action} {last : Action} {y : Bench × Action}
    (h : y ∈ Repair.performed p b (init ++ [last])) : y ∈ Repair.performed p b init ∨
      (y.2 = last ∧ y.1 = (Repair.performAll p ruleId b kept init).1) := by
  induction init generalizing b kept with
  | nil =>
    rcases Repair.mem_performed_cons.mp h with rfl | ⟨b', backup, -, h⟩
    · exact .inr ⟨rfl, rfl⟩
    · cases h
  | cons a init ih =>
    rcases Repair.mem_performed_cons.mp h with rfl | ⟨b', backup, hpf, h⟩
    · exact .inl List.mem_cons_self
    · rw [Repair.performed_cons_of_ok hpf, Repair.performAll_cons_of_ok hpf]
      exact (ih _ h).imp_left (List.mem_cons_of_mem _)

/-! ## What a plan finds -/

section
variable {p : Repair.Plan} {s : Repair.Progress} {vs : List Verdict} {base : Location} {name : Text}
  {x : Repair.Carried} {r : BuiltinRemedy} {y : Bench × Action} {bytes : List UInt8} (hp : p.Rooted)
  (hset : p.settings = .default) (hrem : p.remedies = .builtin)
  (hst : Stage s.bench.tree p.root base) (hnodup : (vs.map (·.ruleId)).Nodup)

include hp in
/-- A file that a plan finds in the place of the one that it writes was there before the plan. -/
theorem MadeBy.file_before (h : MadeBy p base name r x)
    (hway : r.way ≠ [Settings.default.manifestName])
    (hy : y ∈ Repair.performed p x.bench x.actions) (hsome : y.2.content.isSome)
    (hk : y.1.tree.get? (base ++ r.way) = some (.file bytes)) :
    x.bench.tree.get? (base ++ r.way) = some (.file bytes) := by
  obtain ⟨init, last, hactions, hnone, -, -⟩ := exists_content (by rfl) h.plan hway
  rw [hactions] at hy
  rcases Repair.mem_performed_concat x.violation.ruleId none hy with hy | ⟨-, hbench⟩
  · rw [hnone y.2 (Repair.mem_performed hy)] at hsome
    cases hsome
  · rw [hbench] at hk
    refine (Repair.performAll_induct (motive := fun b => Stage b.tree p.root base ∧
      (b.tree.get? (base ++ r.way) = some (.file bytes) →
        x.bench.tree.get? (base ++ r.way) = some (.file bytes))) _ ⟨h.stage, id⟩ ?_).2 hk
    rintro ⟨b, a⟩ hmem ⟨hst, hback⟩
    have ha := Repair.mem_performed hmem
    refine ⟨hst.perform hp a, fun hk => hback ?_⟩
    exact file_of_perform hp hst (by rfl) h.plan
      (hactions ▸ List.mem_append_left _ ha) r (fun _ => hnone a ha) hk

include hp hset hrem hst hnodup in
/-- It was there before the run, if no other violation is of the rule of the plan. -/
theorem MadeBy.file_first (hx : x ∈ Repair.carriedIn p s vs) (h : MadeBy p base name r x)
    (hway : r.way ≠ [Settings.default.manifestName])
    (hk : x.bench.tree.get? (base ++ r.way) = some (.file bytes)) :
    s.bench.tree.get? (base ++ r.way) = some (.file bytes) := by
  obtain ⟨before, after, s₁, outs, hvs, hbefore, hbench, -⟩ := Repair.mem_carriedIn hx
  have hfresh : ∀ v ∈ before, v.ruleId ≠ x.violation.ruleId := by
    intro v hv he
    rw [hvs, List.map_append, List.map_cons] at hnodup
    exact (List.nodup_append.mp hnodup).2.2 _ (List.mem_map_of_mem hv) _ List.mem_cons_self he
  have hend : (Repair.repairAll p s before).1.bench = x.bench := by rw [hbefore, hbench]
  rw [← hend] at hk
  refine (Repair.repairAll_induct (motive := fun b => Stage b.tree p.root base ∧
    (b.tree.get? (base ++ r.way) = some (.file bytes) →
      s.bench.tree.get? (base ++ r.way) = some (.file bytes))) ⟨hst, id⟩ ?_).2 hk
  rintro ⟨b, a⟩ hmem ⟨hst, hback⟩
  obtain ⟨s', v, actions, hv, hplan, ha⟩ := Repair.mem_performedIn hmem
  obtain ⟨r', hrule, hok⟩ := exists_remedy hset hrem hplan
  refine ⟨hst.perform hp a, fun hk => hback ?_⟩
  refine file_of_perform hp hst (by rfl) hok ha r (fun hsame => ?_) hk
  -- the other remedy for the file would be the same, and so would the rule
  rcases eq_of_way_eq hsame with rfl | ⟨-, rfl | rfl⟩
  · exact absurd (hrule.trans h.rule.symm) (hfresh v hv)
  · exact absurd rfl hway
  · exact absurd rfl hway

include hp hset hrem hst hnodup in
/-- **A file that is there when an action writes it was there before the run.** -/
theorem MadeBy.isFile_first (hx : x ∈ Repair.carriedIn p s vs) (h : MadeBy p base name r x)
    (hy : y ∈ Repair.performed p x.bench x.actions) {path : Text} (hpath : y.2.path = some path)
    (hsome : y.2.content.isSome) (hfile : y.1.tree.isFile (p.target path) = .ok true) :
    s.bench.tree.isFile (p.target path) = .ok true := by
  obtain ⟨names, hne, -, htarget, hnames⟩ :=
    target_standard p.root p.options (by rfl) h.plan (Repair.mem_performed hy) hpath
  obtain rfl := hnames hsome
  change p.target path = p.root.append r.way at htarget
  rw [htarget] at hfile ⊢
  by_cases hway : r.way = [Settings.default.manifestName]
  · rw [hway, ← manifestPath_eq]
    exact hst.isFile
  · have hsty := h.stage_performed hp hy
    obtain ⟨hv, l, bytes, hstatus⟩ := Tree.isFile_eq_true.mp hfile
    obtain ⟨hloc, hk⟩ := Tree.status_eq_ok.mp hstatus
    obtain rfl : l = base ++ r.way := by
      have hat := Tree.locate_append hsty.ground.folder hne r.isStep_way
        (hsty.noLinks.clearWay base _) hloc
      rwa [r.plain_way] at hat
    have hk₀ := h.file_first hp hset hrem hst hnodup hx hway (h.file_before hp hway hy hsome hk)
    obtain ⟨-, -, hg, -⟩ := Repair.grows_of_performedIn hp hst.sound
      (Repair.mem_performedIn_iff.mpr ⟨x, hx, hy⟩)
    have hloc₀ := Tree.locate_of_grown hst.sound hsty.noLinks hg
      (fun name hm => (List.mem_append.mp hm).elim (hst.ground.steps name) (r.isStep_way name)) hloc
      (by rw [hk₀]; exact nofun)
    exact Tree.isFile_eq_true.mpr ⟨hv, _, bytes, Tree.status_eq_ok.mpr ⟨hloc₀, hk₀⟩⟩

include hp hset hrem hst hnodup in
/-- **What an action of a plan needs it would need in the tree before the run.** -/
theorem MadeBy.needs_first (hx : x ∈ Repair.carriedIn p s vs) (h : MadeBy p base name r x)
    (hy : y ∈ Repair.performed p x.bench x.actions) {q : Path}
    (hq : Repair.Needs p y.1.tree y.2 q) : Repair.Needs p s.bench.tree y.2 q :=
  hq.congr rfl rfl fun _ hpath hsome hfile =>
    h.isFile_first hp hset hrem hst hnodup hx hy hpath hsome hfile

end

/-! ## Two runs -/

/-- A run of repairs of distinct rules in which each plan is carried out to its end, and which carries
out what could be said before it. -/
structure Repair.Smooth (p : Repair.Plan) (b : Bench) (vs : List Verdict) : Prop where
  nodup : (vs.map (·.ruleId)).Nodup
  ends : ∀ x ∈ Repair.carriedIn p ⟨b, []⟩ vs, (x.result p).2 = .ok (x.kept p)
  carried : (Repair.carriedIn p ⟨b, []⟩ vs).map Repair.Carried.outline =
    vs.filterMap fun v => (Repair.outlineOf p ⟨b, []⟩ v).map (Prod.mk v)

section
variable {p : Repair.Plan} {b : Bench} {vs vs' : List Verdict} {base : Location} {ms : Members}
  {name : Text} {x : Repair.Carried} {r : BuiltinRemedy} {y : Bench × Action} {q : Path}
  (hperm : vs.Perm vs') (hrun : Repair.Smooth p b vs) (hrun' : Repair.Smooth p b vs')

include hperm hrun hrun' in
theorem Repair.Smooth.exists_carried (hx : x ∈ Repair.carriedIn p ⟨b, []⟩ vs) :
    ∃ x' ∈ Repair.carriedIn p ⟨b, []⟩ vs', x'.outline = x.outline := by
  have hmem := List.mem_map_of_mem (f := Repair.Carried.outline) hx
  rw [hrun.carried, (hperm.filterMap _).mem_iff, ← hrun'.carried] at hmem
  obtain ⟨x', hx', houtline⟩ := List.mem_map.mp hmem
  exact ⟨x', hx', houtline⟩

/-- A plan that is carried out to its end carries out each action that is said to be in it. -/
theorem Repair.Carried.exists_performed {x x' : Repair.Carried} (houtline : x'.outline = x.outline)
    (hend : (x'.result p).2 = .ok (x'.kept p)) (hy : y ∈ Repair.performed p x.bench x.actions) :
    ∃ y' ∈ Repair.performed p x'.bench x'.actions, y'.2.outline = y.2.outline := by
  have hmem := List.mem_map_of_mem (f := Action.outline) (Repair.mem_performed hy)
  rw [← (Prod.mk.inj houtline).2] at hmem
  obtain ⟨a, ha, hsame⟩ := List.mem_map.mp hmem
  rw [← (Repair.performed_of_ok hend).1] at ha
  obtain ⟨y', hy', rfl⟩ := List.mem_map.mp ha
  exact ⟨y', hy', hsame⟩

variable (hp : p.Rooted) (hset : p.settings = .default) (hrem : p.remedies = .builtin)
  (hst : Stage b.tree p.root base) (hms : HasManifest b.tree base ms)
  (hname : ms.text? "name" = some name) (hblank : name.isBlank = false)

include hperm hrun hrun' hp hset hrem hst hms hname hblank

/-- **A directory that one run needs is there after the other.** -/
theorem Repair.Smooth.folder_of_needs (hy : y ∈ Repair.performedIn p ⟨b, []⟩ vs)
    (hq : Repair.Needs p y.1.tree y.2 q) :
    ∃ l, (Repair.repairAll p ⟨b, []⟩ vs').1.bench.tree.status q = .ok (l, .folder) := by
  obtain ⟨x, hx, hy⟩ := Repair.mem_performedIn_iff.mp hy
  obtain ⟨r, hr⟩ := exists_madeBy (s := ⟨b, []⟩) hp hset hrem hst hms hname hblank hx
  have hfirst := hr.needs_first hp hset hrem (s := ⟨b, []⟩) hst hrun.nodup hx hy hq
  obtain ⟨x', hx', houtline⟩ := hrun.exists_carried hperm hrun' hx
  obtain ⟨y', hy', hsame⟩ := Repair.Carried.exists_performed houtline (hrun'.ends x' hx') hy
  have hmem := Repair.mem_performedIn_iff.mpr ⟨x', hx', hy'⟩
  obtain ⟨-, -, hg, -⟩ := Repair.grows_of_performedIn (s := ⟨b, []⟩) hp hst.sound hmem
  obtain ⟨⟨kept, hend⟩, -⟩ := ends_of_carried (s := ⟨b, []⟩) hp hst hrun'.ends hx' hy'
  obtain ⟨hpath, -, hcontent⟩ : y'.2.path = y.2.path ∧ y'.2.description = y.2.description ∧
      y'.2.content.isSome = y.2.content.isSome := by
    simpa [Action.outline] using hsame
  exact Repair.folder_of_needs hp hst.sound hmem hend
    (hfirst.congr hpath hcontent fun _ _ _ hfile => Tree.isFile_grows hg hfile)

/-- **The file of a remedy that is carried out is the same after both runs**, if it is not the
manifest. -/
theorem Repair.Smooth.file_eq (hx : x ∈ Repair.carriedIn p ⟨b, []⟩ vs) (hr : MadeBy p base name r x)
    (hway : r.way ≠ [Settings.default.manifestName]) :
    (Repair.repairAll p ⟨b, []⟩ vs).1.bench.tree.get? (base ++ r.way) =
      (Repair.repairAll p ⟨b, []⟩ vs').1.bench.tree.get? (base ++ r.way) := by
  obtain ⟨x', hx', houtline⟩ := hrun.exists_carried hperm hrun' hx
  obtain ⟨r', hr'⟩ := exists_madeBy (s := ⟨b, []⟩) hp hset hrem hst hms hname hblank hx'
  have hviolation : x'.violation = x.violation := (Prod.mk.inj houtline).1
  have hsame : r' = r := by
    refine BuiltinRemedy.ruleId_inj ?_
    rw [← hr'.rule, ← hr.rule, hviolation]
  rw [hsame] at hr'
  rw [file_of_carried (s := ⟨b, []⟩) hp hset hrem hst hms hname hblank hrun.ends hx hr hway,
    file_of_carried (s := ⟨b, []⟩) hp hset hrem hst hms hname hblank hrun'.ends hx' hr' hway]

theorem Repair.Smooth.folder_of_made (hy : y ∈ Repair.performedIn p ⟨b, []⟩ vs)
    (hq : Repair.Needs p y.1.tree y.2 q) {k : Location}
    (hat : (Change.made q).MakesAt (Repair.repairAll p ⟨b, []⟩ vs).1.bench.tree k) :
    (Repair.repairAll p ⟨b, []⟩ vs').1.bench.tree.get? k = some .folder := by
  obtain ⟨l, hl⟩ :=
    hrun.folder_of_needs hperm hrun' hp hset hrem hst hms hname hblank hy hq
  have hst₁ := hst.repairAll (s := ⟨b, []⟩) hp vs
  have hst₂ := hst.repairAll (s := ⟨b, []⟩) hp vs'
  exact hat.folder hst₁.noLinks hst₂.sound hst₂.noLinks (hq.isAbsolute hp) hl

/-- **Two runs of the same repairs leave the same**, except in the backup directory and in the
manifest. -/
theorem Repair.Smooth.entry_eq {k : Location} (hk : k ≠ base ++ [Settings.default.manifestName])
    (hout : ∀ folder, (Repair.repairAll p ⟨b, []⟩ vs).1.bench.tree.status p.backupFolder =
      .ok (folder, .folder) → ¬ folder <+: k) :
    (Repair.repairAll p ⟨b, []⟩ vs).1.bench.tree.get? k =
      (Repair.repairAll p ⟨b, []⟩ vs').1.bench.tree.get? k := by
  have hway : ∀ {r : BuiltinRemedy}, k = base ++ r.way → r.way ≠ [Settings.default.manifestName] :=
    fun he hr => hk (hr ▸ he)
  have hentry := entry_repairAll (s := ⟨b, []⟩) hp hset hrem hst hms hname hblank hrun.ends k
  have hentry' := entry_repairAll (s := ⟨b, []⟩) hp hset hrem hst hms hname hblank hrun'.ends k
  rcases hentry with ⟨x, hx, r, hr, rfl⟩ | ⟨-, -, -, folder, hfolder, hbelow⟩ | hsame
  · exact hrun.file_eq hperm hrun' hp hset hrem hst hms hname hblank hx hr (hway rfl)
  · exact absurd hbelow (hout folder hfolder)
  rcases hentry' with ⟨x, hx, r, hr, rfl⟩ | ⟨y, hy, hq, folder, hfolder, hbelow⟩ | hsame'
  · exact (hrun'.file_eq hperm.symm hrun hp hset hrem hst hms hname hblank hx hr (hway rfl)).symm
  · -- the first run has needed the backup directory as well, which is in the same place
    obtain ⟨l, hl⟩ :=
      hrun'.folder_of_needs hperm.symm hrun hp hset hrem hst hms hname hblank hy hq
    have hst₁ := hst.repairAll (s := ⟨b, []⟩) hp vs
    have hst₂ := hst.repairAll (s := ⟨b, []⟩) hp vs'
    obtain rfl := Tree.locate_agree hst₁.noLinks hst₂.noLinks hp.backupsAbsolute
      (Tree.status_eq_ok.mp hl).1 (Tree.status_eq_ok.mp hfolder).1
    exact absurd hbelow (hout _ hl)
  · rcases hsame with hsame | ⟨hnone, hmade, y, hy, q, hq, hat⟩
    · rcases hsame' with hsame' | ⟨-, hmade, y, hy, q, hq, hat⟩
      · exact hsame.trans hsame'.symm
      · rw [hmade]
        exact hrun'.folder_of_made hperm.symm hrun hp hset hrem hst hms hname hblank hy hq hat
    · rw [hmade]
      exact (hrun.folder_of_made hperm hrun' hp hset hrem hst hms hname hblank hy hq hat).symm

end

/-! ## The repairs of a package -/

theorem nodup_of_readManifest {t : Tree} {path : Path} {ms : Members}
    (h : readManifest t path = .ok ms) : (Members.names ms).Nodup := by
  obtain ⟨text, -, hread⟩ := readManifest_eq_ok.mp h
  exact (Json.readable_of_read hread).1

/-- With the rules that come with the audit no repair has to be confirmed for which there is a
remedy. -/
theorem Repair.steady_builtin {root : Path} {o : RepairOptions} (vs : List Verdict) :
    Repair.Steady ⟨.builtin .default, .builtin, .default, root, o⟩ vs := by
  have hrisk : ∀ r : BuiltinRemedy, (Catalog.builtin .default).risk r.ruleId ≠ .high := by
    intro r
    cases r <;> decide
  intro v _ hhigh hfind
  obtain ⟨remedy, hfind⟩ := Option.isSome_iff_exists.mp hfind
  obtain ⟨r, -, hr⟩ := List.mem_map.mp (Repair.mem_of_find? hfind)
  obtain ⟨hid, -⟩ := Prod.mk.inj hr
  exact absurd (hid ▸ hhigh) (hrisk r)

/-- What two trees have in common after the same repairs: they are the same outside the backup
directory, except that the members of the manifest may come in another order. -/
structure Repair.Agree (p : Repair.Plan) (t t' : Tree) : Prop where
  entry : ∀ k, (∀ e, t.status (manifestPath p.settings p.root) ≠ .ok (k, e)) →
    (∀ folder, t.status p.backupFolder = .ok (folder, .folder) → ¬ folder <+: k) →
    t.get? k = t'.get? k
  manifest : ∃ ms ms', readManifest t (manifestPath p.settings p.root) = .ok ms ∧
    readManifest t' (manifestPath p.settings p.root) = .ok ms' ∧ ms.Perm ms'

section
variable {p : Repair.Plan} {b : Bench} {base : Location} {ms : Members} {name : Text}
  {vs vs' : List Verdict} {files : List (Option Text)} {s s' : Repair.Progress}
  {outs outs' : List RepairOutcome} (hp : p.Rooted) (hset : p.settings = .default)
  (hrem : p.remedies = .builtin) (hdry : p.options.dryRun = false) (hst : Stage b.tree p.root base)
  (hms : HasManifest b.tree base ms) (hlimit : (files.length : Int) ≤ p.limit)

include hp hset hrem hdry hst hms hlimit

/-- What comes of a run in which nothing fails and whose limit leaves room for the files of its
plans. -/
theorem smooth_of_repairAll (hsteady : Repair.Steady p vs) (hnodup : (vs.map (·.ruleId)).Nodup)
    (hfiles : ∀ v ∈ vs, ∀ actions, Repair.planOf p ⟨b, []⟩ v = some actions →
      ∀ path ∈ Repair.targets actions, path ∈ files)
    (hall : Repair.repairAll p ⟨b, []⟩ vs = (s, .ok outs)) (hok : ∀ out ∈ outs, out.status ≠ .failed) :
    Repair.Smooth p b vs ∧
      HasManifest s.bench.tree base ((vs.filter fun v =>
        (Repair.outlineOf p ⟨b, []⟩ v).isSome).foldl (rewriteFor p.root.name) ms) ∧
      outs.map RepairOutcome.told =
        vs.map fun v => Repair.foretold v (Repair.outlineOf p ⟨b, []⟩ v) := by
  have hstart : OnCourse p base ms ms files ⟨b, []⟩ vs :=
    ⟨hst, hms, fun _ _ _ => rfl, List.nodup_nil, nofun⟩
  obtain ⟨hmanifest, hcarried, htold⟩ :=
    course_repairAll hp hset hrem hdry hst hms hlimit hstart hsteady hnodup hfiles hall hok
  exact ⟨⟨hnodup, (Repair.successes_eq hdry hall hok).1, hcarried⟩, hmanifest, htold⟩

/-- **Two runs of the same repairs in which nothing fails agree**, and say the same of each
violation. -/
theorem agree_repairAll (hname : ms.text? "name" = some name) (hblank : name.isBlank = false)
    (hsteady : Repair.Steady p vs) (hnodup : (vs.map (·.ruleId)).Nodup) (hperm : vs.Perm vs')
    (hfiles : ∀ v ∈ vs, ∀ actions, Repair.planOf p ⟨b, []⟩ v = some actions →
      ∀ path ∈ Repair.targets actions, path ∈ files)
    (hall : Repair.repairAll p ⟨b, []⟩ vs = (s, .ok outs)) (hok : ∀ out ∈ outs, out.status ≠ .failed)
    (hall' : Repair.repairAll p ⟨b, []⟩ vs' = (s', .ok outs'))
    (hok' : ∀ out ∈ outs', out.status ≠ .failed) :
    Repair.Agree p s.bench.tree s'.bench.tree ∧ ∃ told : Verdict → Text × RepairStatus × List Text,
      outs.map RepairOutcome.told = vs.map told ∧ outs'.map RepairOutcome.told = vs'.map told := by
  obtain ⟨hsmooth, hmanifest, htold⟩ := smooth_of_repairAll hp hset hrem hdry hst hms hlimit hsteady
    hnodup hfiles hall hok
  obtain ⟨hsmooth', hmanifest', htold'⟩ := smooth_of_repairAll hp hset hrem hdry hst hms hlimit
    (fun v hv => hsteady v (hperm.mem_iff.mpr hv)) ((hperm.map _).nodup_iff.mp hnodup)
    (fun v hv => hfiles v (hperm.mem_iff.mpr hv)) hall' hok'
  have hst₁ := hst.repairAll (s := ⟨b, []⟩) hp vs
  have hst₂ := hst.repairAll (s := ⟨b, []⟩) hp vs'
  rw [hall] at hst₁
  rw [hall'] at hst₂
  have hread := hst₁.readManifest_iff.mpr hmanifest
  have hread' := hst₂.readManifest_iff.mpr hmanifest'
  refine ⟨⟨fun k hk hout => ?_, _, _, hset ▸ hread, hset ▸ hread', ?_⟩, _, htold, htold'⟩
  · obtain ⟨bytes, hat⟩ := hst₁.status_manifest
    have heq := hsmooth.entry_eq hperm hsmooth' hp hset hrem hst hms hname hblank (k := k)
      (fun he => hk (.file bytes) (by rw [hset, he, hat])) (by rw [hall]; exact hout)
    rwa [hall, hall'] at heq
  · exact (same_foldl (hperm.filter _) (.refl ms)).perm (nodup_of_readManifest hread)
      (nodup_of_readManifest hread')

end

/-- **Repairs commute.** Violations of distinct rules are repaired by the remedies that come with the
audit, in a package whose manifest declares a name that is not blank. The limit leaves room for all the
files that the plans name, and no confirmation looks at the tree; with the catalog that comes with the
audit none is asked for (`Repair.steady_builtin`). Then their order makes no difference if nothing fails:
outside the backup directory the package is left the same, up to the order of the members of its
manifest, and each violation is treated alike. -/
theorem repairs_commute {cat : Catalog} {b : Bench} {path : Text} {vs vs' : List Verdict}
    {o : RepairOptions} {root : Path} {ms : Members} {name : Text} {summary summary' : RepairSummary}
    (hs : Sound b.tree) (hl : NoLinks b.tree) (hroot : b.tree.resolve (.ofText path) = .ok root)
    (hms : readManifest b.tree (manifestPath .default root) = .ok ms)
    (hname : ms.text? "name" = some name) (hblank : name.isBlank = false)
    (hnodup : (vs.map (·.ruleId)).Nodup) (hperm : vs.Perm vs')
    (hdir : ∀ dir ∈ o.backupDirectory, dir.Proper) (hdry : o.dryRun = false)
    (hsteady : Repair.Steady ⟨cat, .builtin, .default, root, o⟩ vs)
    (hlimit : ((Repair.filesOf (vs.filterMap
      (Repair.planOf ⟨cat, .builtin, .default, root, o⟩ ⟨b, []⟩))).length : Int) ≤
        Repair.Plan.limit ⟨cat, .builtin, .default, root, o⟩)
    (hrun : (repair cat .builtin .default b path vs o).2 = .ok summary)
    (hrun' : (repair cat .builtin .default b path vs' o).2 = .ok summary')
    (hok : ∀ out ∈ summary.outcomes, out.status ≠ .failed)
    (hok' : ∀ out ∈ summary'.outcomes, out.status ≠ .failed) :
    Repair.Agree ⟨cat, .builtin, .default, root, o⟩ (repair cat .builtin .default b path vs o).1.tree
        (repair cat .builtin .default b path vs' o).1.tree ∧
      ∃ told : Verdict → Text × RepairStatus × List Text,
        summary.outcomes.map RepairOutcome.told = vs.map told ∧
        summary'.outcomes.map RepairOutcome.told = vs'.map told := by
  obtain ⟨base, hst⟩ := stage_of_readManifest hs hl hroot hms
  obtain ⟨s, hall, -⟩ := Repair.of_repair hroot hrun
  obtain ⟨s', hall', -⟩ := Repair.of_repair hroot hrun'
  rw [Repair.bench_repair hroot, Repair.bench_repair hroot, hall, hall']
  refine agree_repairAll (hst.rooted hdir) rfl rfl hdry hst (hst.readManifest_iff.mp hms) hlimit hname
    hblank hsteady hnodup hperm (fun v hv actions hplan path hpath => ?_) hall hok hall' hok'
  exact Repair.mem_filesOf.mpr ⟨actions, List.mem_filterMap.mpr ⟨v, hv, hplan⟩, hpath⟩

/-! ### A manifest without a version -/

namespace Versionless

/-- A manifest that declares nothing but a name. -/
def manifest : Members := [("name", .str "x")]

def bench : Bench :=
  ⟨⟨[(["pkg"], .folder),
    (["pkg", "package.json"], .file (Repair.contentBytes (Json.document (.obj manifest))))], []⟩, 7⟩

def root : Path := ⟨.root, ["pkg"]⟩

def options : RepairOptions := ⟨false, true, none, none, false, [], [], none⟩

/-- What is missing: a version, a README file and a build script. -/
def violations : List Verdict :=
  [BuiltinCheck.manifestValid, BuiltinCheck.readmeExists, BuiltinCheck.buildScript].map fun c =>
    Evaluation.verdict c.rule (Outcome.failed "")

theorem read_manifest : readManifest bench.tree (manifestPath .default root) = .ok manifest := by
  have hpure : ∀ {t : Text}, t.any CodePoint.isHighSurrogate = false → Json.PairFree t :=
    Json.pairFree_of_not_high
  have hreadable : Json.Readable (.obj manifest) :=
    ⟨by decide, hpure (by decide), hpure (by decide), trivial⟩
  have hexact : Json.ExactMembers manifest := ⟨trivial, trivial⟩
  obtain ⟨bytes, hbytes, hread⟩ := manifestBytes_document hreadable
  rw [Json.againMembers_of_exact hexact, ← Repair.contentBytes_of_ok hbytes] at hread
  exact (readManifest_of_read rfl).mpr hread

theorem repair_eq : ∀ vs ∈ [violations, violations.reverse], ∃ summary,
    (repair (.builtin .default) .builtin .default bench "/pkg" vs options).2 = .ok summary ∧
      ∀ out ∈ summary.outcomes, out.status = .success := by
  have hall : ∀ vs ∈ [violations, violations.reverse],
      ((repair (.builtin .default) .builtin .default bench "/pkg" vs options).2.toOption.map
        fun summary => summary.outcomes.all (·.status == .success)) = some true := by
    decide +kernel
  intro vs hvs
  obtain ⟨summary, hok, hsuccess⟩ := Option.map_eq_some_iff.mp (hall vs hvs)
  exact ⟨summary, eq_ok_of_toOption hok,
    fun out hout => eq_of_beq (List.all_eq_true.mp hsuccess out hout)⟩

end Versionless

/-- Whether the version is added before the build script or after it shows in the manifest alone. -/
theorem repairs_commute_versionless :
    let repaired := fun vs =>
      (repair (.builtin .default) .builtin .default Versionless.bench "/pkg" vs Versionless.options).1
    (repaired Versionless.violations).tree.get? ["pkg", "package.json"] ≠
        (repaired Versionless.violations.reverse).tree.get? ["pkg", "package.json"] ∧
      Repair.Agree ⟨.builtin .default, .builtin, .default, Versionless.root, Versionless.options⟩
        (repaired Versionless.violations).tree (repaired Versionless.violations.reverse).tree := by
  intro repaired
  obtain ⟨summary, hrun, hok⟩ := Versionless.repair_eq _ List.mem_cons_self
  obtain ⟨summary', hrun', hok'⟩ := Versionless.repair_eq Versionless.violations.reverse (by simp)
  have hfailed : ∀ {out : RepairOutcome}, out.status = .success → out.status ≠ .failed :=
    fun h => by rw [h]; decide
  have hcommutes := @repairs_commute (.builtin .default) Versionless.bench "/pkg"
    Versionless.violations Versionless.violations.reverse Versionless.options Versionless.root
    Versionless.manifest "x" summary summary' (Tree.sound_of_entries rfl nofun (by decide))
    (Tree.noLinks_of_entries (by simp [Versionless.bench])) rfl Versionless.read_manifest (by decide)
    (by decide) (by decide) (List.reverse_perm _).symm nofun rfl (Repair.steady_builtin _)
    (by decide +kernel) hrun hrun' (fun out hout => hfailed (hok out hout))
    (fun out hout => hfailed (hok' out hout))
  exact ⟨by decide +kernel, hcommutes.1⟩

end PackageAudit
