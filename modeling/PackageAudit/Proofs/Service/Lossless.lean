import PackageAudit.Proofs.Service.Rewritten

/-! # Nothing in a manifest is lost

Whatever violations are repaired, in whatever order, a manifest keeps the members that no remedy is
about, in their order, and of the others what was there already (`Preserved`,
`repair_preserves_manifest`). Numbers that are not whole are left out: they are written in their
shortest form.
-/

namespace PackageAudit

open Json (Members againMembers)
open PackageAudit.Tree (Sound NoLinks)

/-! ## Values without numbers that are not whole -/

mutual

/-- There is no number in a value that is not whole. -/
def Json.Exact : Json → Prop
  | .real _ => False
  | .arr vs => Json.ExactItems vs
  | .obj ms => Json.ExactMembers ms
  | _ => True

/-- All items are exact. -/
def Json.ExactItems : List Json → Prop
  | [] => True
  | v :: vs => Json.Exact v ∧ Json.ExactItems vs

/-- The values of all members are exact. -/
def Json.ExactMembers : Members → Prop
  | [] => True
  | (_, v) :: ms => Json.Exact v ∧ Json.ExactMembers ms

end

namespace Json

mutual

/-- An exact value is read back as it is. -/
theorem again_of_exact : ∀ {v : Json}, Exact v → again v = v
  | .null, _ => rfl
  | .bool _, _ => rfl
  | .int _, _ => rfl
  | .str _, _ => rfl
  | .arr vs, h => congrArg Json.arr (@againItems_of_exact vs h)
  | .obj ms, h => congrArg Json.obj (@againMembers_of_exact ms h)

theorem againItems_of_exact : ∀ {vs : List Json}, ExactItems vs → againItems vs = vs
  | [], _ => rfl
  | v :: vs, h => by rw [againItems, again_of_exact h.1, againItems_of_exact h.2]

theorem againMembers_of_exact : ∀ {ms : Members}, ExactMembers ms → againMembers ms = ms
  | [], _ => rfl
  | (name, v) :: ms, h => by rw [againMembers, again_of_exact h.1, againMembers_of_exact h.2]

end

theorem exactMembers_iff : ∀ {ms : Members}, ExactMembers ms ↔ ∀ m ∈ ms, Exact m.2
  | [] => by simp [ExactMembers]
  | (name, v) :: ms => by rw [ExactMembers, exactMembers_iff, List.forall_mem_cons]

theorem ExactMembers.insert {ms : Members} (h : ExactMembers ms) (name : Text) {v : Json}
    (hv : Exact v) : ExactMembers (Members.insert ms name v) := by
  refine exactMembers_iff.mpr fun m hm => ?_
  rcases mem_insert hm with rfl | hm
  · exact hv
  · exact exactMembers_iff.mp h m hm

theorem ExactMembers.members? {ms : Members} (h : ExactMembers ms) (name : Text) :
    ExactMembers ((ms.members? name).getD []) := by
  unfold Members.members?
  cases hv : Members.get? ms name with
  | none => exact trivial
  | some v =>
    obtain ⟨m, hm, rfl⟩ := Option.map_eq_some_iff.mp hv
    have hexact := exactMembers_iff.mp h m (List.mem_of_find?_eq_some hm)
    generalize m.2 = v at hexact
    cases v with
    | obj inner => exact hexact
    | _ => exact trivial

theorem filter_insert {ms : Members} {name : Text} {v : Json} {P : Text → Bool}
    (h : P name = false) :
    (Members.insert ms name v).filter (fun m => P m.1) = ms.filter fun m => P m.1 := by
  induction ms with
  | nil => simp [Members.insert, h]
  | cons m ms ih =>
    rw [Members.insert]
    split
    · next hm => simp [hm, h]
    · rw [List.filter_cons, List.filter_cons, ih]

end Json

/-! ## What a manifest keeps -/

/-- A member of a manifest that no remedy is about. -/
def isUnrelated (name : Text) : Bool :=
  !(["name", "version", "scripts"].map Text.ofString).contains name

/-- A script that no remedy is about. -/
def isOtherScript (name : Text) : Bool := name != "build"

/-- A text that is not blank stays as it is. -/
def KeepsText (name : Text) (old new : Members) : Prop :=
  ∀ t, old.get? name = some (.str t) → t.isBlank = false → new.get? name = some (.str t)

/-- What a manifest keeps when it is repaired, and whether a build script may have been declared. -/
structure Preserved (built : Bool) (old new : Members) : Prop where
  /-- The other members are there with their values and in their order, and there are no new ones. -/
  unrelated : new.filter (fun m => isUnrelated m.1) = old.filter fun m => isUnrelated m.1
  name : KeepsText "name" old new
  version : KeepsText "version" old new
  scripts : built = false → new.get? "scripts" = old.get? "scripts"
  /-- The other scripts are there with their values and in their order. -/
  otherScripts : ∀ inner, old.get? "scripts" = some (.obj inner) → ∃ inner',
    new.get? "scripts" = some (.obj inner') ∧
      inner'.filter (fun m => isOtherScript m.1) = inner.filter fun m => isOtherScript m.1

section
variable {built : Bool} {ms ms' ms'' : Members} {root : Text}

theorem Preserved.refl (built : Bool) (ms : Members) : Preserved built ms ms :=
  ⟨rfl, fun _ h _ => h, fun _ h _ => h, fun _ => rfl, fun inner h => ⟨inner, h, rfl⟩⟩

theorem Preserved.trans {built' : Bool} (h : Preserved built ms ms')
    (h' : Preserved built' ms' ms'') : Preserved (built || built') ms ms'' where
  unrelated := h'.unrelated.trans h.unrelated
  name t ht hb := h'.name t (h.name t ht hb) hb
  version t ht hb := h'.version t (h.version t ht hb) hb
  scripts hnone := by
    obtain ⟨hb, hb'⟩ := Bool.or_eq_false_iff.mp hnone
    rw [h'.scripts hb', h.scripts hb]
  otherScripts inner hi := by
    obtain ⟨inner', hi', hsame⟩ := h.otherScripts inner hi
    obtain ⟨inner'', hi'', hsame'⟩ := h'.otherScripts inner' hi'
    exact ⟨inner'', hi'', hsame'.trans hsame⟩

theorem get?_withTexts {name : Text} : ∀ {wanted : List (Text × Text)}, name ∉ wanted.map (·.1) →
    ∀ ms : Members, (withTexts ms wanted).get? name = ms.get? name
  | [], _, _ => rfl
  | x :: wanted, h, ms => by
    rw [List.map_cons, List.mem_cons, not_or] at h
    exact (get?_withTexts h.2 _).trans (Members.get?_insert_of_ne h.1 ms _)

theorem filter_withTexts {P : Text → Bool} : ∀ {wanted : List (Text × Text)},
    (∀ x ∈ wanted, P x.1 = false) → ∀ ms : Members,
    (withTexts ms wanted).filter (fun m => P m.1) = ms.filter fun m => P m.1
  | [], _, _ => rfl
  | x :: wanted, h, ms => by
    obtain ⟨hx, hwanted⟩ := List.forall_mem_cons.mp h
    exact (filter_withTexts hwanted _).trans (Json.filter_insert hx)

theorem exact_withTexts (h : Json.ExactMembers ms) (wanted : List (Text × Text)) :
    Json.ExactMembers (withTexts ms wanted) := by
  induction wanted generalizing ms with
  | nil => exact h
  | cons x wanted ih => exact ih (h.insert x.1 (v := .str x.2) trivial)

theorem notMem_missingTexts {name t : Text} (ht : ms.get? name = some (.str t))
    (hblank : t.isBlank = false) : name ∉ (missingTexts root ms).map (·.1) := by
  intro hin
  obtain ⟨x, hx, rfl⟩ := List.mem_map.mp hin
  have hmissing := (List.mem_filter.mp hx).2
  simp [Remedies.declares, Members.text?, ht, hblank] at hmissing

theorem mem_wantedTexts {x : Text × Text} (hx : x ∈ missingTexts root ms) :
    x.1 = Text.ofString "name" ∨ x.1 = Text.ofString "version" := by
  rcases List.mem_cons.mp (List.mem_filter.mp hx).1 with rfl | hx
  · exact .inl rfl
  · exact .inr (congrArg Prod.fst (List.mem_singleton.mp hx))

/-- Less is kept where a build script may have been declared. -/
theorem Preserved.weaken (h : Preserved false ms ms') (built : Bool) : Preserved built ms ms' :=
  { h with scripts := fun _ => h.scripts rfl }

/-- Completing a manifest sets the name or the version only if no such text was declared. -/
theorem preserved_completed (root : Text) (ms : Members) :
    Preserved false ms (completed root ms) := by
  have hscripts : (completed root ms).get? "scripts" = ms.get? "scripts" := by
    refine get?_withTexts (fun hin => ?_) ms
    obtain ⟨x, hx, hname⟩ := List.mem_map.mp hin
    rcases mem_wantedTexts hx with h | h <;> exact absurd (hname.symm.trans h) (by decide)
  refine ⟨filter_withTexts (fun x hx => ?_) ms, fun t ht hb => ?_, fun t ht hb => ?_,
    fun _ => hscripts, fun inner hi => ⟨inner, hscripts.trans hi, rfl⟩⟩
  · rcases mem_wantedTexts hx with h | h <;> rw [h] <;> decide
  · exact (get?_withTexts (notMem_missingTexts ht hb) ms).trans ht
  · exact (get?_withTexts (notMem_missingTexts ht hb) ms).trans ht

theorem preserved_withBuildScript (ms : Members) : Preserved true ms (withBuildScript ms) := by
  have hother : ∀ {name : Text}, name ≠ Text.ofString "scripts" →
      (withBuildScript ms).get? name = ms.get? name :=
    fun hne => Members.get?_insert_of_ne hne ms _
  refine ⟨Json.filter_insert (by decide), fun t ht _ => ?_, fun t ht _ => ?_, nofun, fun inner hi => ?_⟩
  · rw [hother (by decide)]
    exact ht
  · rw [hother (by decide)]
    exact ht
  · refine ⟨_, Members.get?_insert_self ms _ _, ?_⟩
    rw [Json.filter_insert (by decide), Members.members?, hi]
    rfl

theorem exact_withBuildScript (h : Json.ExactMembers ms) :
    Json.ExactMembers (withBuildScript ms) :=
  h.insert _ ((h.members? _).insert (v := .str "tsc") _ trivial)

/-- **A manifest that is rewritten any number of times loses nothing.** -/
theorem Rewritten.preserved (hr : Rewritten root built ms ms') (h : Json.ExactMembers ms) :
    Preserved built ms ms' ∧ Json.ExactMembers ms' := by
  induction hr with
  | same => exact ⟨.refl false _, h⟩
  | complete _ ih =>
    obtain ⟨hpreserved, hexact⟩ := ih h
    have hcompleted : Json.ExactMembers (completed root _) := exact_withTexts hexact _
    rw [Json.againMembers_of_exact hcompleted]
    have := hpreserved.trans (preserved_completed root _)
    rw [Bool.or_false] at this
    exact ⟨this, hcompleted⟩
  | build _ ih =>
    obtain ⟨hpreserved, hexact⟩ := ih h
    have hbuilt := exact_withBuildScript hexact
    rw [Json.againMembers_of_exact hbuilt]
    have := hpreserved.trans (preserved_withBuildScript _)
    rw [Bool.or_true] at this
    exact ⟨this, hbuilt⟩

end

/-- A package whose manifest can be read is a stage. -/
theorem stage_of_readManifest {t : Tree} {path : Path} {root : Path} {ms : Members} (hs : Sound t)
    (hl : NoLinks t) (hroot : t.resolve path = .ok root)
    (hms : readManifest t (manifestPath .default root) = .ok ms) : ∃ base, Stage t root base := by
  obtain ⟨text, htext, -⟩ := readManifest_eq_ok.mp hms
  obtain ⟨bytes, -, hread, -, -⟩ := Tree.readText_eq_ok.mp htext
  obtain ⟨hv, l, hst⟩ := Tree.read_eq_ok.mp hread
  have hstep : Tree.IsStep Settings.default.manifestName := by decide
  obtain ⟨habs, hsteps⟩ := Tree.resolve_steps hs hroot
  obtain ⟨base, hbase⟩ := Tree.status_parent hs hl habs hsteps hstep (manifestPath_eq root ▸ hst)
  exact ⟨base, hs, hl, Tree.ground_of_resolve hs hl hroot hbase,
    Tree.isFile_eq_true.mpr ⟨hv, l, bytes, hst⟩⟩

/-- **Repairs of a package lose nothing in its manifest**, whatever violations are repaired, in
whatever order and however the run ends: if the manifest could be read before, and no number in it is
not whole, it can be read afterwards and keeps what no remedy is about. The scripts stay as they are
unless a build script was declared with success, as the outcomes of the run say. -/
theorem repair_preserves_manifest {cat : Catalog} {b : Bench} {path : Text} {vs : List Verdict}
    {o : RepairOptions} {root : Path} {ms : Members} (hs : Sound b.tree) (hl : NoLinks b.tree)
    (hroot : b.tree.resolve (.ofText path) = .ok root)
    (hms : readManifest b.tree (manifestPath .default root) = .ok ms) (hexact : Json.ExactMembers ms)
    (hdir : ∀ dir ∈ o.backupDirectory, dir.Proper) :
    let repaired := repair cat .builtin .default b path vs o
    let outcomes := Repair.outcomes ⟨cat, .builtin, .default, root, o⟩ ⟨b, []⟩ vs
    (∀ summary, repaired.2 = .ok summary → summary.outcomes = outcomes) ∧
    ∃ ms', readManifest repaired.1.tree (manifestPath .default root) = .ok ms' ∧
      Preserved (outcomes.any fun out =>
        out.ruleId == BuiltinRemedy.buildScript.ruleId && out.status == .success) ms ms' := by
  intro repaired outcomes
  refine ⟨fun summary hsummary => Repair.outcomes_of_repair hroot hsummary, ?_⟩
  obtain ⟨base, hst⟩ := stage_of_readManifest hs hl hroot hms
  have hrooted : Repair.Plan.Rooted ⟨cat, .builtin, .default, root, o⟩ := by
    refine ⟨hst.ground.proper, hst.ground.isAbsolute, hst.ground.proper.join ?_⟩
    cases hd : o.backupDirectory with
    | none => exact (by decide : Settings.default.backupDirectory.Proper)
    | some dir => exact hdir dir hd
  have hacc := Repair.account_repairAll (s := ⟨b, []⟩) hrooted hs vs
  have hst' := hst.grows hacc.sound hacc.grows
  obtain ⟨built, ms', hms', hrewritten, hbuilt⟩ := manifest_repairAll (s := ⟨b, []⟩) hrooted rfl rfl
    hst (hst.readManifest_iff.mp hms)
  have hbench : repaired.1 = _ := Repair.bench_repair hroot
  rw [hbench]
  refine ⟨ms', hst'.readManifest_iff.mpr hms', ?_⟩
  have hpreserved := (hrewritten.preserved hexact).1
  cases built with
  | false => exact hpreserved.weaken _
  | true =>
    obtain ⟨out, hout, hid, hsuccess⟩ := hbuilt rfl
    have hany : outcomes.any (fun out => out.ruleId == BuiltinRemedy.buildScript.ruleId &&
        out.status == .success) = true :=
      List.any_eq_true.mpr ⟨out, hout, by simp [hid, hsuccess]⟩
    rwa [hany]

/-! ### A manifest with a script -/

namespace Scripted

/-- A manifest with a blank name and one script. -/
def manifest : Members :=
  [("name", .str " "), ("private", .bool true), ("scripts", .obj [("test", .str "jest")]),
    ("files", .arr [.int 1, .null])]

/-- A package with this manifest. -/
def bench : Bench :=
  ⟨⟨[(["pkg"], .folder),
    (["pkg", "package.json"], .file (Repair.contentBytes (Json.document (.obj manifest))))], []⟩, 7⟩

def root : Path := ⟨.root, ["pkg"]⟩

def options : RepairOptions := ⟨false, true, none, none, false, [], [], none⟩

/-- The build script is declared twice, with the name and the version in between. -/
def violations : List Verdict :=
  [BuiltinCheck.buildScript, BuiltinCheck.manifestValid, BuiltinCheck.buildScript].map fun c =>
    Evaluation.verdict c.rule (Outcome.failed "")

theorem readable_manifest : Json.Readable (.obj manifest) := by
  have hpure : ∀ {t : Text}, t.any CodePoint.isHighSurrogate = false → Json.PairFree t :=
    Json.pairFree_of_not_high
  exact ⟨by decide, hpure (by decide), hpure (by decide), hpure (by decide), trivial,
    hpure (by decide), ⟨by decide, hpure (by decide), hpure (by decide), trivial⟩, hpure (by decide),
    ⟨Nat.one_lt_pow (by decide) (by decide), trivial, trivial⟩, trivial⟩

theorem exact_manifest : Json.ExactMembers manifest :=
  ⟨trivial, trivial, ⟨trivial, trivial⟩, ⟨trivial, trivial, trivial⟩, trivial⟩

theorem read_manifest : readManifest bench.tree (manifestPath .default root) = .ok manifest := by
  obtain ⟨bytes, hbytes, hread⟩ := manifestBytes_document readable_manifest
  rw [Json.againMembers_of_exact exact_manifest, ← Repair.contentBytes_of_ok hbytes] at hread
  exact (readManifest_of_read rfl).mpr hread

end Scripted

/-- Repairs of a manifest keep its script and its other members. -/
theorem repair_preserves_scripts : ∃ ms',
    readManifest (repair (.builtin .default) .builtin .default Scripted.bench "/pkg"
      Scripted.violations Scripted.options).1.tree (manifestPath .default Scripted.root) = .ok ms' ∧
    Preserved true Scripted.manifest ms' := by
  have hpreserves := @repair_preserves_manifest (.builtin .default) Scripted.bench "/pkg"
    Scripted.violations Scripted.options Scripted.root Scripted.manifest
    (Tree.sound_of_entries rfl nofun (by decide))
    (Tree.noLinks_of_entries (by simp [Scripted.bench])) rfl Scripted.read_manifest
    Scripted.exact_manifest nofun
  obtain ⟨-, ms', hms', hpreserved⟩ := hpreserves
  have hbuilt : (Repair.outcomes ⟨.builtin .default, .builtin, .default, Scripted.root,
      Scripted.options⟩ ⟨Scripted.bench, []⟩ Scripted.violations).any (fun out =>
        out.ruleId == BuiltinRemedy.buildScript.ruleId && out.status == .success) = true := by
    decide +kernel
  rw [hbuilt] at hpreserved
  exact ⟨ms', hms', hpreserved⟩

end PackageAudit
