import PackageAudit.Proofs.Repair.Counts
import PackageAudit.Proofs.Repair.Needs
import PackageAudit.Proofs.Service.Lossless
import PackageAudit.Proofs.Tree.Lexical

/-! # What a run leaves, and where

Outside the backup directory a run of the remedies that come with the audit leaves the files of the
remedies that it carries out, with contents that depend on the name of the package alone
(`file_of_carried`), and directories on the way to what it needed (`Needs`). All else is as it was
(`entry_repairAll`).
-/

namespace PackageAudit

open Json (Members)
open PackageAudit.Tree (Sound NoLinks Grows Change Account)

/-- What the remedy for a file other than the manifest writes for a package of a name. -/
def BuiltinRemedy.text (r : BuiltinRemedy) (name : Text) : Text :=
  match r with
  | manifest => []
  | readme => Remedies.readmeText name
  | typeConfig => Json.document (.obj Remedies.typeConfigTemplate)
  | testDirectory => Remedies.smokeTest name Settings.default.manifestName
  | buildScript => []
  | ignoreFile => Text.join "\n" Remedies.ignoredEntries ++ "\n"

section
variable {site : Site} {v : Verdict} {actions : List Action} {a : Action} {r : BuiltinRemedy}
  {name text : Text}

theorem content_of_plan (hsite : site.settings = .default)
    (hname : Remedies.packageName site = .ok name) (hok : r.plan site v = .ok actions)
    (hr : r.way ≠ [Settings.default.manifestName]) (ha : a ∈ actions)
    (hcontent : a.content = some text) : text = r.text name := by
  cases r with
  | manifest => exact absurd rfl hr
  | buildScript => exact absurd rfl hr
  | readme =>
    obtain ⟨name', hname', rfl⟩ := writeReadme_eq_ok.mp hok
    cases hname.symm.trans hname'
    obtain rfl := List.mem_singleton.mp ha
    exact (Option.some.inj hcontent).symm
  | typeConfig => exact (Option.some.inj ((content_typeConfig hok ha).symm.trans hcontent)).symm
  | testDirectory =>
    obtain ⟨name', hname', rfl⟩ := addTests_eq_ok.mp hok
    cases hname.symm.trans hname'
    rcases List.mem_pair.mp ha with rfl | rfl
    · cases hcontent
    · rw [hsite] at hcontent
      exact (Option.some.inj hcontent).symm
  | ignoreFile =>
    cases hok
    obtain rfl := List.mem_singleton.mp ha
    exact (Option.some.inj hcontent).symm

/-- The plan for a file other than the manifest writes it with its last action. -/
theorem exists_content (hsite : site.settings = .default) (hok : r.plan site v = .ok actions)
    (hr : r.way ≠ [Settings.default.manifestName]) : ∃ init last, actions = init ++ [last] ∧
      (∀ a ∈ init, a.content = none) ∧ last.path = some (r.file .default) ∧ last.content.isSome := by
  cases r with
  | manifest => exact absurd rfl hr
  | buildScript => exact absurd rfl hr
  | readme =>
    obtain ⟨name, -, rfl⟩ := writeReadme_eq_ok.mp hok
    exact ⟨[], _, rfl, nofun, by rw [hsite]; rfl, rfl⟩
  | typeConfig =>
    cases hok
    exact ⟨[], _, rfl, nofun, by rw [hsite]; rfl, rfl⟩
  | testDirectory =>
    obtain ⟨name, -, rfl⟩ := addTests_eq_ok.mp hok
    exact ⟨[_], _, rfl, by simp, rfl, rfl⟩
  | ignoreFile =>
    cases hok
    exact ⟨[], _, rfl, nofun, by rw [hsite]; rfl, rfl⟩

end

/-- A name that is declared and not blank stays as it is, however often a manifest is rewritten. -/
theorem Rewritten.text?_name {root name : Text} {built : Bool} {ms ms' : Members}
    (h : Rewritten root built ms ms') (hname : ms.text? "name" = some name)
    (hblank : name.isBlank = false) : ms'.text? "name" = some name := by
  induction h with
  | same => exact hname
  | @complete _ _ ms' _ ih =>
    have htext := ih hname
    have hget : ms'.get? "name" = some (.str name) := by
      unfold Members.text? at htext
      split at htext
      · next t ht => rw [ht, Option.some.inj htext]
      · cases htext
    rw [Json.text?_againMembers]
    unfold Members.text?
    rw [completed, get?_withTexts (notMem_missingTexts hget hblank), hget]
  | @build _ _ ms' _ ih =>
    have hother : (withBuildScript ms').get? "name" = ms'.get? "name" :=
      Members.get?_insert_of_ne (by decide) ms' _
    rw [Json.text?_againMembers]
    unfold Members.text? at ih ⊢
    rw [hother]
    exact ih hname

theorem packageName_of_text? {t : Tree} {root : Path} {ms : Members} {name : Text}
    (hms : readManifest t (manifestPath .default root) = .ok ms)
    (hname : ms.text? "name" = some name) (hblank : name.isBlank = false) :
    Remedies.packageName ⟨t, root, .default⟩ = .ok name := by
  have hfound : Remedies.manifest? ⟨t, root, .default⟩ = .ok (some ms) := manifest?_eq_some.mpr hms
  have hne : name.isEmpty = false := by
    cases name with
    | nil => exact absurd hblank (by decide)
    | cons c cs => rfl
  unfold Remedies.packageName
  rw [hfound]
  simp [bind, Except.bind, pure, Except.pure, hname, hne]

/-! ## The plans of a run -/

/-- A plan that a run carries out in a package with a name is that of a remedy. -/
structure MadeBy (p : Repair.Plan) (base : Location) (name : Text) (r : BuiltinRemedy)
    (x : Repair.Carried) : Prop where
  stage : Stage x.bench.tree p.root base
  rule : x.violation.ruleId = r.ruleId
  plan : r.plan ⟨x.bench.tree, p.root, .default⟩ x.violation = .ok x.actions
  name : Remedies.packageName ⟨x.bench.tree, p.root, .default⟩ = .ok name

section
variable {p : Repair.Plan} {s : Repair.Progress} {vs : List Verdict} {base : Location} {ms : Members}
  {name : Text} {x : Repair.Carried} {r r' : BuiltinRemedy} (hp : p.Rooted)
  (hset : p.settings = .default) (hrem : p.remedies = .builtin)
  (hst : Stage s.bench.tree p.root base)

include hp hset hrem hst in
theorem exists_madeBy (hms : HasManifest s.bench.tree base ms) (hname : ms.text? "name" = some name)
    (hblank : name.isBlank = false) (hx : x ∈ Repair.carriedIn p s vs) :
    ∃ r, MadeBy p base name r x := by
  obtain ⟨before, after, s₁, outs, -, hbefore, hbench, hplan⟩ := Repair.mem_carriedIn hx
  obtain ⟨r, hrule, hok⟩ := exists_remedy hset hrem hplan
  have hst₁ := hst.repairAll hp before
  obtain ⟨built, ms', hms', hrewritten, -⟩ := @manifest_repairAll p base hp hset hrem before s ms hst hms
  rw [hbefore] at hst₁ hms'
  refine ⟨r, hbench ▸ hst₁, hrule, hbench ▸ hok, ?_⟩
  rw [hbench]
  exact packageName_of_text? (hst₁.readManifest_iff.mpr hms') (hrewritten.text?_name hname hblank)
    hblank

theorem MadeBy.stage_performed (hp : p.Rooted) (h : MadeBy p base name r x) {y : Bench × Action}
    (hy : y ∈ Repair.performed p x.bench x.actions) : Stage y.1.tree p.root base :=
  Repair.performed_induct (motive := fun b => Stage b.tree p.root base) h.stage
    (fun y _ hst => hst.perform hp y.2) y hy

/-- **What lands somewhere in a run** is the content of a remedy in its file, or a copy in the backup
directory. -/
theorem MadeBy.landing (hp : p.Rooted) (h : MadeBy p base name r x) {y : Bench × Action}
    (hy : y ∈ Repair.performed p x.bench x.actions) {c : Change} (hc : c ∈ Repair.changesOf p y.1 y.2)
    {kept : Option Text} (hend : (Repair.perform p y.1 y.2).2 = .ok kept)
    {f : Path × List UInt8} (hf : f ∈ c.file?) {t' : Tree} (hs' : Sound t')
    (hg : Grows (Repair.perform p y.1 y.2).1.tree t') {k : Location}
    (hland : t'.landing f.1 = some k) :
    (k = base ++ r.way ∧ ∃ text, y.2.content = some text ∧ f.2 = Repair.contentBytes text) ∨
      (Repair.Needs p y.1.tree y.2 p.backupFolder ∧
        ∃ folder, t'.status p.backupFolder = .ok (folder, .folder) ∧ folder <+: k) := by
  have hst := h.stage_performed hp hy
  have ha := Repair.mem_performed hy
  have hacc := Repair.account_perform hp hst.sound y.2
  have hst' : Stage t' p.root base := hst.grows hs' (hacc.grows.trans hg)
  obtain ⟨path, hpath, heffect⟩ := Repair.effect_of_mem_changesOf hc
  obtain ⟨names, hne, hpre, htarget, hway⟩ :=
    target_standard p.root p.options (by rfl) h.plan ha hpath
  change p.target path = p.root.append names at htarget
  generalize hcontent : y.2.content = content at heffect hway
  cases heffect with
  | folder => cases hf
  | parent => cases hf
  | backups => cases hf
  | @content text =>
    cases hf
    obtain rfl := hway rfl
    rw [htarget] at hland
    have hat := hst'.of_landing hne r.isStep_way hland
    rw [r.plain_way] at hat
    exact .inl ⟨hat, text, rfl, rfl⟩
  | copy hb hm bytes =>
    cases hf
    obtain ⟨-, _, -, hcopied⟩ := Repair.of_copied hp hst.sound hc
    obtain ⟨⟨at', hat⟩, -⟩ := hcopied.grows hg
    have hname : Tree.IsStep (p.target path).name := by
      rw [htarget]
      exact r.isStep_way _ (hpre.subset (Path.name_append_mem p.root hne))
    refine .inr ⟨Repair.needs_of_copied (Prod.ext rfl hend) hc, at', hat, ?_⟩
    rcases locate_copyPath hat hst'.noLinks hname (Tree.landing_eq_some.mp hland) with rfl | rfl
    · exact List.prefix_append _ _
    · exact (List.prefix_append at' _).trans (List.prefix_append _ _)

end

/-! ## A run in which nothing fails -/

section
variable {p : Repair.Plan} {s : Repair.Progress} {vs : List Verdict} {base : Location} {ms : Members}
  {name : Text} {x : Repair.Carried} {r : BuiltinRemedy} (hp : p.Rooted)
  (hset : p.settings = .default) (hrem : p.remedies = .builtin)
  (hst : Stage s.bench.tree p.root base) (hms : HasManifest s.bench.tree base ms)
  (hname : ms.text? "name" = some name) (hblank : name.isBlank = false)
  (hends : ∀ x ∈ Repair.carriedIn p s vs, (x.result p).2 = .ok (x.kept p))

include hp hst hends in
/-- Each action of a plan that is carried out succeeds, and the tree grows from there. -/
theorem ends_of_carried (hx : x ∈ Repair.carriedIn p s vs) {y : Bench × Action}
    (hy : y ∈ Repair.performed p x.bench x.actions) :
    (∃ kept, (Repair.perform p y.1 y.2).2 = .ok kept) ∧
      Grows (Repair.perform p y.1 y.2).1.tree (Repair.repairAll p s vs).1.bench.tree := by
  obtain ⟨-, -, -, hg⟩ := Repair.grows_of_performedIn hp hst.sound
    (Repair.mem_performedIn_iff.mpr ⟨x, hx, hy⟩)
  exact ⟨(Repair.performed_of_ok (hends x hx)).2 y hy, hg⟩

include hp hset hrem hst hms hname hblank in
/-- Each change of a run is made by an action of a plan of a remedy. -/
theorem of_mem_journal {c : Change} (hc : c ∈ Repair.journal p s vs) :
    ∃ x ∈ Repair.carriedIn p s vs, ∃ r, MadeBy p base name r x ∧
      ∃ y ∈ Repair.performed p x.bench x.actions, c ∈ Repair.changesOf p y.1 y.2 := by
  rw [Repair.journal_eq] at hc
  obtain ⟨x, hx, hc⟩ := List.mem_flatMap.mp hc
  obtain ⟨y, hy, hc⟩ := List.mem_flatMap.mp hc
  obtain ⟨r, hr⟩ := exists_madeBy hp hset hrem hst hms hname hblank hx
  exact ⟨x, hx, r, hr, y, hy, hc⟩

include hp hst hends in
/-- A remedy that is carried out has written its file, if that is not the manifest. -/
theorem written_of_carried (hx : x ∈ Repair.carriedIn p s vs) (hr : MadeBy p base name r x)
    (hway : r.way ≠ [Settings.default.manifestName]) :
    ∃ content bytes, .written (p.target (r.file .default)) content ∈ Repair.journal p s vs ∧
      (Repair.repairAll p s vs).1.bench.tree.landing (p.target (r.file .default)) =
        some (base ++ r.way) ∧
      (Repair.repairAll p s vs).1.bench.tree.get? (base ++ r.way) = some (.file bytes) := by
  obtain ⟨init, last, hactions, -, hpath, hsome⟩ := exists_content (by rfl) hr.plan hway
  obtain ⟨content, hcontent⟩ := Option.isSome_iff_exists.mp hsome
  have hlast : last ∈ x.actions := hactions ▸ List.mem_append_right init (List.mem_singleton_self _)
  obtain ⟨hperformed, -⟩ := Repair.performed_of_ok (hends x hx)
  obtain ⟨y, hy, rfl⟩ := List.mem_map.mp (hperformed.symm ▸ hlast)
  obtain ⟨⟨kept, hkept⟩, hg⟩ := ends_of_carried hp hst hends hx hy
  have hst' := hr.stage_performed hp hy
  obtain ⟨path, hpath', hmem⟩ := Repair.written_mem_changesOf hcontent hkept
  cases hpath.symm.trans hpath'
  obtain ⟨bytes, k, -, hland, hk⟩ :=
    Repair.written_of_perform hp hst'.sound (Prod.ext rfl hkept) hpath hcontent
  obtain ⟨names, hne, -, htarget, hnames⟩ :=
    target_standard p.root p.options (by rfl) hr.plan hlast hpath
  obtain rfl := hnames hsome
  change p.target _ = p.root.append r.way at htarget
  obtain rfl : k = base ++ r.way := by
    have hat := (hst'.perform hp y.2).of_landing hne r.isStep_way (htarget ▸ hland)
    rwa [r.plain_way] at hat
  obtain ⟨bytes', hbytes'⟩ := hg.file hk
  refine ⟨Repair.contentBytes content, bytes', ?_, Tree.landing_eq_some.mpr
    (Tree.locate_grows hg (Tree.landing_eq_some.mp hland)), hbytes'⟩
  rw [Repair.journal_eq]
  exact List.mem_flatMap.mpr ⟨x, hx, List.mem_flatMap.mpr ⟨y, hy, hmem⟩⟩

include hp hset hrem hst hms hname hblank hends

/-- **A remedy that is carried out leaves its file** with the content for the name of the package, if
that is not the manifest. -/
theorem file_of_carried (hx : x ∈ Repair.carriedIn p s vs) (hr : MadeBy p base name r x)
    (hway : r.way ≠ [Settings.default.manifestName]) :
    (Repair.repairAll p s vs).1.bench.tree.get? (base ++ r.way) =
      some (.file (Repair.contentBytes (r.text name))) := by
  have hacc := Repair.account_repairAll hp hst.sound vs
  obtain ⟨content, bytes, hwritten, hland, hfile⟩ := written_of_carried hp hst hends hx hr hway
  -- the last to write there was a plan of the same remedy
  rcases Tree.exists_lastAt (t := (Repair.repairAll p s vs).1.bench.tree) (base ++ r.way)
    (Repair.journal p s vs) with ⟨c, hlast⟩ | hno
  · obtain ⟨f, hf, hat⟩ := hlast.exists_file
    obtain ⟨x', hx', r', hr', y, hy, hc⟩ := of_mem_journal hp hset hrem hst hms hname hblank hlast.mem
    obtain ⟨-, hg⟩ := ends_of_carried hp hst hends hx' hy
    have ha := Repair.mem_performed hy
    obtain ⟨hsame, -, text, htext, hbytes⟩ := content_of_landing hp (hr'.stage_performed hp hy)
      (by rfl) hr'.plan ha hacc.sound hg hc hf r hat
    have hcontent := content_of_plan (by rfl) hr'.name hr'.plan (hsame ▸ hway) ha htext
    have heq : r' = r := (eq_of_way_eq hsame).resolve_right fun h => hway (by
      rcases h.2 with rfl | rfl <;> rfl)
    rcases hacc.entry (base ++ r.way) with hentry | ⟨-, hfolder, -⟩
    · rw [hentry, hlast.replay_eq hf, hbytes, hcontent, heq]
    · rw [hfile] at hfolder
      cases hfolder
  · exact absurd hland (hno _ hwritten (p.target (r.file .default), content) rfl)

/-- **What a run leaves at a location**: the file of a remedy that was carried out, something in the
backup directory, if that was needed, what was there, or a directory on the way to one that was
needed. -/
theorem entry_repairAll (k : Location) :
    let after := (Repair.repairAll p s vs).1.bench.tree
    (∃ x ∈ Repair.carriedIn p s vs, ∃ r, MadeBy p base name r x ∧ k = base ++ r.way) ∨
      (∃ y ∈ Repair.performedIn p s vs, Repair.Needs p y.1.tree y.2 p.backupFolder ∧
        ∃ folder, after.status p.backupFolder = .ok (folder, .folder) ∧ folder <+: k) ∨
      after.get? k = s.bench.tree.get? k ∨
      (s.bench.tree.get? k = none ∧ after.get? k = some .folder ∧
        ∃ y ∈ Repair.performedIn p s vs, ∃ q, Repair.Needs p y.1.tree y.2 q ∧
          (Change.made q).MakesAt after k) := by
  intro after
  have hacc := Repair.account_repairAll hp hst.sound vs
  by_cases hsame : after.get? k = s.bench.tree.get? k
  · exact .inr (.inr (.inl hsame))
  rcases hacc.landing_of_ne hsame with ⟨c, hc, f, hf, hland⟩ | ⟨hnone, hfolder, c, hc, q, rfl, hat⟩
  · obtain ⟨x, hx, r, hr, y, hy, hc⟩ := of_mem_journal hp hset hrem hst hms hname hblank hc
    obtain ⟨⟨kept, hend⟩, hg⟩ := ends_of_carried hp hst hends hx hy
    rcases hr.landing hp hy hc hend hf hacc.sound hg hland with ⟨hway, -⟩ | ⟨hneeds, hbelow⟩
    · exact .inl ⟨x, hx, r, hr, hway⟩
    · exact .inr (.inl ⟨y, Repair.mem_performedIn_iff.mpr ⟨x, hx, hy⟩, hneeds, hbelow⟩)
  · obtain ⟨x, hx, r, hr, y, hy, hc⟩ := of_mem_journal hp hset hrem hst hms hname hblank hc
    obtain ⟨⟨kept, hend⟩, -⟩ := ends_of_carried hp hst hends hx hy
    exact .inr (.inr (.inr ⟨hnone, hfolder, y, Repair.mem_performedIn_iff.mpr ⟨x, hx, hy⟩, q,
      Repair.needs_of_made (Prod.ext rfl hend) hc, q, rfl, hat⟩))

end

end PackageAudit
