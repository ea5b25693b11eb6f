import PackageAudit.Proofs.Service.Content

/-! # Where a fix writes

Everything that a standard fix does has its place relative to the root of the package: the way of
a remedy, or a way into the backup directory (`FixWay`). `mark_of_change` says of each change of an
action which it is.
-/

namespace PackageAudit

open PackageAudit.Tree (Change IsStep IsEntryName)

/-- The ways from the root of a package to the files that a standard fix writes: those of the
remedies, and those into the backup directory. -/
inductive FixWay : List Text → Prop
  | remedy (r : BuiltinRemedy) : FixWay r.way
  | backup (names : List Text) (h : ∀ name ∈ names, IsStep name) :
    FixWay (Settings.default.backupDirectory.parts ++ names)

theorem FixWay.ne_nil {names : List Text} (h : FixWay names) : names ≠ [] := by
  cases h with
  | remedy r => cases r <;> exact List.cons_ne_nil _ _
  | backup names _ => exact List.cons_ne_nil _ names

theorem FixWay.isStep {names : List Text} (h : FixWay names) : ∀ name ∈ names, IsStep name := by
  cases h with
  | remedy r => exact r.isStep_way
  | backup names h =>
    intro name hn
    rcases List.mem_append.mp hn with hn | hn
    · have hstep : ∀ name ∈ Settings.default.backupDirectory.parts, IsStep name := by decide
      exact hstep name hn
    · exact h name hn

/-- The changes that an action of a remedy makes: directories on the way of the remedy or of the
backups, the content of its file, a backup. -/
inductive Mark (r : BuiltinRemedy) (root : Path) (content : Option Text) : Change → Prop
  | folder (names : List Text) (h : names <+: r.way) : Mark r root content (.made (root.append names))
  | backups : Mark r root content (.made (root.append Settings.default.backupDirectory.parts))
  | content (text : Text) (h : content = some text) :
    Mark r root content (.written (root.append r.way) (Repair.contentBytes text))
  | backup (names : List Text) (h : ∀ name ∈ names, IsEntryName name) (bytes : List UInt8) :
    Mark r root content
      (.copied (root.append (Settings.default.backupDirectory.parts ++ names)) bytes)

section
variable {b : Bench} {path : Text} {audit : AuditOptions} {o : RepairOptions} {root : Path}

theorem backupFolder_standard (root : Path) (hdir : o.backupDirectory = none) :
    (Service.standard.plan root o).backupFolder =
      root.append Settings.default.backupDirectory.parts := by
  unfold Repair.Plan.backupFolder Service.plan
  rw [hdir]
  rfl

theorem isAscii_of_plan {site : Site} {v : Verdict} {actions : List Action} {a : Action}
    {r : BuiltinRemedy} (hsite : site.settings = .default) (hok : r.plan site v = .ok actions)
    (ha : a ∈ actions) {text : Text} (hpath : a.path = some text) : text.all isAscii = true := by
  rcases mem_plan hok ha with ⟨hp, -⟩ | ⟨-, hp, -⟩
  · obtain rfl := Option.some.inj (hpath.symm.trans hp)
    rw [hsite]
    cases r <;> decide
  · obtain rfl := Option.some.inj (hpath.symm.trans hp)
    decide

/-- **Each change of an action of a remedy has its place.** -/
theorem mark_of_change (hdir : o.backupDirectory = none) {site : Site} {v : Verdict}
    {actions : List Action} {a : Action} {r : BuiltinRemedy} (hsite : site.settings = .default)
    (hok : r.plan site v = .ok actions) (ha : a ∈ actions) {c : Change}
    (hc : c ∈ Repair.changesOf (Service.standard.plan root o) b a) : Mark r root a.content c := by
  obtain ⟨text, htext, heffect⟩ := Repair.effect_of_mem_changesOf hc
  obtain ⟨names, hne, hpre, htarget, hway⟩ := target_standard root o hsite hok ha htext
  have hfolder := backupFolder_standard root hdir
  generalize a.content = content at heffect hway
  cases heffect with
  | folder =>
    rw [htarget]
    exact .folder names hpre
  | @parent content =>
    obtain rfl := hway rfl
    have hparent : (root.append r.way).parent = root.append r.way.dropLast := by
      unfold Path.parent Path.append
      rw [List.dropLast_append_of_ne_nil hne]
    rw [htarget, hparent]
    exact .folder _ (List.dropLast_prefix r.way)
  | @content text =>
    obtain rfl := hway rfl
    rw [htarget]
    exact .content text rfl
  | backups hb =>
    rw [hfolder]
    exact .backups
  | copy hb hm bytes =>
    have hbackup : Repair.backupPath (Service.standard.plan root o).backupFolder text b.clock =
        root.append (Settings.default.backupDirectory.parts ++ [backupName text b.clock]) := by
      rw [hfolder, ← Path.append_append]
      rfl
    have hentry := isEntryName_backupName (isAscii_of_plan hsite hok ha htext) b.clock
    rw [hbackup, htarget]
    unfold Tree.copyPath
    split
    · -- a directory in the place of the backup receives the file under its own name
      have hname : IsEntryName (root.append names).name :=
        r.isEntryName_way _ (hpre.subset (Path.name_append_mem root hne))
      rw [Path.append_append, List.append_assoc]
      exact .backup _ (by simpa using ⟨hentry, hname⟩) bytes
    · exact .backup _ (by simpa using hentry) bytes

theorem mark_of_mem_journal (hdir : o.backupDirectory = none) {c : Change}
    (h : c ∈ Service.standard.journal b path audit o) :
    ∃ root, b.tree.resolve (.ofText path) = .ok root ∧ ∃ (r : BuiltinRemedy) (content : Option Text),
      Mark r root content c ∧ ∃ p, describe b.tree .default path audit.search = .ok p ∧
        r.check.Repairable .default b.tree p := by
  obtain ⟨before, root, haudit, hroot, ⟨b', a⟩, hx, hc⟩ := Service.of_mem_journal h
  obtain ⟨r, site, v, actions, hsite, hok, ha, hasked⟩ := remedy_of_performed haudit hx
  exact ⟨root, hroot, r, a.content, mark_of_change hdir hsite hok ha hc, hasked⟩

/-- Every file of a standard fix has its way from the root. -/
theorem way_of_mem_journal (hdir : o.backupDirectory = none) {c : Change}
    {x : Path × List UInt8} (h : c ∈ Service.standard.journal b path audit o) (hx : x ∈ c.file?) :
    ∃ root, b.tree.resolve (.ofText path) = .ok root ∧
      ∃ names, FixWay names ∧ x.1 = root.append names := by
  obtain ⟨root, hroot, r, content, hmark, -⟩ := mark_of_mem_journal hdir h
  refine ⟨root, hroot, ?_⟩
  cases hmark with
  | folder => cases hx
  | backups => cases hx
  | content text _ =>
    cases hx
    exact ⟨r.way, .remedy r, rfl⟩
  | backup names hsteps bytes =>
    cases hx
    exact ⟨_, .backup names fun name hn => (hsteps name hn).1, rfl⟩

end

end PackageAudit
