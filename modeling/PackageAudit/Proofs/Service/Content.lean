import PackageAudit.Proofs.Package.Describe
import PackageAudit.Proofs.Repair.Remedies
import PackageAudit.Proofs.Service.Journal
import PackageAudit.Proofs.Text.Lines

/-! # What a fix does to content that is there

With the rules that come with the audit a remedy writes where nothing of value is: the check that it
answers has found no file there, or a blank one (`vacant_of_repairable`). There is one exception. A
type configuration that cannot be read as a text counts as empty and is written over. Apart from
that a file with content changes only where a backup lands on it, which takes a stamp that was in use
before. `fix_overwrites_iff` says of every file with content, apart from the manifest, when a fix
changes it.
-/

namespace PackageAudit

open PackageAudit.Tree (Sound Named NoLinks Change Account IsStep)

/-- Bytes of a text that is empty or blank. -/
def Blank (bytes : List UInt8) : Prop :=
  ∃ text, Utf8.decode bytes = .ok text ∧ text.isBlank = true

theorem Repair.decode_contentBytes (content : Text) :
    ∃ text, Utf8.decode (Repair.contentBytes content) = .ok text := by
  unfold Repair.contentBytes
  split
  · next bytes h => exact ⟨content, Utf8.decode_encode h⟩
  · exact ⟨[], rfl⟩

/-- The bytes of the type configuration that is written. -/
def typeConfigBytes : List UInt8 :=
  Repair.contentBytes (Json.document (.obj Remedies.typeConfigTemplate))

theorem decode_typeConfigBytes : ∃ text, Utf8.decode typeConfigBytes = .ok text :=
  Repair.decode_contentBytes _

/-- The service with the rules and remedies that come with the audit, and default settings. -/
def Service.standard : Service := .new .default (.builtin .default)

section
variable {t : Tree} {o : SearchOptions} {path : Text} {root : Path} {base : Location}
  {ms : Json.Members}

/-- The names on the path of the file that a remedy writes. -/
def BuiltinRemedy.way : BuiltinRemedy → List Text
  | .manifest => [Settings.default.manifestName]
  | .readme => [Settings.default.readmeName]
  | .typeConfig => [Settings.default.typeConfigName]
  | .testDirectory => ["tests", "smoke.test.js"]
  | .buildScript => [Settings.default.manifestName]
  | .ignoreFile => [Settings.default.ignoreFileName]

theorem BuiltinRemedy.file_eq (r : BuiltinRemedy) : r.file .default = Text.join "/" r.way := by
  cases r <;> rfl

theorem BuiltinRemedy.isEntryName_way (r : BuiltinRemedy) :
    ∀ name ∈ r.way, Tree.IsEntryName name := by
  cases r <;> decide

theorem BuiltinRemedy.isStep_way (r : BuiltinRemedy) : ∀ name ∈ r.way, IsStep name :=
  fun name hn => (r.isEntryName_way name hn).1

theorem BuiltinRemedy.plain_way (r : BuiltinRemedy) : r.way.map Name.plain = r.way :=
  Tree.map_plain r.isEntryName_way

/-- A readme under its own name is found, under this name or another one. -/
theorem Described.readme?_ne_none (h : Described t .default o path root base ms) (hn : Named t)
    {bytes : List UInt8} (hk : t.get? (base ++ [Settings.default.readmeName]) = some (.file bytes)) :
    Check.readme? .default h.package ≠ none := by
  have hhas := (h.hasFile_top hn _ (by decide)).mpr
    ⟨Listing.isListed_of_not_hidden o (by decide), bytes, hk⟩
  obtain ⟨f, hf, hp⟩ := List.any_eq_true.mp hhas
  rw [Bool.and_eq_true, beq_iff_eq] at hp
  have hmem : f ∈ h.package.regularFiles := List.mem_filter.mpr ⟨hf, hp.2⟩
  unfold Check.readme?
  rw [Ne, List.find?_eq_none]
  intro hall
  refine hall f hmem ?_
  unfold PackageFile.isTopLevel
  rw [hp.1]
  decide

/-- **What a remedy writes over is no content**, unless it is the manifest or a type configuration
that is no text. -/
theorem vacant_of_repairable (h : Described t .default o path root base ms) (hs : Sound t)
    (hn : Named t) {r : BuiltinRemedy} (hr : r.check.Repairable .default t h.package)
    {old : List UInt8} (hk : t.get? (base ++ r.way) = some (.file old)) (hold : ¬ Blank old) :
    r.way = [Settings.default.manifestName] ∨
      (r = .typeConfig ∧ ∃ e, Utf8.decode old = .error e) := by
  cases r with
  | manifest => exact .inl rfl
  | buildScript => exact .inl rfl
  | readme =>
    exact absurd (BuiltinCheck.repairable_readmeExists.mp hr) (h.readme?_ne_none hn hk)
  | ignoreFile =>
    have hhas := (h.hasFile_top hn _ (by decide)).mpr
      ⟨Listing.isListed_ignoreFile .default o, old, hk⟩
    rw [BuiltinCheck.repairable_ignoreFile.mp hr] at hhas
    cases hhas
  | testDirectory =>
    have hbelow : t.get? (base ++ [Text.ofString "tests"] ++ [Text.ofString "smoke.test.js"]) ≠ none := by
      rw [List.append_assoc]
      exact Option.ne_none_iff_exists'.mpr ⟨_, hk⟩
    have hfolder := hs.parent hbelow
    have hhas := (h.hasFolder_top hn (Text.ofString "tests") (by decide)).mpr
      ⟨Listing.isListed_of_not_hidden o (by decide), hfolder, by decide⟩
    have hnot := BuiltinCheck.repairable_testDirectory.mp hr
    exact absurd hhas (List.find?_eq_none.mp hnot _ (by decide))
  | typeConfig =>
    refine .inr ⟨rfl, ?_⟩
    have hlisted : Listing.isListed .default o Settings.default.typeConfigName = true :=
      Listing.isListed_of_not_hidden o (by decide)
    have hhas := (h.hasFile_top hn _ (by decide)).mpr ⟨hlisted, old, hk⟩
    have htext := h.textOf_top hn _ (by decide) hlisted hk
    rcases BuiltinCheck.repairable_typeConfig.mp hr with hnot | ⟨text, hread, hblank⟩
    · rw [hnot] at hhas
      cases hhas
    · cases hd : Utf8.decode old with
      | error e => exact ⟨e, rfl⟩
      | ok found =>
        rw [hd] at htext
        have heq := Except.ok.inj (hread.symm.trans htext)
        have hb := hblank _ heq
        rw [Text.isBlank_uniformLineEnds] at hb
        exact absurd ⟨found, hd, hb⟩ hold

end

/-! ## The changes of a standard fix -/

section
variable {b : Bench} {path : Text} {audit : AuditOptions} {o : RepairOptions} {root : Path}

/-- An action of a standard fix is planned by the remedy for a check that has found something to
repair. -/
theorem remedy_of_performed {before : Report}
    (haudit : Service.standard.audit b.tree path audit = .ok before) {s : Repair.Progress}
    {x : Bench × Action}
    (hx : x ∈ Repair.performedIn (Service.standard.plan root o) s before.fixableViolations) :
    ∃ (r : BuiltinRemedy) (site : Site) (v : Verdict) (actions : List Action),
      site.settings = .default ∧ r.plan site v = .ok actions ∧ x.2 ∈ actions ∧
        ∃ p, describe b.tree .default path audit.search = .ok p ∧
          r.check.Repairable .default b.tree p := by
  obtain ⟨s, v, actions, hv, hplan, ha⟩ := Repair.mem_performedIn hx
  obtain ⟨hv, hfix⟩ := List.mem_filter.mp hv
  obtain ⟨p, hp, c, hid, -, hrep⟩ := verdict_builtin (s := .default) haudit hv
  obtain ⟨remedy, hfind, hok, -, -⟩ := Repair.of_planned hplan
  rw [hid] at hfind
  obtain ⟨r, rfl, rfl⟩ := find?_builtin hfind
  exact ⟨r, _, v, actions, rfl, hok, ha, p, hp, (hrep.mp hfix).2⟩

/-- Where an action of a remedy goes. -/
theorem target_standard {site : Site} {v : Verdict} {actions : List Action} {a : Action}
    {r : BuiltinRemedy} (root : Path) (o : RepairOptions) (hsite : site.settings = .default)
    (hok : r.plan site v = .ok actions) (ha : a ∈ actions) {text : Text}
    (hpath : a.path = some text) :
    ∃ names, names ≠ [] ∧ names <+: r.way ∧
      (Service.standard.plan root o).target text = root.append names ∧
        (a.content.isSome → names = r.way) := by
  rcases mem_plan hok ha with ⟨hp, -⟩ | ⟨rfl, hp, hnone⟩
  · have htext : text = Text.join "/" r.way :=
      (Option.some.inj (hpath.symm.trans hp)).trans (hsite ▸ r.file_eq)
    refine ⟨r.way, by cases r <;> exact List.cons_ne_nil _ _, List.prefix_rfl, ?_, fun _ => rfl⟩
    rw [htext]
    exact Path.join_ofText_join root fun name hn => (r.isStep_way name hn).1
  · refine ⟨[Text.ofString "tests"], List.cons_ne_nil _ _, ⟨[Text.ofString "smoke.test.js"], rfl⟩,
      ?_, by simp [hnone]⟩
    rw [← Option.some.inj (hp.symm.trans hpath)]
    have hstep : ∀ name ∈ [Text.ofString "tests"], IsStep name := by decide
    exact Path.join_ofText_join root fun name hn => (hstep name hn).1

/-- **What a standard fix writes** is the file of a remedy whose check asked for it. -/
theorem of_written {q : Path} {bytes : List UInt8}
    (h : .written q bytes ∈ Service.standard.journal b path audit o) :
    ∃ root, b.tree.resolve (.ofText path) = .ok root ∧ ∃ r : BuiltinRemedy,
      q = root.append r.way ∧ (r = .typeConfig → bytes = typeConfigBytes) ∧
        ∃ p, describe b.tree .default path audit.search = .ok p ∧
          r.check.Repairable .default b.tree p := by
  obtain ⟨before, root, haudit, hroot, ⟨b', a⟩, hx, hc⟩ := Service.of_mem_journal h
  obtain ⟨r, site, v, actions, hsite, hok, ha, p, hp, hrep⟩ := remedy_of_performed haudit hx
  obtain ⟨text, htext, heffect⟩ := Repair.effect_of_mem_changesOf hc
  obtain ⟨names, -, -, htarget, hway⟩ := target_standard root o hsite hok ha htext
  generalize hcont : a.content = content at heffect hway
  cases heffect with
  | content =>
    refine ⟨root, hroot, r, by rw [htarget, hway rfl], ?_, p, hp, hrep⟩
    rintro rfl
    exact congrArg Repair.contentBytes
      (Option.some.inj (hcont.symm.trans (content_typeConfig hok ha)))

/-- A backup of a standard fix that lands where something was before has found its stamp in use. -/
theorem taken_of_copied (hs : Sound b.tree) (hl : NoLinks b.tree)
    (hdir : (o.backupDirectory.getD Settings.default.backupDirectory).Proper) {q : Path}
    {bytes : List UInt8} (h : .copied q bytes ∈ Service.standard.journal b path audit o)
    {k : Location} (hk : b.tree.get? k ≠ none)
    (hland : (Service.standard.fix b path audit o).1.tree.landing q = some k) :
    ∃ n, b.clock ≤ n ∧ ¬ Free b.tree n := by
  obtain ⟨before, root, haudit, hroot, x, hx, hc⟩ := Service.of_mem_journal h
  obtain ⟨hsx, hclock, hgx, hg⟩ := Service.performed_fix hs haudit hroot hdir hx
  have hp : (Service.standard.plan root o).Rooted := Service.rooted_plan hs hroot hdir
  have hacc := Repair.account_perform hp hsx x.2
  refine ⟨x.1.clock, hclock, ?_⟩
  refine Repair.taken_of_copied hp hs hsx (hl.grows (hgx.trans (hacc.grows.trans hg))) hg hc ?_ hk
    hland
  intro text htext
  obtain ⟨r, site, v, actions, hsite, hok, ha, -⟩ := remedy_of_performed haudit hx
  obtain ⟨names, hne, hpre, htarget, -⟩ := target_standard root o hsite hok ha htext
  rw [htarget]
  exact r.isStep_way _ (hpre.subset (Path.name_append_mem root hne))

end

/-! ## Files with content -/

/-- **When a fix takes a file's content**, for every tree of files and directories and every file with
content other than the manifest: if and only if the last that it wrote there is either the type
configuration, where the old one was no text, or a backup of other bytes. -/
theorem fix_overwrites_iff {b : Bench} {path : Text} {audit : AuditOptions} {o : RepairOptions}
    {root : Path} {base k : Location} {old : List UInt8} (hs : Sound b.tree) (hn : Named b.tree)
    (hl : NoLinks b.tree) (hdir : ∀ dir ∈ o.backupDirectory, dir.Proper)
    (hroot : b.tree.resolve (.ofText path) = .ok root)
    (hbase : b.tree.status root = .ok (base, .folder)) (hk : b.tree.get? k = some (.file old))
    (hold : ¬ Blank old) (hman : k ≠ base ++ [Settings.default.manifestName]) :
    let after := (Service.standard.fix b path audit o).1.tree
    let journal := Service.standard.journal b path audit o
    after.get? k ≠ some (.file old) ↔
      (k = base ++ [Settings.default.typeConfigName] ∧ (∃ e, Utf8.decode old = .error e) ∧
        Change.LastAt after k journal
          (.written (root.append [Settings.default.typeConfigName]) typeConfigBytes)) ∨
      (∃ n, b.clock ≤ n ∧ ¬ Free b.tree n) ∧
        ∃ q bytes, bytes ≠ old ∧ Change.LastAt after k journal (.copied q bytes) := by
  intro after journal
  have hproper : (o.backupDirectory.getD Settings.default.backupDirectory).Proper := by
    cases hd : o.backupDirectory with
    | none => decide
    | some dir => exact hdir dir hd
  have hacc : Account b.tree journal after := Service.account_fix hs hproper
  rw [hacc.get?_ne_iff hk]
  constructor
  · rintro ⟨c, x, hlast, hx, hne⟩
    cases c with
    | made q => cases hx
    | copied q bytes =>
      cases hx
      exact .inr ⟨taken_of_copied hs hl hproper hlast.mem (by rw [hk]; exact nofun)
        (hlast.landing rfl), q, bytes, hne, hlast⟩
    | written q bytes =>
      cases hx
      obtain ⟨root', hroot', r, rfl, hbytes, p, hp, hrep⟩ := of_written hlast.mem
      obtain rfl := Except.ok.inj (hroot.symm.trans hroot')
      obtain ⟨root', base', ms, hd, rfl⟩ := (describe_eq_described hs hn hl).mp hp
      obtain rfl := Except.ok.inj (hroot.symm.trans hd.resolved)
      obtain ⟨rfl, -⟩ := Prod.mk.inj (Except.ok.inj (hbase.symm.trans hd.ground.folder))
      have hway : k = base ++ r.way := by
        have hland := Tree.landing_eq_some.mp (hlast.landing rfl)
        have hst := Tree.status_folder_grows hacc.grows hbase
        have := Tree.locate_append hst (by cases r <;> decide) r.isStep_way
          ((hl.grows hacc.grows).clearWay base r.way) hland
        rwa [r.plain_way] at this
      subst hway
      rcases vacant_of_repairable hd hs hn hrep hk hold with hmanifest | ⟨rfl, herror⟩
      · exact absurd (by rw [hmanifest]) hman
      · exact .inl ⟨rfl, herror, hbytes rfl ▸ hlast⟩
  · rintro (⟨-, ⟨e, he⟩, hlast⟩ | ⟨-, q, bytes, hne, hlast⟩)
    · refine ⟨_, _, hlast, rfl, fun heq => ?_⟩
      obtain ⟨text, htext⟩ := decode_typeConfigBytes
      dsimp only at heq
      rw [heq, he] at htext
      cases htext
    · exact ⟨_, _, hlast, rfl, hne⟩

/-! ### A type configuration that is no text -/

namespace Undecodable

/-- A package whose type configuration is a single byte that is no text. -/
def bench : Bench :=
  ⟨⟨[(["pkg"], .folder), (["pkg", "package.json"], .file [123, 125]),
    (["pkg", "tsconfig.json"], .file [255])], []⟩, 7⟩

def root : Path := ⟨.root, ["pkg"]⟩

/-- Only the type configuration is audited. -/
def audit : AuditOptions := { AuditOptions.default with included := ["TYPE_CONFIG_REQUIRED"] }

/-- No file is copied before it is overwritten. -/
def options : RepairOptions := ⟨false, false, none, none, false, [], [], none⟩

def files : List PackageFile :=
  [⟨"package.json", false, 2, some 1, false⟩, ⟨"tsconfig.json", false, 1, some 1, false⟩]

theorem describe_eq : describe bench.tree .default "/pkg" audit.search =
    .ok (Describe.package .default root [] files) := by
  have hnames : bench.tree.names ["pkg"] =
      [Text.ofString "package.json", Text.ofString "tsconfig.json"] :=
    Tree.names_of_ordered (by decide) (by decide)
  exact describe_of_names rfl rfl rfl rfl rfl rfl hnames rfl

/-- What is said about the type configuration. -/
def verdict : Verdict :=
  Evaluation.verdict BuiltinCheck.typeConfig.rule
    ((Outcome.failed "tsconfig.json exists but is empty").about "tsconfig.json")

theorem verdicts_eq : Service.standard.auditor.verdicts bench.tree
    (Describe.package .default root [] files) audit = .ok [verdict] := by
  have h : Service.standard.auditor.verdicts bench.tree (Describe.package .default root [] files)
      audit = evaluate (.builtin .default) bench.tree (Describe.package .default root [] files)
        (.seconds (.ofInt 30)) [BuiltinCheck.typeConfig.rule] := by rfl
  rw [h]
  rfl

theorem get?_fix : (Service.standard.fix bench "/pkg" audit options).1.tree.get?
    ["pkg", "tsconfig.json"] = some (.file typeConfigBytes) := by
  have h := @Service.fix_bench_of_verdicts .standard bench "/pkg" audit options _ _ describe_eq
    verdicts_eq rfl
  rw [h]
  decide +kernel

end Undecodable

/-- A type configuration that is no text is written over, and lost if there are no backups. -/
theorem fix_overwrites_undecodable :
    let after := (Service.standard.fix Undecodable.bench "/pkg" Undecodable.audit
      Undecodable.options).1.tree
    ¬ Blank [255] ∧ after.get? ["pkg", "tsconfig.json"] ≠ some (.file [255]) ∧
      Change.LastAt after ["pkg", "tsconfig.json"] (Service.standard.journal Undecodable.bench "/pkg"
        Undecodable.audit Undecodable.options)
        (.written (Undecodable.root.append [Settings.default.typeConfigName]) typeConfigBytes) := by
  intro after
  have hblank : ¬ Blank [255] := fun ⟨_, h, _⟩ => nomatch h
  have hne : after.get? ["pkg", "tsconfig.json"] ≠ some (.file [255]) := by
    intro h
    have hbytes := Option.some.inj (Undecodable.get?_fix.symm.trans h)
    obtain ⟨text, htext⟩ := decode_typeConfigBytes
    rw [Entry.file.inj hbytes] at htext
    cases htext
  have hiff := @fix_overwrites_iff Undecodable.bench "/pkg" Undecodable.audit Undecodable.options
    Undecodable.root ["pkg"] ["pkg", "tsconfig.json"] [255]
    (Tree.sound_of_entries rfl nofun (by decide)) ⟨by decide, by decide, by decide, by decide⟩
    (Tree.noLinks_of_entries (by simp [Undecodable.bench])) nofun rfl rfl rfl hblank (by decide)
  refine ⟨hblank, hne, ?_⟩
  rcases hiff.mp hne with ⟨-, -, hlast⟩ | ⟨⟨n, -, hn⟩, -⟩
  · exact hlast
  · exact absurd (free_of_not_suffix (by decide) n) hn

end PackageAudit
