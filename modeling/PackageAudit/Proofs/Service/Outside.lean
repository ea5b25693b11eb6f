import PackageAudit.Proofs.Service.Ways

/-! # What a fix does outside its package

The audit of a package does not follow links, but a file that a fix writes lands where the links on
its way lead. `fix_outside_iff` says of every file outside the package when a fix changes it; without
a link where a fix writes (`FixWay`) no file outside changes.
-/

namespace PackageAudit

open PackageAudit.Tree (Sound Change ClearWay IsStep)

/-- **When a fix changes a file outside its package**, for every tree and whatever links are in it:
if and only if the last that the fix wrote there are other bytes. What it wrote has a way in the
package, and there is a link on that way. -/
theorem fix_outside_iff {b : Bench} {path : Text} {audit : AuditOptions} {o : RepairOptions}
    {root : Path} {base k : Location} {old : List UInt8} (hs : Sound b.tree)
    (hdir : o.backupDirectory = none) (hroot : b.tree.resolve (.ofText path) = .ok root)
    (hbase : b.tree.status root = .ok (base, .folder)) (hk : b.tree.get? k = some (.file old))
    (hout : ¬ base <+: k) :
    let after := (Service.standard.fix b path audit o).1.tree
    after.get? k ≠ some (.file old) ↔
      ∃ (c : Change) (names : List Text) (bytes : List UInt8), c.LastAt after k (Service.standard.journal b path audit o) ∧
        c.file? = some (root.append names, bytes) ∧ bytes ≠ old ∧
        FixWay names ∧ ¬ ClearWay b.tree base names := by
  intro after
  have hproper : (o.backupDirectory.getD Settings.default.backupDirectory).Proper := by
    rw [hdir]
    decide
  have hacc : Tree.Account b.tree (Service.standard.journal b path audit o) after :=
    Service.account_fix hs hproper
  rw [hacc.get?_ne_iff hk]
  constructor
  · rintro ⟨c, ⟨q, bytes⟩, hlast, hx, hne⟩
    obtain ⟨root', hroot', names, hway, hq⟩ := way_of_mem_journal hdir hlast.mem hx
    obtain rfl := Except.ok.inj (hroot.symm.trans hroot')
    obtain rfl : q = root.append names := hq
    refine ⟨c, names, bytes, hlast, hx, hne, hway, fun hclear => ?_⟩
    -- past no link what is written stays below the root
    have hclear' : ClearWay after base names := fun way hw hwne target hl =>
      hclear way hw hwne target (hacc.grows.link.mpr hl)
    have hland := Tree.landing_eq_some.mp (hlast.landing hx)
    have hway := Tree.locate_append (Tree.status_folder_grows hacc.grows hbase) hway.ne_nil
      hway.isStep hclear' hland
    exact hout (hway ▸ List.prefix_append base _)
  · rintro ⟨c, names, bytes, hlast, hx, hne, -, -⟩
    exact ⟨c, _, hlast, hx, hne⟩

/-! ### A type configuration that is a link -/

namespace Linked

/-- A package whose type configuration is a link to a file outside. -/
def bench : Bench :=
  ⟨⟨[(["base.json"], .file [123, 125]), (["pkg"], .folder),
    (["pkg", "package.json"], .file [123, 125]), (["pkg", "tsconfig.json"], .link "../base.json")],
    []⟩, 7⟩

def root : Path := ⟨.root, ["pkg"]⟩

/-- Only the type configuration is audited. -/
def audit : AuditOptions := { AuditOptions.default with included := ["TYPE_CONFIG_REQUIRED"] }

def options : RepairOptions := ⟨false, true, none, none, false, [], [], none⟩

def files : List PackageFile := [⟨"package.json", false, 2, some 1, false⟩]

theorem describe_eq : describe bench.tree .default "/pkg" audit.search =
    .ok (Describe.package .default root [] files) := by
  have hnames : bench.tree.names ["pkg"] =
      [Text.ofString "package.json", Text.ofString "tsconfig.json"] :=
    Tree.names_of_ordered (by decide) (by decide)
  exact describe_of_names rfl rfl rfl rfl rfl rfl hnames rfl

/-- What is said about the type configuration. -/
def verdict : Verdict :=
  Evaluation.verdict BuiltinCheck.typeConfig.rule
    ((Outcome.failed "tsconfig.json file is missing").about "tsconfig.json")

theorem verdicts_eq : Service.standard.auditor.verdicts bench.tree
    (Describe.package .default root [] files) audit = .ok [verdict] := by
  have h : Service.standard.auditor.verdicts bench.tree (Describe.package .default root [] files)
      audit = evaluate (.builtin .default) bench.tree (Describe.package .default root [] files)
        (.seconds (.ofInt 30)) [BuiltinCheck.typeConfig.rule] := by rfl
  rw [h]
  rfl

theorem get?_fix : (Service.standard.fix bench "/pkg" audit options).1.tree.get? ["base.json"] =
    some (.file typeConfigBytes) := by
  have h := @Service.fix_bench_of_verdicts .standard bench "/pkg" audit options _ _ describe_eq
    verdicts_eq rfl
  rw [h]
  decide +kernel

end Linked

/-- Where the type configuration is a link to a file outside, that file is written over. -/
theorem fix_outside_linked_config :
    let after := (Service.standard.fix Linked.bench "/pkg" Linked.audit Linked.options).1.tree
    after.get? ["base.json"] ≠ some (.file [123, 125]) ∧
      ∃ (c : Change) (names : List Text) (bytes : List UInt8),
        c.LastAt after ["base.json"]
          (Service.standard.journal Linked.bench "/pkg" Linked.audit Linked.options) ∧
        c.file? = some (Linked.root.append names, bytes) ∧ bytes ≠ [123, 125] ∧
        FixWay names ∧ ¬ ClearWay Linked.bench.tree ["pkg"] names := by
  intro after
  have hne : after.get? ["base.json"] ≠ some (.file [123, 125]) := by
    rw [Linked.get?_fix]
    decide +kernel
  have hiff := @fix_outside_iff Linked.bench "/pkg" Linked.audit Linked.options Linked.root ["pkg"]
    ["base.json"] [123, 125] (Tree.sound_of_entries rfl nofun (by decide)) rfl rfl rfl rfl
    (by decide)
  exact ⟨hne, hiff.mp hne⟩

end PackageAudit
