import PackageAudit.Proofs.Service.Ways

/-! # The tree that a fix leaves

Without links what differs in a package after a standard fix lies where a remedy may touch it whose
check asked for it (`touch_of_ne`), and no path there is too long. So the package is described again
if its manifest can still be read (`Described.fixed`).
-/

namespace PackageAudit

open PackageAudit.Tree (Sound Named NoLinks Grows Change Account IsStep IsEntryName)

/-- The ways from the root of a package on which a remedy may change something: its own and those
to the backups. -/
inductive Touch (r : BuiltinRemedy) : List Text → Prop
  | way {names : List Text} (h : names <+: r.way) : Touch r names
  | backup (names : List Text) : Touch r (Settings.default.backupDirectory.parts ++ names)

/-- The changes of an action of a remedy are on such ways. -/
theorem Mark.exists_names {r : BuiltinRemedy} {root : Path} {content : Option Text} {c : Change}
    (h : Mark r root content c) : ∃ names, c.path = root.append names ∧
      (∀ name ∈ names, IsEntryName name) ∧ ∀ rest, rest <+: names → Touch r rest := by
  have hname : ∀ name ∈ Settings.default.backupDirectory.parts, IsEntryName name := by decide
  have htouch : ∀ names rest, rest <+: Settings.default.backupDirectory.parts ++ names →
      Touch r rest := by
    intro names rest hrest
    rcases List.prefix_cons_iff.mp hrest with rfl | ⟨more, rfl, -⟩
    · exact .way (List.nil_prefix)
    · exact .backup more
  cases h with
  | folder names hpre =>
    exact ⟨names, rfl, fun name hn => r.isEntryName_way name (hpre.subset hn),
      fun rest hrest => .way (hrest.trans hpre)⟩
  | backups => exact ⟨_, rfl, hname, htouch []⟩
  | content text _ =>
    exact ⟨r.way, rfl, r.isEntryName_way, fun rest hrest => .way hrest⟩
  | backup names hnames bytes =>
    refine ⟨_, rfl, fun name hn => ?_, htouch names⟩
    exact (List.mem_append.mp hn).elim (hname name) (hnames name)

section
variable {b : Bench} {path : Text} {audit : AuditOptions} {o : RepairOptions} {root : Path}
  {base : Location} {ms : Json.Members} (hs : Sound b.tree) (hn : Named b.tree)
  (hl : NoLinks b.tree) (hdir : o.backupDirectory = none)
  (h : Described b.tree .default audit.search path root base ms)

variable (path audit) in
include hs hdir in
theorem account_standard : Account b.tree (Service.standard.journal b path audit o)
    (Service.standard.fix b path audit o).1.tree :=
  Service.account_fix hs (by rw [hdir]; decide)

include hs hn hl hdir h in
theorem exists_mark {c : Change} (hc : c ∈ Service.standard.journal b path audit o) :
    ∃ (r : BuiltinRemedy) (content : Option Text), Mark r root content c ∧
      r.check.Repairable .default b.tree h.package := by
  obtain ⟨root', hroot', r, content, hmark, p, hp, hrep⟩ := mark_of_mem_journal hdir hc
  obtain rfl := Except.ok.inj (h.resolved.symm.trans hroot')
  have hdesc := (describe_eq_described hs hn hl).mpr ⟨root, base, ms, h, rfl⟩
  obtain rfl := Except.ok.inj (hp.symm.trans hdesc)
  exact ⟨r, content, hmark, hrep⟩

include hs hn hl hdir h in
/-- **What a fix changes in a package** lies on the ways of remedies whose checks asked for it; its
path and its names are not too long. -/
theorem touch_of_ne {way : Location}
    (hne : (Service.standard.fix b path audit o).1.tree.get? (base ++ way) ≠
      b.tree.get? (base ++ way)) :
    (∃ r : BuiltinRemedy, r.check.Repairable .default b.tree h.package ∧ Touch r way) ∧
      Name.size (root.append way).toText ≤ Tree.maxPathBytes ∧
      ∀ name ∈ way, Name.size name ≤ Tree.maxNameBytes := by
  have hacc := account_standard path audit hs hdir
  obtain ⟨c, hc, purpose, parts, hparts, hloc⟩ := hacc.locate_of_ne hne
  obtain ⟨r, content, hmark, hrep⟩ := exists_mark hs hn hl hdir h hc
  obtain ⟨names, hpath, hnames, htouch⟩ := hmark.exists_names
  rw [hpath] at hparts hloc
  obtain ⟨rest, hrest, hway, hsize, hsizes⟩ := (h.ground.grows hacc.grows).of_locate
    (hl.grows hacc.grows) (fun name hm => (hnames name hm).1) hparts hloc
  have hplain : rest.map Name.plain = rest :=
    Tree.map_plain fun x hx => hnames x (hrest.subset hx)
  obtain rfl : way = rest := hway.trans hplain
  exact ⟨⟨r, hrep, htouch way hrest⟩, hsize, hsizes⟩

include hs hn hl hdir h in
theorem named_fix : Named (Service.standard.fix b path audit o).1.tree := by
  have hacc := account_standard path audit hs hdir
  have hbase : b.tree.get? base = some .folder := (Tree.status_eq_ok.mp h.ground.folder).2
  have hnames : ∀ x ∈ (Service.standard.fix b path audit o).1.tree.entries, ∀ name ∈ x.1,
      IsEntryName name := by
    intro x hx
    by_cases hold : b.tree.get? x.1 = none
    · have hnew := Tree.get?_ne_none_of_mem (t := (Service.standard.fix b path audit o).1.tree) hx
      obtain ⟨c, hc, purpose, parts, hparts, hloc⟩ :=
        hacc.locate_of_ne (k := x.1) (by rw [hold]; exact hnew)
      obtain ⟨r, content, hmark, -⟩ := exists_mark hs hn hl hdir h hc
      obtain ⟨names, hpath, hentry, -⟩ := hmark.exists_names
      rw [hpath] at hparts hloc
      have habs : Path.isAbsolute ⟨root.anchor, parts⟩ = true := h.ground.isAbsolute
      refine Tree.locate_names ((hl.grows hacc.grows).linkNames _) habs (fun name hm => ?_) hloc
      rcases List.mem_append.mp (hparts.subset hm) with hm | hm
      · refine hn.of_get? (by rw [hbase]; exact nofun) _ ?_
        rw [h.ground.base_eq]
        exact List.mem_map_of_mem hm
      · rw [(hentry name hm).2.1]
        exact hentry name hm
    · exact hn.of_get? hold
  exact ⟨fun x hx name hm => (hnames x hx name hm).1, fun x hx name hm => (hnames x hx name hm).2.1,
    fun x hx name hm => (hnames x hx name hm).2.2, hacc.once hn.once⟩

include hs hn hl hdir h in
/-- **After a fix a package is described again**, if its manifest can be read. -/
theorem Described.fixed {ms' : Json.Members}
    (hms : readManifest (Service.standard.fix b path audit o).1.tree
      (manifestPath .default root) = .ok ms') :
    Described (Service.standard.fix b path audit o).1.tree .default audit.search path root base
      ms' := by
  have hacc := account_standard path audit hs hdir
  have hg := hacc.grows
  refine ⟨Tree.resolve_grows hs hl hg h.resolved, h.ground.grows hg,
    Tree.isFile_grows hg h.isFile, hms, fun way name hreach hk => ?_⟩
  by_cases hold : b.tree.get? (base ++ way ++ [name]) = none
  · have hne : (Service.standard.fix b path audit o).1.tree.get? (base ++ (way ++ [name])) ≠
        b.tree.get? (base ++ (way ++ [name])) := by
      rw [← List.append_assoc, hold]
      exact hk
    obtain ⟨-, hsize, hsizes⟩ := touch_of_ne hs hn hl hdir h hne
    exact ⟨hsize, fun _ _ => hsizes name (by simp)⟩
  · have hfits := h.fit way name (hreach.of_grown hs (hs.parent hold)) hold
    exact ⟨hfits.path, fun hlisted _ => hfits.name hlisted (hl _)⟩

end

end PackageAudit
