import PackageAudit.Proofs.Repair.Copies

/-! # What backups keep

A run with backups on, in a tree without links: `Kept` holds of the bench that it starts on and of
every bench after it. Whatever file of the first tree has other bytes now was the target of an action
that was carried out, and its first bytes are in the backup directory, under the name of the action's
path and a stamp of the run; all other differences are such targets, such backups and new
directories.

* `Kept.perform`: what one action keeps.
* `backups_keep`: what a run keeps, however it ends.
-/

namespace PackageAudit

open PackageAudit.Tree (Change Account Sound NoLinks IsStep Grows)

namespace Repair

/-- A location is where an action that was carried out writes. -/
def WrittenTo (p : Plan) (ran : List (Bench × Action)) (t : Tree) (path : Text) (k : Location) :
    Prop :=
  ∃ x ∈ ran, x.2.path = some path ∧ x.2.content.isSome ∧ t.landing (p.target path) = some k

/-- A location is where a backup of a path goes, with a stamp from `first` on and before `last`. -/
def BackupAt (p : Plan) (t : Tree) (first last : Nat) (path : Text) (k : Location) : Prop :=
  ∃ folder n, t.status p.backupFolder = .ok (folder, .folder) ∧ first ≤ n ∧ n < last ∧
    k = folder ++ [Name.plain (backupName path n)]

/-- What has become of the first bench. -/
structure Kept (p : Plan) (ran : List (Bench × Action)) (b₀ b : Bench) : Prop where
  sound : Sound b.tree
  grows : Grows b₀.tree b.tree
  clock : b₀.clock ≤ b.clock
  free : ∀ n, b.clock ≤ n → Free b.tree n
  copied : ∀ {k bytes}, b₀.tree.get? k = some (.file bytes) →
    b.tree.get? k ≠ some (.file bytes) → ∃ path, WrittenTo p ran b.tree path k ∧
      ∃ copy, BackupAt p b.tree b₀.clock b.clock path copy ∧
        b.tree.get? copy = some (.file bytes)
  rest : ∀ k, b.tree.get? k ≠ b₀.tree.get? k → (∃ path, WrittenTo p ran b.tree path k) ∨
    (b₀.tree.get? k = none ∧ (b.tree.get? k = some .folder ∨
      ∃ path, BackupAt p b.tree b₀.clock b.clock path k))

/-- A plan along whose own paths nothing has the name of a backup from a stamp on. -/
structure Plan.Clear (p : Plan) (first : Nat) : Prop extends p.Rooted where
  steps : ∀ name ∈ p.root.parts, IsStep name
  unstampedRoot : ∀ n, first ≤ n → Unstamped n p.root
  unstampedBackups : ∀ n, first ≤ n → Unstamped n p.backupFolder

/-- An action whose path goes down from the root and holds no name of a backup from a stamp on. -/
structure Clear (first : Nat) (a : Action) : Prop where
  relative : ∀ path ∈ a.path, (Path.ofText path).isAbsolute = false
  noDots : ∀ path ∈ a.path, (".." : Text) ∉ (Path.ofText path).parts
  unstamped : ∀ path ∈ a.path, ∀ n, first ≤ n → Unstamped n (.ofText path)

section
variable {p : Plan} {b₀ b : Bench} {ran : List (Bench × Action)} {first : Nat} {a : Action}

theorem Clear.steps (hp : p.Clear first) (ha : Clear first a) :
    ∀ path ∈ a.path, ∀ name ∈ (p.target path).parts, IsStep name := by
  intro path hpath name hn
  rw [Plan.target, Path.parts_join_of_relative p.root (ha.relative path hpath)] at hn
  rcases List.mem_append.mp hn with hn | hn
  · exact hp.steps name hn
  · refine ⟨Path.proper_ofText path name hn, ?_⟩
    rintro rfl
    exact ha.noDots path hpath hn

theorem Clear.unstampedTarget (hp : p.Clear first) (ha : Clear first a) :
    ∀ path ∈ a.path, ∀ n, first ≤ n → Unstamped n (p.target path) :=
  fun path hpath n hn => (hp.unstampedRoot n hn).join (ha.unstamped path hpath n hn)

theorem WrittenTo.grows {t t' : Tree} (hg : Grows t t') {path : Text} {k : Location}
    (h : WrittenTo p ran t path k) : WrittenTo p ran t' path k := by
  obtain ⟨x, hx, hpath, hc, hl⟩ := h
  exact ⟨x, hx, hpath, hc, by rw [Tree.landing_grows hg (by rw [hl]; rfl), hl]⟩

theorem BackupAt.grows {t t' : Tree} (hg : Grows t t') {last last' : Nat} (hl : last ≤ last')
    {path : Text} {k : Location} (h : BackupAt p t first last path k) :
    BackupAt p t' first last' path k := by
  obtain ⟨folder, n, hf, hfirst, hlast, rfl⟩ := h
  exact ⟨folder, n, Tree.status_folder_grows hg hf, hfirst, by omega, rfl⟩

theorem Kept.refl (hs : Sound b.tree) (hfree : ∀ n, b.clock ≤ n → Free b.tree n) :
    Kept p ran b b where
  sound := hs
  grows := Grows.refl b.tree
  clock := Nat.le_refl _
  free := hfree
  copied hk hne := absurd hk hne
  rest _ hne := absurd rfl hne

section
variable (hp : p.Clear b₀.clock) (hl : NoLinks b₀.tree) (h : Kept p ran b₀ b) (ha : Clear b₀.clock a)

include hp hl h in
theorem Kept.freeEffect {c : Change} (hc : c ∈ changesOf p b a) :
    ∃ path, a.path = some path ∧ FreeEffect p b a path c :=
  freeEffect_of_mem_changesOf hp.toRooted h.sound ((hl.grows h.grows).unstamped _) (h.free b.clock (Nat.le_refl _))
    (hp.unstampedBackups b.clock h.clock) hc

include hp hl h ha in
/-- Of the stamps of the run only the next one is on a change of an action, and only if the action
copies. -/
theorem Kept.unstamped_changes {n : Nat} (hn : b₀.clock ≤ n)
    (hcopy : n = b.clock → ∀ q bytes, Change.copied q bytes ∉ changesOf p b a) :
    ∀ c ∈ changesOf p b a, c.path.isAbsolute = true ∧ Unstamped n c.path :=
  unstamped_changesOf hp.toRooted h.sound ((hl.grows h.grows).unstamped _)
    (h.free b.clock (Nat.le_refl _)) (hp.unstampedBackups b.clock h.clock) (hp.unstampedBackups n hn)
    (fun path hpath => ha.unstampedTarget hp path hpath n hn) hcopy

include hp hl h ha in
/-- The stamps that are still to come stay free. -/
theorem Kept.free_perform (n : Nat) (hn : (Repair.perform p b a).1.clock ≤ n) :
    Free (Repair.perform p b a).1.tree n := by
  have hbn : b.clock ≤ n := Nat.le_trans (clock_perform p b a) hn
  have hn₀ : b₀.clock ≤ n := Nat.le_trans h.clock hbn
  exact Repair.free_perform hp.toRooted h.sound ((hl.grows h.grows).unstamped _)
    (h.free b.clock (Nat.le_refl _)) (hp.unstampedBackups b.clock h.clock) (hp.unstampedBackups n hn₀)
    (fun path hpath => ha.unstampedTarget hp path hpath n hn₀) ((hl.grows h.grows).unstamped n)
    (h.free n hbn) hn

include hp hl h ha in
/-- A file that is not what it was has a copy: the action has just made it, or it is there from
before and no later stamp touches it. -/
theorem Kept.copied_perform (hb : p.options.backupFiles = true) (hran : (b, a) ∈ ran) {k : Location}
    {bytes : List UInt8} (hk : b₀.tree.get? k = some (.file bytes))
    (hne : (Repair.perform p b a).1.tree.get? k ≠ some (.file bytes)) :
    ∃ path, WrittenTo p ran (Repair.perform p b a).1.tree path k ∧
      ∃ copy, BackupAt p (Repair.perform p b a).1.tree b₀.clock (Repair.perform p b a).1.clock path
          copy ∧
        (Repair.perform p b a).1.tree.get? copy = some (.file bytes) := by
  have hacc := account_perform hp.toRooted h.sound a
  by_cases hkb : b.tree.get? k = some (.file bytes)
  · obtain ⟨path, at', hpath, hc, hlt, hland, hat, hcopy⟩ := perform_keeps hp.toRooted hb h.sound
      (hl.grows h.grows) (h.free b.clock (Nat.le_refl _)) (hp.unstampedBackups b.clock h.clock)
      (ha.steps hp) (fun path hpath => ha.unstampedTarget hp path hpath _ h.clock) hkb hne
    exact ⟨path, ⟨(b, a), hran, hpath, hc, hland⟩, _, ⟨at', b.clock, hat, h.clock, hlt, rfl⟩, hcopy⟩
  · obtain ⟨path, hw, copy, hat, hcopy⟩ := h.copied hk hkb
    refine ⟨path, hw.grows hacc.grows, copy, hat.grows hacc.grows (clock_perform p b a), ?_⟩
    obtain ⟨folder, n, -, hfirst, hlast, rfl⟩ := hat
    rw [Account.get?_backupName hacc ((hl.grows (h.grows.trans hacc.grows)).unstamped n)
      (h.unstamped_changes hp hl ha hfirst fun he => by omega), hcopy]

include hp hl h in
/-- What an action makes different is where it writes, or a backup. -/
theorem Kept.landing_perform (hfree : ∀ n, b₀.clock ≤ n → Free b₀.tree n) (hran : (b, a) ∈ ran)
    {c : Change} (hc : c ∈ changesOf p b a) {x : Path × List UInt8} (hx : c.file? = some x)
    {k : Location} (hland : (Repair.perform p b a).1.tree.landing x.1 = some k) :
    (∃ path, WrittenTo p ran (Repair.perform p b a).1.tree path k) ∨
      (b₀.tree.get? k = none ∧ ∃ path, BackupAt p (Repair.perform p b a).1.tree b₀.clock
        (Repair.perform p b a).1.clock path k) := by
  have hl' : NoLinks (Repair.perform p b a).1.tree :=
    hl.grows (h.grows.trans (account_perform hp.toRooted h.sound a).grows)
  obtain ⟨path, hpath, he⟩ := h.freeEffect hp hl hc
  cases he with
  | folder => cases hx
  | content hcont bytes =>
    cases hx
    exact .inl ⟨path, (b, a), hran, hpath, hcont, hland⟩
  | copy bytes =>
    cases hx
    obtain ⟨hlt, _, -, ⟨at', hat⟩, -⟩ := of_copied hp.toRooted h.sound hc
    have hk : k = at' ++ [Name.plain (backupName path b.clock)] :=
      locate_backupPath hat (hl' _) (Tree.landing_eq_some.mp hland)
    exact .inr ⟨by rw [hk]; exact hfree b.clock h.clock at' path, path, at', b.clock, hat, h.clock,
      hlt, hk⟩

include hp hl h in
theorem Kept.rest_perform (hfree : ∀ n, b₀.clock ≤ n → Free b₀.tree n) (hran : (b, a) ∈ ran)
    (k : Location) (hne : (Repair.perform p b a).1.tree.get? k ≠ b₀.tree.get? k) :
    (∃ path, WrittenTo p ran (Repair.perform p b a).1.tree path k) ∨
      (b₀.tree.get? k = none ∧ ((Repair.perform p b a).1.tree.get? k = some .folder ∨
        ∃ path, BackupAt p (Repair.perform p b a).1.tree b₀.clock (Repair.perform p b a).1.clock
          path k)) := by
  have hacc := account_perform hp.toRooted h.sound a
  by_cases hkb : b.tree.get? k = b₀.tree.get? k
  · rcases hacc.landing_of_ne (hkb ▸ hne) with ⟨c, hc, x, hx, hland⟩ | ⟨hn, hfolder, -⟩
    · exact (h.landing_perform hp hl hfree hran hc hx hland).imp_right (And.imp_right .inr)
    · exact .inr ⟨hkb ▸ hn, .inl hfolder⟩
  · rcases h.rest k hkb with ⟨path, hw⟩ | ⟨hn, hfolder | ⟨path, hat⟩⟩
    · exact .inl ⟨path, hw.grows hacc.grows⟩
    · exact .inr ⟨hn, .inl (hacc.grows.folder hfolder)⟩
    · exact .inr ⟨hn, .inr ⟨path, hat.grows hacc.grows (clock_perform p b a)⟩⟩

include hp hl h ha in
/-- **What one action keeps.** -/
theorem Kept.perform (hb : p.options.backupFiles = true)
    (hfree : ∀ n, b₀.clock ≤ n → Free b₀.tree n) (hran : (b, a) ∈ ran) :
    Kept p ran b₀ (Repair.perform p b a).1 where
  sound := (account_perform hp.toRooted h.sound a).sound
  grows := h.grows.trans (account_perform hp.toRooted h.sound a).grows
  clock := Nat.le_trans h.clock (clock_perform p b a)
  free := h.free_perform hp hl ha
  copied := h.copied_perform hp hl ha hb hran
  rest := h.rest_perform hp hl hfree hran

end

theorem kept_repairAll {s : Progress} (hp : p.Clear s.bench.clock)
    (hb : p.options.backupFiles = true) (hs : Sound s.bench.tree) (hl : NoLinks s.bench.tree)
    (hfree : ∀ n, s.bench.clock ≤ n → Free s.bench.tree n) {vs : List Verdict}
    (ha : ∀ x ∈ performedIn p s vs, Clear s.bench.clock x.2) :
    Kept p (performedIn p s vs) s.bench (repairAll p s vs).1.bench :=
  repairAll_induct (Kept.refl hs hfree) fun x hx h => h.perform hp hl (ha x hx) hb hfree hx

/-- **Nothing is lost while backups are on**: for every tree of files and directories, all catalogs,
remedies, violations and settings, however the run ends. A file whose bytes differ afterwards was
written by an action that was carried out, and a new file in the backup directory, named after the
action's path with a stamp of the run, has the bytes from before the run. All that differs otherwise
is new: such a backup or a directory. Stamps grow by themselves; what is assumed is that nothing has
the name of a backup with a stamp that is still to come, and that no directory on the way of the
run's paths would be given one. -/
theorem backups_keep {cat : Catalog} {rs : Remedies} {st : Settings} {b : Bench} {path : Text}
    {vs : List Verdict} {o : RepairOptions} {root : Path} (hs : Sound b.tree)
    (hl : NoLinks b.tree) (hroot : b.tree.resolve (.ofText path) = .ok root)
    (hb : o.backupFiles = true) (hfolder : (o.backupDirectory.getD st.backupDirectory).Proper)
    (hfree : ∀ n, b.clock ≤ n → Free b.tree n)
    (hnames : ∀ n, b.clock ≤ n → Unstamped n root ∧
      Unstamped n (o.backupDirectory.getD st.backupDirectory))
    (hactions : ∀ id remedy, rs.find? id = some remedy → ∀ site v actions,
      remedy site v = .ok actions → ∀ a ∈ actions, Clear b.clock a) :
    let p : Plan := ⟨cat, rs, st, root, o⟩
    let ran := performedIn p ⟨b, []⟩ vs
    let after := (repair cat rs st b path vs o).1
    (∀ k bytes, b.tree.get? k = some (.file bytes) → after.tree.get? k ≠ some (.file bytes) →
      ∃ q, WrittenTo p ran after.tree q k ∧ ∃ copy,
        BackupAt p after.tree b.clock after.clock q copy ∧ b.tree.get? copy = none ∧
          after.tree.get? copy = some (.file bytes)) ∧
    ∀ k, after.tree.get? k ≠ b.tree.get? k → (∃ q, WrittenTo p ran after.tree q k) ∨
      (b.tree.get? k = none ∧ (after.tree.get? k = some .folder ∨
        ∃ q, BackupAt p after.tree b.clock after.clock q k)) := by
  intro p ran after
  obtain ⟨habs, hsteps⟩ := Tree.resolve_steps hs hroot
  have hp : p.Clear b.clock :=
    { root := fun name hn => (hsteps name hn).1
      rootAbsolute := habs
      backups := Path.Proper.join (fun name hn => (hsteps name hn).1) hfolder
      steps := hsteps
      unstampedRoot := fun n hn => (hnames n hn).1
      unstampedBackups := fun n hn => (hnames n hn).1.join (hnames n hn).2 }
  have hran : ∀ x ∈ ran, Clear b.clock x.2 := by
    intro x hx
    obtain ⟨s, v, actions, -, hplan, hmem⟩ := mem_performedIn hx
    obtain ⟨remedy, hfind, hok, -, -⟩ := of_planned hplan
    exact hactions v.ruleId remedy hfind _ v actions hok x.2 hmem
  have hafter : after = (repairAll p ⟨b, []⟩ vs).1.bench := bench_repair hroot
  have hkept : Kept p ran b after := hafter ▸ kept_repairAll (s := ⟨b, []⟩) hp hb hs hl hfree hran
  refine ⟨fun k bytes hk hne => ?_, hkept.rest⟩
  obtain ⟨q, hw, copy, hat, hcopy⟩ := hkept.copied hk hne
  refine ⟨q, hw, copy, hat, ?_, hcopy⟩
  obtain ⟨folder, n, -, hfirst, -, rfl⟩ := hat
  exact hfree n hfirst folder q

/-- A file that a remedy writes over is kept. -/
theorem backups_keep_overwritten :
    let b : Bench := ⟨⟨[(["pkg"], .folder), (["pkg", "notes"], .file [104, 105])], []⟩, 7⟩
    let rs : Remedies := [("R", fun _ _ => .ok [⟨some "notes", "Wrote notes", some "new"⟩])]
    let v : Verdict := ⟨"R", "R", .fail, .error, none, [], none, none, [], true, []⟩
    let o : RepairOptions := ⟨false, true, none, none, false, [], [], none⟩
    let after := (repair .empty rs .default b "/pkg" [v] o).1
    after.tree.get? ["pkg", "notes"] = some (.file [110, 101, 119]) ∧
      ∃ copy, b.tree.get? copy = none ∧ after.tree.get? copy = some (.file [104, 105]) := by
  intro b rs v o after
  have hafter : after.tree.get? ["pkg", "notes"] = some (.file [110, 101, 119]) := by
    decide +kernel
  refine ⟨hafter, ?_⟩
  have hlinks : NoLinks b.tree := Tree.noLinks_of_entries (by simp [b])
  have hroot : b.tree.resolve (.ofText "/pkg") = .ok ⟨.root, ["pkg"]⟩ := by rfl
  have hactions : ∀ id remedy, rs.find? id = some remedy → ∀ site v actions,
      remedy site v = .ok actions → ∀ a ∈ actions, Clear b.clock a := by
    intro id remedy hfind site v' actions hok a ha
    obtain ⟨-, rfl⟩ := Prod.mk.inj (List.mem_singleton.mp (mem_of_find? hfind))
    obtain rfl := Except.ok.inj hok
    obtain rfl := List.mem_singleton.mp ha
    refine ⟨?_, ?_, ?_⟩ <;> rintro path ⟨⟩
    · rfl
    · decide
    · exact fun n _ => unstamped_of_not_suffix (by decide) n
  have hkeep := @backups_keep .empty rs .default b "/pkg" [v] o _
    (Tree.sound_of_entries rfl nofun (by decide)) hlinks hroot rfl (by decide)
    (fun n _ => free_of_not_suffix (by decide) n)
    (fun n _ => ⟨unstamped_of_not_suffix (by decide) n, unstamped_of_not_suffix (by decide) n⟩)
    hactions
  obtain ⟨q, -, copy, -, hnone, hcopy⟩ := hkeep.1 ["pkg", "notes"] [104, 105] rfl (by
    rw [hafter]; decide)
  exact ⟨copy, hnone, hcopy⟩

end

end Repair

end PackageAudit
