import PackageAudit.Proofs.Repair.Counts

/-! # Restoring a backup

The outcome of a repair is about the first file that its plan writes, and its backup is the first one
that the plan makes. These are the same file exactly if the first file was there before. Then restoring
the backup undoes the repair of that file; otherwise it puts the old content of another file there.

* `exists_firstBackup`: where in a plan its first backup is made.
* `restore_eq_ok`: what restoring does.
* `restore_undoes_iff`: when that undoes the repair.
-/

namespace PackageAudit

open PackageAudit.Tree (Change Account Sound NoLinks IsStep Grows)

/-! ## Restoring -/

section
variable {t : Tree} {source target : Path} {k l : Location} {bytes old : List UInt8}

theorem Tree.vet_of_copy {t' : Tree} (h : t.copy source target.toText = .ok t')
    (hlead : t.leadsToFolder target.toText = false) : vet target.toText = .ok () := by
  unfold copy at h
  rw [hlead] at h
  cases hv : vet target.toText with
  | ok _ => rfl
  | error f => simp [hv, bind, Except.bind] at h

theorem Tree.copy_over (hp : target.Proper) (ha : target.isAbsolute = true)
    (hv : vet target.toText = .ok ()) (hread : t.read source = .ok bytes)
    (hsource : t.status source = .ok (k, .file bytes)) (hland : t.landing target = some l)
    (hfile : t.get? l = some (.file old)) (hne : k ≠ l) :
    t.copy source target.toText = .ok (t.put l (.file bytes)) := by
  have hloc := Tree.landing_eq_some.mp hland
  have hstatus : t.status target = .ok (l, .file old) :=
    Tree.status_eq_ok.mpr ⟨Tree.locate_target hloc nofun, hfile⟩
  have hlead : t.leadsToFolder target.toText = false := by
    rw [Bool.eq_false_iff, Ne, Tree.leadsToFolder_toText hp ha]
    rintro ⟨l', hl'⟩
    rw [hstatus] at hl'
    cases hl'
  unfold copy overwrite
  simp [hlead, hv, hread, hsource, Tree.statusOfText_toText hp ha, hstatus,
    Tree.trace_toText hp ha, hloc, hfile, hne, bind, Except.bind]

/-- **Restoring puts the bytes of the backup into the file.** -/
theorem restore_eq_ok (hs : source.Proper) (hsa : source.isAbsolute = true)
    (hsv : Tree.vet source.toText = .ok ()) (hp : target.Proper) (ha : target.isAbsolute = true)
    (hv : Tree.vet target.toText = .ok ()) (hsource : t.status source = .ok (k, .file bytes))
    (hland : t.landing target = some l) (hfile : t.get? l = some (.file old)) (hne : k ≠ l) :
    restore t source.toText target.toText = .ok (t.put l (.file bytes)) := by
  have hthere : t.isFile source = .ok true := Tree.isFile_eq_true.mpr ⟨hsv, k, bytes, hsource⟩
  have hread : t.read source = .ok bytes := Tree.read_eq_ok.mpr ⟨hsv, k, hsource⟩
  unfold restore
  simp [Path.ofText_toText hs hsa, hthere, Tree.copy_over hp ha hv hread hsource hland hfile hne]

end

namespace Repair

section
variable {p : Plan} {b b' : Bench} {a : Action} {ruleId : Text} {actions : List Action}

/-! ## The first backup of a plan -/

/-- An action that succeeds and keeps nothing leaves the stamp as it is and copies nothing, and if it
writes with backups on then there was no file. -/
theorem of_perform_none (h : perform p b a = (b', .ok none)) :
    b'.clock = b.clock ∧ (∀ q bytes, Change.copied q bytes ∉ changesOf p b a) ∧
      ∀ path, a.path = some path → a.content.isSome → p.options.backupFiles = true →
        b.tree.isFile (p.target path) = .ok false := by
  have hcopies : (changesOf p b a).countP Change.isCopy = 0 :=
    countP_changesOf.2 none (congrArg Prod.snd h)
  refine ⟨?_, fun q bytes hmem => List.countP_eq_zero.mp hcopies _ hmem rfl, ?_⟩
  · obtain ⟨path, -, hsucceeds⟩ := succeeds_of_perform h
    generalize a.content = content at hsucceeds
    cases hsucceeds with
    | made hm => rfl
    | @wrote content _ hfile hwrite =>
      have hclock := clock_writeFile b (p.target path) content
      rw [hwrite] at hclock
      exact hclock
  · intro path hpath hcontent hb
    obtain ⟨path', hpath', hsucceeds⟩ := succeeds_of_perform h
    obtain rfl := Option.some.inj (hpath.symm.trans hpath')
    generalize a.content = content at hsucceeds hcontent
    cases hsucceeds with
    | made hm => cases hcontent
    | wrote hfile hwrite => exact hfile hb

theorem performAll_of_kept {copy : Text} {kept : Option Text}
    (h : performAll p ruleId b (some copy) actions = (b', .ok kept)) : kept = some copy := by
  induction actions generalizing b with
  | nil =>
    cases h
    rfl
  | cons a rest ih =>
    obtain ⟨b₁, backup, hpf⟩ := exists_perform_of_performAll (congrArg Prod.snd h)
    rw [performAll_cons_of_ok hpf] at h
    exact ih h

/-- A plan whose first backup is remembered has made it with one of its actions, and none before. -/
theorem exists_firstBackup {copy : Text}
    (h : performAll p ruleId b none actions = (b', .ok (some copy))) :
    ∃ before a after b₁ b₂, actions = before ++ a :: after ∧
      performAll p ruleId b none before = (b₁, .ok none) ∧
      perform p b₁ a = (b₂, .ok (some copy)) ∧
      performAll p ruleId b₂ (some copy) after = (b', .ok (some copy)) := by
  induction actions generalizing b with
  | nil => cases h
  | cons a rest ih =>
    obtain ⟨b₁, backup, hpf⟩ := exists_perform_of_performAll (congrArg Prod.snd h)
    rw [performAll_cons_of_ok hpf] at h
    cases backup with
    | some copy' =>
      obtain rfl := Option.some.inj (performAll_of_kept h)
      exact ⟨[], a, rest, b, b₁, rfl, rfl, hpf, h⟩
    | none =>
      obtain ⟨before, a', after, b₂, b₃, rfl, hbefore, ha', hafter⟩ := ih h
      exact ⟨a :: before, a', after, b₂, b₃, rfl,
        (performAll_cons_of_ok hpf ruleId none before).trans hbefore, ha', hafter⟩

theorem perform_none_of_performAll (h : performAll p ruleId b none actions = (b', .ok none)) :
    ∀ y ∈ performed p b actions, ∃ b₁, perform p y.1 y.2 = (b₁, .ok none) := by
  induction actions generalizing b with
  | nil => exact fun _ hy => absurd hy List.not_mem_nil
  | cons a rest ih =>
    obtain ⟨b₁, backup, hpf⟩ := exists_perform_of_performAll (congrArg Prod.snd h)
    rw [performAll_cons_of_ok hpf] at h
    cases backup with
    | some copy => cases performAll_of_kept h
    | none =>
      rw [performed_cons_of_ok hpf]
      exact List.forall_mem_cons.mpr ⟨⟨b₁, hpf⟩, ih h⟩

/-! ## What becomes of the first backup -/

theorem Unstamped.name {q : Path} {n : Nat} (h : Unstamped n q) (path : Text) :
    Name.plain q.name ≠ Name.plain (backupName path n) := by
  unfold Path.name
  cases hlast : q.parts.getLast? with
  | none => exact plain_ne_of_not_suffix (by decide) path n
  | some name => exact h name (List.mem_of_getLast? hlast) path

/-- Later stamps leave the name of an earlier backup alone. -/
theorem unstamped_of_later (hp : p.Rooted) {n : Nat} (hn : n < b.clock)
    (hu : Unstamped n p.backupFolder) (hua : ∀ path ∈ a.path, Unstamped n (p.target path)) :
    ∀ c ∈ changesOf p b a, c.path.isAbsolute = true ∧ Unstamped n c.path := by
  intro c hc
  obtain ⟨path, hpath, heffect⟩ := effect_of_mem_changesOf hc
  have ht := hua path hpath
  generalize a.content = content at heffect
  cases heffect with
  | folder => exact ⟨(hp.target path).2, ht⟩
  | parent => exact ⟨(hp.target path).2, ht.parent⟩
  | content => exact ⟨(hp.target path).2, ht⟩
  | backups => exact ⟨hp.backupsAbsolute, hu⟩
  | copy hb hm bytes =>
    have hcopy : Unstamped n (backupPath p.backupFolder path b.clock) :=
      hu.backupPath (Nat.ne_of_gt hn) path
    refine ⟨Tree.copyPath_absolute hp.backupsAbsolute, ?_⟩
    simp only [Change.path, Tree.copyPath]
    split
    · refine hcopy.append fun name hname => ?_
      exact List.mem_singleton.mp hname ▸ Unstamped.name ht
    · exact hcopy

section
variable (hp : p.Rooted) (hs : Sound b.tree) (hl : UnstampedLinks b.tree b.clock)
  (hfree : Free b.tree b.clock) (hu : Unstamped b.clock p.backupFolder)

include hp hs hl hfree hu

/-- What comes of actions that keep nothing: the stamp is the next one still, and free. -/
theorem free_of_performAll_none
    (hua : ∀ a ∈ actions, ∀ path ∈ a.path, Unstamped b.clock (p.target path))
    (h : performAll p ruleId b none actions = (b', .ok none)) :
    Sound b'.tree ∧ Grows b.tree b'.tree ∧ b'.clock = b.clock ∧ Free b'.tree b.clock := by
  have hkeep := @performAll_induct p (fun b' => Sound b'.tree ∧ Grows b.tree b'.tree ∧
    b'.clock = b.clock ∧ Free b'.tree b.clock) ruleId b none actions
    ⟨hs, Grows.refl _, rfl, hfree⟩ ?_
  · rwa [h] at hkeep
  · rintro ⟨b₁, a⟩ hy ⟨hs₁, hg₁, hclock₁, hfree₁⟩
    obtain ⟨b₂, hok⟩ := perform_none_of_performAll h _ hy
    obtain ⟨hclock, hcopies, -⟩ := of_perform_none hok
    have hacc := account_perform hp hs₁ a
    have hlinks : UnstampedLinks b₁.tree b.clock := hl.grows hg₁
    refine ⟨hacc.sound, hg₁.trans hacc.grows, by rw [hok]; exact hclock.trans hclock₁, ?_⟩
    refine free_perform hp hs₁ (hclock₁ ▸ hlinks) (hclock₁ ▸ hfree₁) (hclock₁ ▸ hu) hu
      (hua a (mem_performed hy)) hlinks hfree₁ ?_
    rw [hok]
    exact Nat.le_of_eq (hclock.trans hclock₁)

/-- An action that keeps the old content of its file has put it where the name of the backup says. -/
theorem kept_of_perform_some (hua : ∀ path ∈ a.path, Unstamped b.clock (p.target path))
    {copy : Text} (h : perform p b a = (b', .ok (some copy))) :
    ∃ path l k bytes, p.options.backupFiles = true ∧ a.path = some path ∧ a.content.isSome ∧
      copy = (backupPath p.backupFolder path b.clock).toText ∧ Tree.vet copy = .ok () ∧
      b.tree.status (p.target path) = .ok (l, .file bytes) ∧
      b'.tree.status (backupPath p.backupFolder path b.clock) = .ok (k, .file bytes) ∧
      (∃ folder, k = folder ++ [Name.plain (backupName path b.clock)]) ∧
      b.clock < b'.clock := by
  obtain ⟨path, hpath, hsucceeds⟩ := succeeds_of_perform h
  generalize hcontent : a.content = content at hsucceeds
  cases hsucceeds with
  | @wroteOver content b₁ _ copyPath hb hfile hcopy hwrite =>
    obtain ⟨-, l, bytes, hsource⟩ := Tree.isFile_eq_true.mp hfile
    obtain ⟨folder, hfolder, hkept, -⟩ := backUp_ok hs hl (hp.target path).1 hp.backups
      hp.backupsAbsolute hfree hu hsource hcopy
    have hsound : Sound b₁.tree := by
      have hacc := account_backUp hs (hp.target path).1 hp.backups hp.backupsAbsolute
      rw [hcopy] at hacc
      exact hacc.sound
    obtain ⟨t, t', hm, hcopied, rfl, rfl⟩ := backUp_eq_ok.mp hcopy
    have hmade := Tree.account_makeFolders hs hm
    obtain ⟨at', hat⟩ := Tree.status_of_makeFolders hs hm
    have hfree' : Free t b.clock := hfree.account hmade (hl.grows hmade.grows) fun c hc => by
      obtain rfl := List.mem_singleton.mp hc
      exact ⟨hp.backupsAbsolute, hu⟩
    have hproper := backupPath_proper hp.backups path b.clock
    obtain ⟨_, bytes', k, -, -, hk, hkf, -, rfl⟩ := Tree.copy_eq_ok hmade.sound (hp.target path).1
      hproper hp.backupsAbsolute hcopied
    have hput := (Tree.account_put (c := .copied _ bytes') hmade.sound hk hkf rfl).grows
    rw [copyPath_of_free hat hfree' hp.backups hp.backupsAbsolute] at hk
    -- the directory is where it was before the copy
    have hat' := Tree.status_folder_grows hput hat
    obtain ⟨rfl, -⟩ := Prod.mk.inj (Except.ok.inj (hat'.symm.trans hfolder))
    have hk' := locate_backupPath_of_free hat hfree' hk
    have hwritten := account_writeFile hsound (p.target path) content
    rw [hwrite] at hwritten
    have hend := get?_backupName_writeFile hsound ((hl.grows hmade.grows).grows hput)
      (hp.target path).2 (hua path hpath) content at' path
    have hclock := clock_writeFile ⟨t.put k (.file bytes'), b.clock + 1⟩ (p.target path) content
    rw [hwrite] at hend hclock
    refine ⟨path, l, k, bytes, hb, hpath, rfl, rfl, Tree.vet_of_copy hcopied
      (leadsToFolder_of_free hat hfree' hp.backups hp.backupsAbsolute path), hsource, ?_,
      ⟨at', hk'⟩, by rw [hclock]; exact Nat.lt_succ_self _⟩
    refine Tree.status_eq_ok.mpr ⟨Tree.locate_grows (hput.trans hwritten.grows)
      (Tree.locate_target hk nofun), ?_⟩
    rw [hk', hend, hkept]

end

theorem backup_performAll (ruleId : Text) (actions : List Action) (hp : p.Rooted)
    (hs : Sound b.tree) {n : Nat} (hn : n < b.clock)
    (hl : UnstampedLinks b.tree n) (hu : Unstamped n p.backupFolder)
    (hua : ∀ a ∈ actions, ∀ path ∈ a.path, Unstamped n (p.target path)) {folder : Location}
    {path : Text} {bytes : List UInt8} (kept : Option Text)
    (h : b.tree.status (backupPath p.backupFolder path n) =
      .ok (folder ++ [Name.plain (backupName path n)], .file bytes)) :
    (performAll p ruleId b kept actions).1.tree.status (backupPath p.backupFolder path n) =
      .ok (folder ++ [Name.plain (backupName path n)], .file bytes) := by
  have hkeep := @performAll_induct p (fun b' =>
    Sound b'.tree ∧ n < b'.clock ∧ UnstampedLinks b'.tree n ∧
      b'.tree.status (backupPath p.backupFolder path n) =
        .ok (folder ++ [Name.plain (backupName path n)], .file bytes)) ruleId b kept actions
    ⟨hs, hn, hl, h⟩ ?_
  · exact hkeep.2.2.2
  · rintro ⟨b₁, a⟩ hy ⟨hs₁, hn₁, hl₁, h₁⟩
    have hacc := account_perform hp hs₁ a
    have hl₂ := hl₁.grows hacc.grows
    obtain ⟨hloc, hget⟩ := Tree.status_eq_ok.mp h₁
    refine ⟨hacc.sound, Nat.lt_of_lt_of_le hn₁ (clock_perform p b₁ a), hl₂,
      Tree.status_eq_ok.mpr ⟨Tree.locate_grows hacc.grows hloc, ?_⟩⟩
    rw [Account.get?_backupName hacc hl₂ (unstamped_of_later hp hn₁ hu (hua a (mem_performed hy))),
      hget]

/-! ## The file that an outcome is about -/

theorem file_of_target (hp : p.Rooted) (hs : Sound b.tree) {kept kept' : Option Text}
    (h : performAll p ruleId b kept actions = (b', .ok kept')) {target : Option Text}
    (ht : target ∈ targets actions) : ∃ q k bytes, target = some q ∧
      Tree.vet (p.target q).toText = .ok () ∧ b'.tree.landing (p.target q) = some k ∧
      b'.tree.get? k = some (.file bytes) := by
  obtain ⟨hactions, hends⟩ := performed_of_ok (congrArg Prod.snd h)
  obtain ⟨a, ha, rfl, hcontent⟩ := mem_targets_iff.mp ht
  obtain ⟨content, hcontent⟩ := Option.isSome_iff_exists.mp hcontent
  obtain ⟨y, hy, rfl⟩ := List.mem_map.mp (hactions.symm ▸ ha)
  obtain ⟨kept₁, hkept₁⟩ := hends y hy
  obtain ⟨hs₁, -, hg⟩ := grows_of_performed hp ruleId kept hs hy
  rw [h] at hg
  obtain ⟨q, b₁, before, hpath, hwrite, -⟩ := changesOf_of_perform (Prod.ext rfl hkept₁) hcontent
  obtain ⟨_, k, -, hland, hfile⟩ := written_of_perform hp hs₁ (Prod.ext rfl hkept₁) hpath hcontent
  obtain ⟨bytes, hbytes⟩ := hg.file hfile
  have hvet : Tree.vet (p.target q).toText = .ok () := by
    rcases mem_fileChanges (written_mem_fileChanges hwrite) with he | ⟨-, hv⟩
    · cases he
    · exact hv
  exact ⟨q, k, bytes, hpath, hvet,
    Tree.landing_eq_some.mpr (Tree.locate_grows hg (Tree.landing_eq_some.mp hland)), hbytes⟩

theorem get?_of_no_targets (ruleId : Text) (hp : p.Rooted) (hs : Sound b.tree)
    (kept : Option Text)
    (h : targets actions = []) {k : Location} (hk : b.tree.get? k ≠ none) :
    (performAll p ruleId b kept actions).1.tree.get? k = b.tree.get? k := by
  refine (account_performAll hp ruleId hs kept actions).get?_of_not_landing hk ?_
  intro c hc x hx
  obtain ⟨y, hy, hc⟩ := List.mem_flatMap.mp hc
  obtain ⟨path, hpath, heffect⟩ := effect_of_mem_changesOf hc
  have hnone : y.2.content = none := by
    cases hcontent : y.2.content with
    | none => rfl
    | some content =>
      have hmem : some path ∈ targets actions :=
        mem_targets_iff.mpr ⟨y.2, mem_performed hy, hpath, by rw [hcontent]; rfl⟩
      rw [h] at hmem
      cases hmem
  rw [hnone] at heffect
  cases heffect with
  | folder => cases hx

theorem targets_append (before after : List Action) :
    targets (before ++ after) = targets before ++ targets after := by
  simp [targets]

theorem targets_cons (h : a.content.isSome = true) :
    targets (a :: actions) = a.path :: targets actions := by
  simp [targets, h]

/-- No file of actions that keep nothing was there before, with backups on. -/
theorem not_file_of_kept_nothing (hp : p.Rooted) (hs : Sound b.tree)
    (hb : p.options.backupFiles = true) (h : performAll p ruleId b none actions = (b', .ok none))
    {q : Text} (hq : some q ∈ targets actions) : b.tree.isFile (p.target q) ≠ .ok true := by
  intro hthere
  obtain ⟨hactions, -⟩ := performed_of_ok (congrArg Prod.snd h)
  obtain ⟨a, ha, hpath, hcontent⟩ := mem_targets_iff.mp hq
  obtain ⟨y, hy, rfl⟩ := List.mem_map.mp (hactions.symm ▸ ha)
  obtain ⟨b₁, hnone⟩ := perform_none_of_performAll h y hy
  obtain ⟨-, hg, -⟩ := grows_of_performed hp ruleId none hs hy
  have hgone := (of_perform_none hnone).2.2 q hpath hcontent hb
  rw [Tree.isFile_grows hg hthere] at hgone
  cases hgone

/-- If the first file of a plan was there, it is the one whose bytes are the first to be kept. -/
theorem bytes_of_first (hp : p.Rooted) (hs : Sound b.tree) (hb : p.options.backupFiles = true)
    {before : List Action} {b₁ : Bench}
    (hbefore : performAll p ruleId b none before = (b₁, .ok none)) {path q : Text}
    {rest : List (Option Text)} (hhead : (targets before ++ some path :: rest).head? = some (some q))
    (hvet : Tree.vet (p.target q).toText = .ok ()) {k l : Location} {old bytes : List UInt8}
    (hthere : b.tree.status (p.target q) = .ok (k, .file old))
    (hkept : b₁.tree.status (p.target path) = .ok (l, .file bytes)) : bytes = old := by
  cases hfirst : targets before with
  | cons target rest =>
    rw [hfirst] at hhead
    obtain rfl := Option.some.inj hhead
    exact absurd (Tree.isFile_eq_true.mpr ⟨hvet, k, old, hthere⟩)
      (not_file_of_kept_nothing hp hs hb hbefore (hfirst ▸ List.mem_cons_self))
  | nil =>
    -- nothing has been written before, so the bytes are still the ones that were there
    rw [hfirst] at hhead
    obtain rfl := Option.some.inj (Option.some.inj hhead)
    obtain ⟨hloc, hk⟩ := Tree.status_eq_ok.mp hthere
    obtain ⟨hloc', hl⟩ := Tree.status_eq_ok.mp hkept
    have hgrown := (account_performAll hp ruleId hs none before).grows
    have hsame := get?_of_no_targets ruleId hp hs none hfirst (by rw [hk]; exact Option.some_ne_none _)
    rw [hbefore] at hgrown hsame
    obtain rfl := Except.ok.inj ((Tree.locate_grows hgrown hloc).symm.trans hloc')
    cases hl.symm.trans (hsame.trans hk)
    rfl

/-- **Restoring the first backup of a plan puts its bytes into the first file of the plan.** They are
what was there before, if there was a file. -/
theorem restore_of_performAll (hp : p.Rooted) (hs : Sound b.tree) (hl : NoLinks b.tree)
    (hfree : Free b.tree b.clock) (hu : Unstamped b.clock p.backupFolder)
    (hsteps : ∀ a ∈ actions, ∀ path ∈ a.path, ∀ name ∈ (p.target path).parts, IsStep name)
    (hua : ∀ a ∈ actions, ∀ path ∈ a.path, Unstamped b.clock (p.target path)) {copy : Text}
    (h : performAll p ruleId b none actions = (b', .ok (some copy))) :
    ∃ q k bytes, (targets actions).head? = some (some q) ∧ b'.tree.landing (p.target q) = some k ∧
      restore b'.tree copy (p.target q).toText = .ok (b'.tree.put k (.file bytes)) ∧
      k ≠ [] ∧ ∀ old, b.tree.get? k = some (.file old) → bytes = old := by
  have hgrown := (account_performAll hp ruleId hs none actions).grows
  rw [h] at hgrown
  obtain ⟨before, a, after, b₁, b₂, hactions, hbefore, ha, hafter⟩ := exists_firstBackup h
  have hin : ∀ a' ∈ before, a' ∈ actions := fun a' ha' =>
    hactions ▸ List.mem_append_left _ ha'
  have hain : a ∈ actions := hactions ▸ List.mem_append_right before List.mem_cons_self
  obtain ⟨hs₁, hg₁, hclock₁, hfree₁⟩ := free_of_performAll_none hp hs (hl.unstamped _) hfree hu
    (fun a' ha' => hua a' (hin a' ha')) hbefore
  -- the backup, where it is made and in the end
  rw [← hclock₁] at hfree₁ hu hua
  obtain ⟨path, l, source, bytes, hback, hpath, hcontent, hname, hcopyVet, hold, hcopied,
    ⟨folder, rfl⟩, hmoved⟩ := kept_of_perform_some hp hs₁ ((hl.grows hg₁).unstamped _) hfree₁ hu (hua a hain) ha
  have hacc := account_perform hp hs₁ a
  rw [ha] at hacc
  have hcopy := backup_performAll ruleId after hp hacc.sound hmoved
    ((hl.grows (hg₁.trans hacc.grows)).unstamped _) hu
    (fun a' ha' => hua a' (hactions ▸ List.mem_append_right before (List.mem_cons_of_mem a ha')))
    (some copy) hcopied
  rw [hafter] at hcopy
  subst hname
  -- the first file
  have htargets : targets actions = targets before ++ some path :: targets after := by
    rw [hactions, targets_append, targets_cons hcontent, hpath]
  obtain ⟨target, htarget⟩ : ∃ target, (targets actions).head? = some target := by
    rw [htargets]
    cases targets before <;> exact ⟨_, rfl⟩
  obtain ⟨q, k, now, rfl, hvet, hland, hnow⟩ :=
    file_of_target hp hs h (List.mem_of_mem_head? htarget)
  obtain ⟨a', ha', hq, -⟩ := mem_targets_iff.mp (List.mem_of_mem_head? htarget)
  have hne := (hua a' ha' q hq).locate_ne ((hl.grows hgrown).unstamped _) (hp.target q).2
    (Tree.landing_eq_some.mp hland) folder path
  refine ⟨q, k, bytes, htarget, hland, ?_, Tree.ne_nil_of_get? (by rw [hnow]; exact nofun),
    fun old hk => ?_⟩
  · exact restore_eq_ok (backupPath_proper hp.backups path _) hp.backupsAbsolute hcopyVet
      (hp.target q).1 (hp.target q).2 hvet hcopy hland hnow hne.symm
  have hthere := status_of_landing hs (hl.grows hgrown) hgrown (hsteps a' ha' q hq) hk hland
  exact bytes_of_first hp hs hback hbefore (htargets ▸ htarget) hvet hthere hold

end

/-! ## When restoring undoes a repair -/

theorem isStep_target {p : Plan} (hroot : ∀ name ∈ p.root.parts, IsStep name) {q : Text}
    (hrelative : (Path.ofText q).isAbsolute = false) (hup : (".." : Text) ∉ (Path.ofText q).parts) :
    ∀ name ∈ (p.target q).parts, IsStep name := by
  intro name hn
  rw [Plan.target, Path.parts_join_of_relative p.root hrelative] at hn
  rcases List.mem_append.mp hn with hn | hn
  · exact hroot name hn
  · exact ⟨Path.proper_ofText q name hn, fun he => hup (he ▸ hn)⟩

/-- **When restoring undoes a repair**, for every tree of files and directories, all catalogs, remedies
and settings, and every plan along paths that go down from the root: the backup of a success can always
be put back into the file that the success is about, and that file is then what it was if and only if
it was there. -/
theorem restore_undoes_iff {cat : Catalog} {rs : Remedies} {st : Settings} {b : Bench} {path : Text}
    {v : Verdict} {o : RepairOptions} {root : Path} (hs : Sound b.tree) (hl : NoLinks b.tree)
    (hroot : b.tree.resolve (.ofText path) = .ok root)
    (hdir : (o.backupDirectory.getD st.backupDirectory).Proper) (hfree : Free b.tree b.clock)
    (hnames : Unstamped b.clock root ∧
      Unstamped b.clock (o.backupDirectory.getD st.backupDirectory))
    (hactions : ∀ remedy, rs.find? v.ruleId = some remedy → ∀ site v actions,
      remedy site v = .ok actions → ∀ a ∈ actions, ∀ q ∈ a.path,
        (Path.ofText q).isAbsolute = false ∧ (".." : Text) ∉ (Path.ofText q).parts ∧
          Unstamped b.clock (.ofText q))
    (hd : o.dryRun = false) {summary : RepairSummary}
    (hok : (repair cat rs st b path [v] o).2 = .ok summary) {out : RepairOutcome}
    (hout : out ∈ summary.outcomes) (hsuccess : out.status = .success) {copy : Text}
    (hcopy : out.backupPath = some copy) :
    let p : Plan := ⟨cat, rs, st, root, o⟩
    let after := (repair cat rs st b path [v] o).1
    ∃ q k restored, out.filePath = some q ∧ after.tree.landing (p.target q) = some k ∧
      restore after.tree copy (p.target q).toText = .ok restored ∧
      (restored.get? k = b.tree.get? k ↔ ∃ old, b.tree.get? k = some (.file old)) := by
  intro p after
  obtain ⟨habs, hroots⟩ := Tree.resolve_steps hs hroot
  have hrooted : ∀ name ∈ root.parts, Path.IsPart name := fun name hn => (hroots name hn).1
  have hp : p.Rooted := ⟨hrooted, habs, Path.Proper.join hrooted hdir⟩
  obtain ⟨s', hall, -, -, -⟩ := of_repair hroot hok
  have hafter : after = s'.bench := by
    rw [show after = _ from bench_repair hroot, hall]
  obtain ⟨s₁, out', rest, hone, hrest, houts⟩ := repairAll_cons_eq_ok.mp hall
  cases hrest
  rw [houts] at hout
  obtain rfl := List.mem_singleton.mp hout
  obtain ⟨-, -, hskipped, -⟩ | ⟨x, hfor, hbench, hv, hresult, rfl⟩ :=
    repairOne_of_unfailed hd hone (by rw [hsuccess]; exact nofun)
  · rw [hskipped] at hsuccess
    cases hsuccess
  obtain ⟨actions, hplan, rfl⟩ := Option.map_eq_some_iff.mp
    (Option.mem_toList.mp (hfor ▸ List.mem_singleton_self x))
  obtain ⟨remedy, hfind, hmade, -, -⟩ := of_planned hplan
  have hclear := hactions remedy hfind _ _ _ hmade
  rw [show Carried.kept _ _ = some copy from hcopy] at hresult
  obtain ⟨q, k, bytes, hq, hland, hrestore, hne, hold⟩ := restore_of_performAll hp hs hl hfree
    (hnames.1.join hnames.2)
    (fun a ha q hq => isStep_target hroots (hclear a ha q hq).1 (hclear a ha q hq).2.1)
    (fun a ha q hq => hnames.1.join (hclear a ha q hq).2.2) hresult
  rw [hafter]
  refine ⟨q, k, _, ?_, hland, hrestore, ?_⟩
  · change (targets actions).head?.getD v.filePath = some q
    rw [hq, Option.getD_some]
  · rw [Tree.get?_put_self hne]
    refine ⟨fun h => ⟨bytes, h.symm⟩, ?_⟩
    rintro ⟨old, hk⟩
    rw [hk, hold old hk]

/-! ### A new file before an old one -/

namespace NewFirst

def bench : Bench := ⟨⟨[(["pkg"], .folder), (["pkg", "b"], .file [50])], []⟩, 7⟩

def copy : Text := "/pkg/.modcomply-backup/b.00000000T000000000007.backup"

/-- The success is about the new file, and its backup is of the old one. -/
def outcome : RepairOutcome :=
  ⟨"R", .success, .medium, some "a", ["Wrote a", "Wrote b"], some copy, none⟩

def run : Bench × Except Fault RepairSummary :=
  repair .empty TwoFiles.remedies .default bench "/pkg" [Sample.violation "R"] TwoFiles.plan.options

theorem run_eq : run.2 = .ok ⟨"/pkg", false, 1, [outcome]⟩ := by
  exact eq_ok_of_toOption (by decide +kernel)

end NewFirst

/-- Restoring the backup leaves the new file, with the old content of the other one. -/
theorem restore_undoes_iff_new_first : NewFirst.bench.tree.get? ["pkg", "a"] = none ∧
    ∃ restored, restore NewFirst.run.1.tree NewFirst.copy "/pkg/a" = .ok restored ∧
      restored.get? ["pkg", "a"] ≠ none := by
  have habsent : NewFirst.bench.tree.get? ["pkg", "a"] = none := by decide
  refine ⟨habsent, ?_⟩
  have hactions : ∀ remedy, TwoFiles.remedies.find? (Sample.violation "R").ruleId = some remedy →
      ∀ site v actions, remedy site v = .ok actions → ∀ a ∈ actions, ∀ q ∈ a.path,
        (Path.ofText q).isAbsolute = false ∧ (".." : Text) ∉ (Path.ofText q).parts ∧
          Unstamped NewFirst.bench.clock (.ofText q) := by
    intro remedy hfind site v actions hplan a ha q hq
    obtain ⟨-, rfl⟩ := Prod.mk.inj (List.mem_singleton.mp (mem_of_find? hfind))
    obtain rfl := Except.ok.inj hplan
    rcases List.mem_pair.mp ha with rfl | rfl <;> cases hq <;>
      exact ⟨rfl, by decide, unstamped_of_not_suffix (by decide) _⟩
  obtain ⟨q, k, restored, hq, hland, hrestore, hiff⟩ := @restore_undoes_iff .empty TwoFiles.remedies
    .default NewFirst.bench "/pkg" (Sample.violation "R") TwoFiles.plan.options ⟨.root, ["pkg"]⟩
    (Tree.sound_of_entries rfl (by decide) (by decide))
    (Tree.noLinks_of_entries (by simp [NewFirst.bench])) rfl (by decide)
    (free_of_not_suffix (by decide) _)
    ⟨unstamped_of_not_suffix (by decide) _, unstamped_of_not_suffix (by decide) _⟩ hactions rfl _
    NewFirst.run_eq NewFirst.outcome (List.mem_singleton_self _) rfl NewFirst.copy rfl
  obtain rfl : "a" = q := Option.some.inj hq
  have hat : NewFirst.run.1.tree.landing (TwoFiles.plan.target "a") =
      some (["pkg", "a"] : Location) := by
    decide +kernel
  obtain rfl := Option.some.inj (hat.symm.trans hland)
  refine ⟨restored, hrestore, fun hnone => ?_⟩
  obtain ⟨old, hold⟩ := hiff.mp hnone
  rw [habsent] at hold
  cases hold

end Repair

end PackageAudit
