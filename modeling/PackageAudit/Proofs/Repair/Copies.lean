import PackageAudit.Proofs.Repair.Stamp
import PackageAudit.Proofs.Tree.Resolve

/-! # What an action copies

The stamp never goes back (`clock_perform`) and moves on with every copy (`of_copied`). With backups
on and a free stamp an action that changes a file has copied it before (`perform_keeps`). A copy that
lands where something was already has found its stamp in use (`taken_of_copied`).
-/

namespace PackageAudit

open PackageAudit.Tree (Change Account Sound NoLinks IsStep Grows)

namespace Repair

section
variable {p : Plan} {b : Bench}

theorem clock_writeFile (b : Bench) (target : Path) (content : Text) :
    (writeFile b target content).1.clock = b.clock := by
  unfold writeFile
  cases b.tree.makeFolders target.parent with
  | mk t f =>
    cases f with
    | some f => rfl
    | none =>
      rw [writeContent_tree]
      cases (b.withTree t).tree.write target (contentBytes content) <;> rfl

theorem clock_backUp (b : Bench) (root : Path) (path : Text) (folder : Path) :
    (b.backUp root path folder).1.clock = b.clock + 1 := by
  rw [backUp_eq]
  split
  · rfl
  · split <;> rfl

theorem copied_notMem_fileChanges {b' : Bench} {target path : Path} {content : Text}
    {bytes : List UInt8} : Change.copied path bytes ∉ fileChanges b' target content := by
  intro h
  rcases mem_fileChanges h with h | ⟨h, -⟩
  · cases h
  · cases h

theorem clock_writeOver (p : Plan) (b : Bench) (path content : Text) :
    b.clock ≤ (writeOver p b path content).1.clock := by
  rw [writeOver_fst]
  split
  · cases b.tree.isFile (p.target path) with
    | error f => exact Nat.le_refl _
    | ok there =>
      cases there with
      | false => exact Nat.le_of_eq (clock_writeFile b _ content).symm
      | true =>
        have hb := clock_backUp b p.root path p.backupFolder
        cases hbu : b.backUp p.root path p.backupFolder with
        | mk b' r =>
          rw [hbu] at hb
          simp only at hb
          cases r with
          | error f => simp only; omega
          | ok copyPath => simp only [clock_writeFile]; omega
  · exact Nat.le_of_eq (clock_writeFile b _ content).symm

theorem clock_perform (p : Plan) (b : Bench) (a : Action) :
    b.clock ≤ (perform p b a).1.clock := by
  unfold perform
  cases a.path with
  | none => exact Nat.le_refl _
  | some path =>
    cases a.content with
    | some content => exact clock_writeOver p b path content
    | none =>
      simp only
      cases b.tree.makeFolders (p.root.join (.ofText path)) with
      | mk t f => cases f <;> exact Nat.le_refl _

/-- While its stamp is free a copy puts the bytes of its source where its name says. -/
theorem copy_eq_ok_of_free {t t' : Tree} {n : Nat} (hs : Sound t) (hfree : Free t n)
    {source folder : Path} (hr : source.Proper) (hf : folder.Proper)
    (hfa : folder.isAbsolute = true) {at' : Location} (hat : t.status folder = .ok (at', .folder))
    {path : Text} (h : t.copy source (backupPath folder path n).toText = .ok t') :
    ∃ l bytes, t.status source = .ok (l, .file bytes) ∧ Grows t t' ∧
      t' = t.put (at' ++ [Name.plain (backupName path n)]) (.file bytes) := by
  obtain ⟨l, bytes, k, -, hst, hk, hkf, -, rfl⟩ :=
    Tree.copy_eq_ok hs hr (backupPath_proper hf path n) hfa h
  have hg : Grows t (t.put k (.file bytes)) :=
    (Tree.account_put (c := .copied _ bytes) hs hk hkf rfl).grows
  rw [copyPath_of_free hat hfree hf hfa] at hk
  exact ⟨l, bytes, hst, hg, by rw [locate_backupPath_of_free hat hfree hk]⟩

/-- A backup that is made holds the bytes of its source. -/
theorem backUp_ok {root folder copyPath : Path} {path : Text} {b' : Bench} (hs : Sound b.tree)
    (hl : UnstampedLinks b.tree b.clock) (hr : (root.join (.ofText path)).Proper) (hf : folder.Proper)
    (hfa : folder.isAbsolute = true) (hfree : Free b.tree b.clock)
    (hu : Unstamped b.clock folder) {l : Location} {bytes : List UInt8}
    (hsource : b.tree.status (root.join (.ofText path)) = .ok (l, .file bytes))
    (h : b.backUp root path folder = (b', .ok copyPath)) :
    ∃ at', b'.tree.status folder = .ok (at', .folder) ∧
      b'.tree.get? (at' ++ [Name.plain (backupName path b.clock)]) = some (.file bytes) ∧
      ∀ k, b.tree.get? k ≠ none → b'.tree.get? k = b.tree.get? k := by
  obtain ⟨t, t', hm, hc, rfl, -⟩ := backUp_eq_ok.mp h
  have ha := Tree.account_makeFolders hs hm
  have hlt := hl.grows ha.grows
  obtain ⟨at', hat⟩ := Tree.status_of_makeFolders hs hm
  have hfree' : Free t b.clock := hfree.account ha hlt fun c hcm => by
    obtain rfl := List.mem_singleton.mp hcm
    exact ⟨hfa, hu⟩
  obtain ⟨l', bytes', hst, hg, rfl⟩ := copy_eq_ok_of_free ha.sound hfree' hr hf hfa hat hc
  -- the source is what it was before the directory was made
  have hbytes : bytes' = bytes := by
    obtain ⟨hloc, hget⟩ := Tree.status_eq_ok.mp hsource
    obtain ⟨hloc', hget'⟩ := Tree.status_eq_ok.mp hst
    rw [Tree.locate_grows ha.grows hloc, Except.ok.injEq] at hloc'
    rw [← hloc', ha.get?_of_made (by simp [hget]), hget] at hget'
    cases hget'
    rfl
  refine ⟨at', Tree.status_folder_grows hg hat, ?_, fun k hne => ?_⟩
  · rw [← hbytes]
    exact Tree.get?_put_self (by simp) t _
  · have hk : k ≠ at' ++ [Name.plain (backupName path b.clock)] :=
      fun he => hne (he ▸ hfree at' path)
    exact (Tree.get?_put_of_ne hk t _).trans (ha.get?_of_made hne)

theorem backUp_error {root folder : Path} {path : Text} {b' : Bench} {f : FileFault}
    (hs : Sound b.tree) (h : b.backUp root path folder = (b', .error f)) :
    Account b.tree [.made folder] b'.tree :=
  of_backUp_error h ▸ Tree.account_makeFolders hs rfl

/-- A file that is written at a path was there at this path before, if it was there at all. -/
theorem status_of_landing {t t' : Tree} (hs : Sound t) (hl : NoLinks t') (hg : Grows t t')
    {q : Path} (hq : ∀ name ∈ q.parts, IsStep name) {k : Location} {bytes : List UInt8}
    (hk : t.get? k = some (.file bytes)) (hland : t'.landing q = some k) :
    t.status q = .ok (k, .file bytes) := by
  have hloc := Tree.locate_of_grown hs hl hg hq (Tree.landing_eq_some.mp hland)
    (by rw [hk]; exact nofun)
  exact Tree.status_eq_ok.mpr ⟨Tree.locate_target hloc nofun, hk⟩

/-- A file that `writeFile` changes is its target. -/
theorem landing_of_writeFile (hs : Sound b.tree) {target : Path} {content : Text} {k : Location}
    {e : Entry} (hk : b.tree.get? k = some e)
    (hne : (writeFile b target content).1.tree.get? k ≠ some e) :
    Tree.vet target.toText = .ok () ∧
      (writeFile b target content).1.tree.landing target = some k := by
  have ha := account_writeFile hs target content
  apply Classical.byContradiction
  intro hno
  refine hne ((ha.get?_of_not_landing (by rw [hk]; exact nofun) fun c hc x hx hland => ?_).trans hk)
  rcases mem_fileChanges hc with rfl | ⟨rfl, hv⟩
  · cases hx
  · cases hx
    exact hno ⟨hv, hland⟩

/-- Writing a file leaves the backups with a stamp alone that is not on its path. -/
theorem get?_backupName_writeFile (hs : Sound b.tree) {n : Nat} (hl : UnstampedLinks b.tree n)
    {target : Path} (ha : target.isAbsolute = true) (hu : Unstamped n target) (content : Text)
    (folder : Location) (path : Text) :
    (writeFile b target content).1.tree.get? (folder ++ [Name.plain (backupName path n)]) =
      b.tree.get? (folder ++ [Name.plain (backupName path n)]) := by
  have hacc := account_writeFile hs target content
  refine Account.get?_backupName hacc (hl.grows hacc.grows) (fun c hc => ?_) folder path
  rcases mem_fileChanges hc with rfl | ⟨rfl, -⟩
  · exact ⟨ha, hu.parent⟩
  · exact ⟨ha, hu⟩

/-- What is read at a path is where a write to this path lands later. -/
theorem eq_of_status_of_landing {t t' : Tree} (hg : Grows t t') {q : Path} {l k : Location}
    {e : Entry} (hst : t.status q = .ok (l, e)) (hland : t'.landing q = some k) : l = k := by
  have hread := Tree.locate_grows hg (Tree.status_eq_ok.mp hst).1
  have hwrite := Tree.locate_target (Tree.landing_eq_some.mp hland) nofun
  rw [hread] at hwrite
  exact Except.ok.inj hwrite

section
variable {path content : Text} {k : Location} {bytes : List UInt8}

/-- What a write after a backup goes over is in the backup. -/
theorem writeFile_keeps (hp : p.Rooted) (hs : Sound b.tree) (hl : NoLinks b.tree)
    (hfree : Free b.tree b.clock) (hu : Unstamped b.clock p.backupFolder)
    (hut : Unstamped b.clock (p.target path)) {l : Location} {source : List UInt8}
    (hsource : b.tree.status (p.target path) = .ok (l, .file source)) {b' : Bench}
    {copyPath : Path} (hbu : b.backUp p.root path p.backupFolder = (b', .ok copyPath))
    (hk : b.tree.get? k = some (.file bytes))
    (hne : (writeFile b' (p.target path) content).1.tree.get? k ≠ some (.file bytes)) :
    (writeFile b' (p.target path) content).1.tree.landing (p.target path) = some k ∧
      ∃ at', (writeFile b' (p.target path) content).1.tree.status p.backupFolder =
          .ok (at', .folder) ∧
        (writeFile b' (p.target path) content).1.tree.get?
          (at' ++ [Name.plain (backupName path b.clock)]) = some (.file bytes) := by
  obtain ⟨at', hat, hcopy, hkeep⟩ := backUp_ok hs (hl.unstamped b.clock) (hp.target path).1 hp.backups
    hp.backupsAbsolute hfree hu hsource hbu
  have hab : Account b.tree (backupChanges b p.root path p.backupFolder) b'.tree := by
    have hacc : Account b.tree (backupChanges b p.root path p.backupFolder)
        (b.backUp p.root path p.backupFolder).1.tree :=
      account_backUp hs (hp.target path).1 hp.backups hp.backupsAbsolute
    rwa [hbu] at hacc
  have haw := account_writeFile hab.sound (p.target path) content
  have hg := hab.grows.trans haw.grows
  have hk' : b'.tree.get? k = some (.file bytes) := (hkeep k (by rw [hk]; exact nofun)).trans hk
  obtain ⟨-, hland⟩ := landing_of_writeFile hab.sound hk' hne
  have hbytes : source = bytes := by
    have hget := (Tree.status_eq_ok.mp hsource).2
    rw [eq_of_status_of_landing hg hsource hland, hk] at hget
    cases hget
    rfl
  refine ⟨hland, at', Tree.status_folder_grows haw.grows hat, ?_⟩
  rw [get?_backupName_writeFile hab.sound ((hl.grows hab.grows).unstamped _) (hp.target path).2 hut,
    hcopy, hbytes]

theorem writeOver_keeps (hp : p.Rooted) (hb : p.options.backupFiles = true) (hs : Sound b.tree)
    (hl : NoLinks b.tree) (hfree : Free b.tree b.clock) (hu : Unstamped b.clock p.backupFolder)
    (hsteps : ∀ name ∈ (p.target path).parts, IsStep name)
    (hut : Unstamped b.clock (p.target path)) (hk : b.tree.get? k = some (.file bytes))
    (hne : (writeOver p b path content).1.tree.get? k ≠ some (.file bytes)) :
    b.clock < (writeOver p b path content).1.clock ∧
      (writeOver p b path content).1.tree.landing (p.target path) = some k ∧
      ∃ at', (writeOver p b path content).1.tree.status p.backupFolder = .ok (at', .folder) ∧
        (writeOver p b path content).1.tree.get?
          (at' ++ [Name.plain (backupName path b.clock)]) = some (.file bytes) := by
  rw [writeOver_fst, if_pos hb] at *
  have hthere : b.tree.get? k ≠ none := by rw [hk]; exact nofun
  cases hq : b.tree.isFile (p.target path) with
  | error f => simp only [hq, hk] at hne; exact absurd rfl hne
  | ok there =>
    cases there with
    | false =>
      simp only [hq] at hne
      obtain ⟨hv, hland⟩ := landing_of_writeFile hs hk hne
      have ha := account_writeFile hs (p.target path) content
      have hst := status_of_landing hs (hl.grows ha.grows) ha.grows hsteps hk hland
      rw [Tree.isFile_eq_true.mpr ⟨hv, k, bytes, hst⟩] at hq
      cases hq
    | true =>
      obtain ⟨-, l, source, hsource⟩ := Tree.isFile_eq_true.mp hq
      cases hbu : b.backUp p.root path p.backupFolder with
      | mk b' r =>
        simp only [hq, hbu] at hne ⊢
        cases r with
        | error f => exact absurd (((backUp_error hs hbu).get?_of_made hthere).trans hk) hne
        | ok copyPath =>
          have hclock := clock_backUp b p.root path p.backupFolder
          rw [hbu] at hclock
          simp only at hclock hne ⊢
          rw [clock_writeFile, hclock]
          exact ⟨Nat.lt_succ_self _, writeFile_keeps hp hs hl hfree hu hut hsource hbu hk hne⟩

end

/-- **An action that changes a file has copied it.** -/
theorem perform_keeps (hp : p.Rooted) (hb : p.options.backupFiles = true) (hs : Sound b.tree)
    (hl : NoLinks b.tree) (hfree : Free b.tree b.clock) (hu : Unstamped b.clock p.backupFolder)
    {a : Action} (ha : ∀ path ∈ a.path, ∀ name ∈ (p.target path).parts, IsStep name)
    (hua : ∀ path ∈ a.path, Unstamped b.clock (p.target path)) {k : Location} {bytes : List UInt8}
    (hk : b.tree.get? k = some (.file bytes))
    (hne : (perform p b a).1.tree.get? k ≠ some (.file bytes)) :
    ∃ path at', a.path = some path ∧ a.content.isSome ∧ b.clock < (perform p b a).1.clock ∧
      (perform p b a).1.tree.landing (p.target path) = some k ∧
      (perform p b a).1.tree.status p.backupFolder = .ok (at', .folder) ∧
      (perform p b a).1.tree.get? (at' ++ [Name.plain (backupName path b.clock)]) =
        some (.file bytes) := by
  have hacc := account_perform hp hs a
  unfold perform changesOf at *
  cases hpath : a.path with
  | none => simp [hpath, hk] at hne
  | some path =>
    cases hcontent : a.content with
    | none =>
      simp only [hpath, hcontent] at hacc hne
      exact absurd ((hacc.get?_of_made (by rw [hk]; exact nofun)).trans hk) hne
    | some content =>
      simp only [hpath, hcontent] at hne ⊢
      obtain ⟨hclock, hland, at', hat, hcopy⟩ := writeOver_keeps hp hb hs hl hfree hu
        (ha path hpath) (hua path hpath) hk hne
      exact ⟨path, at', rfl, rfl, hclock, hland, hat, hcopy⟩

/-- A copy has been made of what is at the path of an action: the backup directory is there, and the
copy has landed somewhere else than where the path leads. -/
structure Copied (p : Plan) (path : Text) (q : Path) (t : Tree) : Prop where
  folder : ∃ at', t.status p.backupFolder = .ok (at', .folder)
  apart : ∃ source k, t.locate .target (p.target path) = .ok source ∧
    t.locate .writing q = .ok k ∧ source ≠ k

theorem Copied.grows {path : Text} {q : Path} {t t' : Tree} (h : Copied p path q t)
    (hg : Grows t t') : Copied p path q t' := by
  obtain ⟨⟨at', hat⟩, source, k, hsource, hk, hne⟩ := h
  exact ⟨⟨at', Tree.status_folder_grows hg hat⟩, source, k, Tree.locate_grows hg hsource,
    Tree.locate_grows hg hk, hne⟩

theorem copied_of_backUp (hp : p.Rooted) (hs : Sound b.tree) {path : Text} {q : Path}
    {bytes : List UInt8} (h : Change.copied q bytes ∈ backupChanges b p.root path p.backupFolder) :
    Copied p path q (b.backUp p.root path p.backupFolder).1.tree := by
  unfold backupChanges at h
  rcases List.mem_cons.mp h with h | h
  · cases h
  · rw [backUp_eq]
    cases hm : b.tree.makeFolders p.backupFolder with
    | mk t f =>
      rw [hm] at h
      cases f with
      | some f => cases h
      | none =>
        simp only at h ⊢
        cases hc : t.copy (p.root.join (.ofText path))
            (backupPath p.backupFolder path b.clock).toText with
        | error f => simp [hc] at h
        | ok t' =>
          simp only [hc, List.mem_singleton, Change.copied.injEq] at h
          have ha := Tree.account_makeFolders hs hm
          obtain ⟨at', hat⟩ := Tree.status_of_makeFolders hs hm
          obtain ⟨_, _, hac⟩ := Tree.account_copy ha.sound (hp.target path).1
            (backupPath_proper hp.backups path b.clock) hp.backupsAbsolute hc
          obtain ⟨source, _, k, -, hsource, hk, -, hne, -⟩ := Tree.copy_eq_ok ha.sound
            (hp.target path).1 (backupPath_proper hp.backups path b.clock) hp.backupsAbsolute hc
          have hcopied : Copied p path q t := ⟨⟨at', hat⟩, source, k,
            (Tree.status_eq_ok.mp hsource).1, h.1 ▸ hk, hne⟩
          exact hcopied.grows hac.grows

theorem of_copied_writeOver (hp : p.Rooted) (hs : Sound b.tree) {path content : Text} {q : Path}
    {bytes : List UInt8} (h : Change.copied q bytes ∈ overChanges p b path content) :
    b.clock < (writeOver p b path content).1.clock ∧
      Copied p path q (writeOver p b path content).1.tree := by
  unfold overChanges at h
  rw [writeOver_fst]
  split at h
  · next hb =>
    rw [if_pos hb]
    split at h
    · cases h
    · exact absurd h copied_notMem_fileChanges
    · have hclock := clock_backUp b p.root path p.backupFolder
      have hab : Account b.tree (backupChanges b p.root path p.backupFolder)
          (b.backUp p.root path p.backupFolder).1.tree :=
        account_backUp hs (hp.target path).1 hp.backups hp.backupsAbsolute
      have hmem : Change.copied q bytes ∈ backupChanges b p.root path p.backupFolder := by
        rcases List.mem_append.mp h with h | h
        · exact h
        · split at h
          · exact absurd h copied_notMem_fileChanges
          · cases h
      have hcopied := copied_of_backUp hp hs hmem
      cases hbu : b.backUp p.root path p.backupFolder with
      | mk b' r =>
        rw [hbu] at hclock hcopied hab
        simp only at hclock hcopied hab
        cases r with
        | error f => exact ⟨by simp only; omega, hcopied⟩
        | ok copyPath =>
          have haw := account_writeFile hab.sound (p.target path) content
          exact ⟨by simp only [clock_writeFile]; omega, hcopied.grows haw.grows⟩
  · exact absurd h copied_notMem_fileChanges

/-- With a copy the stamp moves on. -/
theorem of_copied (hp : p.Rooted) (hs : Sound b.tree) {a : Action} {q : Path} {bytes : List UInt8}
    (h : Change.copied q bytes ∈ changesOf p b a) :
    b.clock < (perform p b a).1.clock ∧
      ∃ path ∈ a.path, Copied p path q (perform p b a).1.tree := by
  unfold perform changesOf at *
  cases hpath : a.path with
  | none => simp [hpath] at h
  | some path =>
    cases hcontent : a.content with
    | none => simp [hpath, hcontent] at h
    | some content =>
      simp only [hpath, hcontent] at h ⊢
      obtain ⟨hclock, hcopied⟩ := of_copied_writeOver hp hs h
      exact ⟨hclock, path, rfl, hcopied⟩

/-- What an action for a path may change while the next stamp is free: what is on the way to the path
or to the backup directory, what is at the path, and the place of its backup. -/
inductive FreeEffect (p : Plan) (b : Bench) (a : Action) (path : Text) : Change → Prop
  | folder {d : Path}
    (h : d = p.target path ∨ d = (p.target path).parent ∨ d = p.backupFolder) :
    FreeEffect p b a path (.made d)
  | content (h : a.content.isSome) (bytes : List UInt8) :
    FreeEffect p b a path (.written (p.target path) bytes)
  | copy (bytes : List UInt8) :
    FreeEffect p b a path (.copied (backupPath p.backupFolder path b.clock) bytes)

theorem freeEffect_of_mem_changesOf (hp : p.Rooted) (hs : Sound b.tree) (hl : UnstampedLinks b.tree b.clock)
    (hfree : Free b.tree b.clock) (hu : Unstamped b.clock p.backupFolder) {a : Action} {c : Change}
    (h : c ∈ changesOf p b a) : ∃ path, a.path = some path ∧ FreeEffect p b a path c := by
  obtain ⟨path, hpath, he⟩ := effect_of_mem_changesOf h
  refine ⟨path, hpath, ?_⟩
  generalize hcontent : a.content = content at he
  cases he with
  | folder => exact .folder (.inl rfl)
  | parent => exact .folder (.inr (.inl rfl))
  | content => exact .content (hcontent ▸ rfl) _
  | backups => exact .folder (.inr (.inr rfl))
  | copy hb hm bytes =>
    cases hmk : b.tree.makeFolders p.backupFolder with
    | mk t f =>
      rw [hmk] at hm
      simp only at hm
      subst hm
      have ha := Tree.account_makeFolders hs hmk
      have hlt := hl.grows ha.grows
      obtain ⟨at', hat⟩ := Tree.status_of_makeFolders hs hmk
      have hfree' : Free t b.clock := hfree.account ha hlt fun c hcm => by
        obtain rfl := List.mem_singleton.mp hcm
        exact ⟨hp.backupsAbsolute, hu⟩
      rw [copyPath_of_free hat hfree' hp.backups hp.backupsAbsolute]
      exact .copy bytes

section
variable (hp : p.Rooted) (hs : Sound b.tree) (hl : UnstampedLinks b.tree b.clock)
  (hfree : Free b.tree b.clock) (hnext : Unstamped b.clock p.backupFolder) {a : Action} {n : Nat}
  (hu : Unstamped n p.backupFolder) (hua : ∀ path ∈ a.path, Unstamped n (p.target path))

include hp hs hl hfree hnext hu hua

/-- A stamp is on a change of an action only if it is the next one and the action copies. -/
theorem unstamped_changesOf (hcopy : n = b.clock → ∀ q bytes, Change.copied q bytes ∉ changesOf p b a) :
    ∀ c ∈ changesOf p b a, c.path.isAbsolute = true ∧ Unstamped n c.path := by
  intro c hc
  obtain ⟨path, hpath, he⟩ := freeEffect_of_mem_changesOf hp hs hl hfree hnext hc
  have ht := hua path hpath
  cases he with
  | folder hd =>
    rcases hd with rfl | rfl | rfl
    · exact ⟨(hp.target path).2, ht⟩
    · exact ⟨(hp.target path).2, ht.parent⟩
    · exact ⟨hp.backupsAbsolute, hu⟩
  | content => exact ⟨(hp.target path).2, ht⟩
  | copy bytes =>
    refine ⟨hp.backupsAbsolute, hu.backupPath ?_ path⟩
    intro he
    exact hcopy he.symm _ _ hc

/-- A stamp that is still to come stays free: an action that copies uses up the next one. -/
theorem free_perform (hlinks : UnstampedLinks b.tree n) (hn : Free b.tree n)
    (hclock : (perform p b a).1.clock ≤ n) : Free (perform p b a).1.tree n := by
  have hacc := account_perform hp hs a
  refine hn.account hacc (hlinks.grows hacc.grows)
    (unstamped_changesOf hp hs hl hfree hnext hu hua ?_)
  intro he q bytes hq
  have hmoved : b.clock < (perform p b a).1.clock := (of_copied hp hs hq).1
  omega

end

/-- A copy that lands where something was before has found its stamp in use. -/
theorem taken_of_copied (hp : p.Rooted) {t t' : Tree} (ht : Sound t) (hs : Sound b.tree)
    (hl : NoLinks t') {a : Action} (hg : Grows (perform p b a).1.tree t') {q : Path}
    {bytes : List UInt8} (h : Change.copied q bytes ∈ changesOf p b a)
    (hname : ∀ path ∈ a.path, IsStep (p.target path).name) {k : Location} (hk : t.get? k ≠ none)
    (hland : t'.landing q = some k) : ¬ Free t b.clock := by
  intro hfree
  obtain ⟨-, _, -, ⟨at', hat⟩, -⟩ := of_copied hp hs h
  have hat' := Tree.status_folder_grows hg hat
  obtain ⟨path, hpath, he⟩ := effect_of_mem_changesOf h
  have hloc := Tree.landing_eq_some.mp hland
  generalize a.content = content at he
  cases he with
  | copy hb hm bytes =>
    rcases locate_copyPath hat' hl (hname path hpath) hloc with rfl | rfl
    · exact hk (hfree at' path)
    · have hfolder := ht.parent hk
      rw [hfree at' path] at hfolder
      cases hfolder

end

end Repair

end PackageAudit
