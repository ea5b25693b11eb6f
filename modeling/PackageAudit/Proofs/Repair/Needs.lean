import PackageAudit.Proofs.Repair.Carried
import PackageAudit.Proofs.Repair.Written

/-! # The directories that actions need

An action that succeeds has made the directories that it needs (`Needs`), and no others: its own or that
of its file, and that of the backups if there is a file to keep. In a run in which no action fails they
are all there in the end (`folder_of_needs`).
-/

namespace PackageAudit

open PackageAudit.Tree (Change Sound Grows)

namespace Repair

/-- A directory that an action needs in a tree. -/
inductive Needs (p : Plan) (t : Tree) (a : Action) : Path → Prop
  | folder {path : Text} (hpath : a.path = some path) (h : a.content = none) :
    Needs p t a (p.target path)
  | parent {path : Text} (hpath : a.path = some path) (h : a.content.isSome) :
    Needs p t a (p.target path).parent
  | backups {path : Text} (hpath : a.path = some path) (h : a.content.isSome)
    (hb : p.options.backupFiles = true) (hfile : t.isFile (p.target path) = .ok true) :
    Needs p t a p.backupFolder

section
variable {p : Plan} {b b' : Bench} {a : Action} {kept : Option Text} {c : Change} {q : Path}

theorem Needs.isAbsolute {t : Tree} (hp : p.Rooted) (h : Needs p t a q) : q.isAbsolute = true := by
  cases h with
  | folder _ _ => exact (hp.target _).2
  | parent _ _ => exact (hp.target _).2
  | backups _ _ _ _ => exact hp.backupsAbsolute

/-- Another action along the same path needs the same, where there is a file if there was one. -/
theorem Needs.congr {t t' : Tree} {a' : Action} (h : Needs p t a q) (hpath : a'.path = a.path)
    (hcontent : a'.content.isSome = a.content.isSome)
    (hfile : ∀ path, a.path = some path → a.content.isSome = true →
      t.isFile (p.target path) = .ok true → t'.isFile (p.target path) = .ok true) :
    Needs p t' a' q := by
  cases h with
  | folder hp h =>
    rw [h] at hcontent
    exact .folder (hpath.trans hp) (by simpa using hcontent)
  | parent hp h => exact .parent (hpath.trans hp) (hcontent.trans h)
  | backups hp h hb hf => exact .backups (hpath.trans hp) (hcontent.trans h) hb (hfile _ hp h hf)

/-- **What an action changes that succeeds**: it makes a directory, or it writes a file, after it has
kept the old content if there was any. -/
theorem mem_changesOf_of_perform (h : perform p b a = (b', .ok kept)) (hc : c ∈ changesOf p b a) :
    ∃ path, a.path = some path ∧
      ((a.content = none ∧ c = .made (p.target path)) ∨
        (a.content.isSome ∧
          (c = .made (p.target path).parent ∨ ∃ bytes, c = .written (p.target path) bytes)) ∨
        (a.content.isSome ∧ p.options.backupFiles = true ∧
          b.tree.isFile (p.target path) = .ok true ∧
          (c = .made p.backupFolder ∨ ∃ q bytes, c = .copied q bytes))) := by
  obtain ⟨path, hpath, hsucceeds⟩ := succeeds_of_perform h
  have hfile : ∀ {b : Bench} {content : Text}, c ∈ fileChanges b (p.target path) content →
      c = .made (p.target path).parent ∨ ∃ bytes, c = .written (p.target path) bytes :=
    fun h => (mem_fileChanges h).imp_right fun h => ⟨_, h.1⟩
  refine ⟨path, hpath, ?_⟩
  unfold changesOf at hc
  generalize a.content = content at hsucceeds hc ⊢
  rw [hpath] at hc
  cases hsucceeds with
  | made hm => exact .inl ⟨rfl, List.mem_singleton.mp hc⟩
  | wrote hnone hwrite =>
    refine .inr (.inl ⟨rfl, ?_⟩)
    simp only [overChanges] at hc
    split at hc
    · next hb =>
      rw [hnone hb] at hc
      exact hfile hc
    · exact hfile hc
  | wroteOver hb hthere hcopy hwrite =>
    simp only [overChanges, hb, hthere, if_true, hcopy] at hc
    rcases List.mem_append.mp hc with hc | hc
    · refine .inr (.inr ⟨rfl, hb, hthere, ?_⟩)
      rcases List.mem_cons.mp hc with rfl | hc
      · exact .inl rfl
      · split at hc
        · split at hc
          · exact .inr ⟨_, _, List.mem_singleton.mp hc⟩
          · cases hc
        · cases hc
    · exact .inr (.inl ⟨rfl, hfile hc⟩)

/-- An action that succeeds makes directories that it needs. -/
theorem needs_of_made (h : perform p b a = (b', .ok kept)) (hc : .made q ∈ changesOf p b a) :
    Needs p b.tree a q := by
  obtain ⟨path, hpath, ⟨hnone, he⟩ | ⟨hsome, he | ⟨bytes, he⟩⟩ | ⟨hsome, hb, hthere, he | ⟨_, _, he⟩⟩⟩ :=
    mem_changesOf_of_perform h hc
  · cases he
    exact .folder hpath hnone
  · cases he
    exact .parent hpath hsome
  · cases he
  · cases he
    exact .backups hpath hsome hb hthere
  · cases he

theorem needs_of_copied {bytes : List UInt8} (h : perform p b a = (b', .ok kept))
    (hc : .copied q bytes ∈ changesOf p b a) : Needs p b.tree a p.backupFolder := by
  obtain ⟨path, hpath, ⟨-, he⟩ | ⟨-, he | ⟨_, he⟩⟩ | ⟨hsome, hb, hthere, -⟩⟩ :=
    mem_changesOf_of_perform h hc
  · cases he
  · cases he
  · cases he
  · exact .backups hpath hsome hb hthere

theorem status_of_writeFile {target : Path} {content : Text} (hs : Sound b.tree)
    (h : writeFile b target content = (b', none)) :
    ∃ l, b'.tree.status target.parent = .ok (l, .folder) := by
  unfold writeFile at h
  split at h
  · cases h
  · next t hm =>
    obtain ⟨l, hl⟩ := Tree.status_of_makeFolders hs hm
    have hacc := account_writeContent (b := b.withTree t) (Tree.account_makeFolders hs hm).sound
      target content
    rw [h] at hacc
    exact ⟨l, Tree.status_folder_grows hacc.grows hl⟩

/-- **What an action needs is there after it, if it succeeds.** -/
theorem Needs.status (hp : p.Rooted) (hs : Sound b.tree) (h : perform p b a = (b', .ok kept))
    (hq : Needs p b.tree a q) : ∃ l, b'.tree.status q = .ok (l, .folder) := by
  obtain ⟨path, hpath, hsucceeds⟩ := succeeds_of_perform h
  cases hq with
  | folder hpath' hnone =>
    cases hpath.symm.trans hpath'
    rw [hnone] at hsucceeds
    cases hsucceeds with
    | made hm => exact Tree.status_of_makeFolders hs hm
  | parent hpath' hsome =>
    cases hpath.symm.trans hpath'
    generalize a.content = content at hsucceeds hsome
    cases hsucceeds with
    | made hm => cases hsome
    | wrote hfile hwrite => exact status_of_writeFile hs hwrite
    | wroteOver hb hfile hcopy hwrite =>
      have hacc := account_backUp hs (hp.target path).1 hp.backups hp.backupsAbsolute
      rw [hcopy] at hacc
      exact status_of_writeFile hacc.sound hwrite
  | backups hpath' hsome hb hfile =>
    cases hpath.symm.trans hpath'
    generalize a.content = content at hsucceeds hsome
    cases hsucceeds with
    | made hm => cases hsome
    | wrote hnone hwrite =>
      rw [hnone hb] at hfile
      cases hfile
    | @wroteOver content b₁ _ _ hb hfile hcopy hwrite =>
      obtain ⟨t, t', hm, hcopied, rfl, rfl⟩ := backUp_eq_ok.mp hcopy
      have hmade := Tree.account_makeFolders hs hm
      obtain ⟨l, hl⟩ := Tree.status_of_makeFolders hs hm
      obtain ⟨bytes, -, hcopying⟩ := Tree.account_copy hmade.sound (hp.target path).1
        (backupPath_proper hp.backups path b.clock) hp.backupsAbsolute hcopied
      have hwriting := account_writeFile (b := ⟨t', b.clock + 1⟩) hcopying.sound (p.target path)
        content
      rw [hwrite] at hwriting
      exact ⟨l, Tree.status_folder_grows (hcopying.grows.trans hwriting.grows) hl⟩

end

/-- What the actions of a run need is there in the end, if they succeed. -/
theorem folder_of_needs {p : Plan} (hp : p.Rooted) {s : Progress} {vs : List Verdict}
    (hs : Sound s.bench.tree) {y : Bench × Action} (hy : y ∈ performedIn p s vs) {kept : Option Text}
    (hok : (perform p y.1 y.2).2 = .ok kept) {q : Path} (hq : Needs p y.1.tree y.2 q) :
    ∃ l, (repairAll p s vs).1.bench.tree.status q = .ok (l, .folder) := by
  obtain ⟨hsound, -, -, hg⟩ := grows_of_performedIn hp hs hy
  obtain ⟨l, hl⟩ := hq.status hp hsound (Prod.ext rfl hok)
  exact ⟨l, Tree.status_folder_grows hg hl⟩

end Repair

end PackageAudit
