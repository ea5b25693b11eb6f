import PackageAudit.Proofs.Repair.Journal

/-! # What a successful repair has written

`Succeeds` lists the ways in which an action can succeed. It then leaves the UTF-8 form of its content
where its path leads (`written_of_perform`), and so does the last action of a plan that succeeds as a
whole (`written_of_performAll`).
-/

namespace PackageAudit

open PackageAudit.Tree (Change Sound)

namespace Repair

/-- The content is in a file where the path leads. -/
def Written (t : Tree) (target : Path) (content : Text) : Prop :=
  ∃ bytes k, Utf8.encode content = .ok bytes ∧ t.landing target = some k ∧
    t.get? k = some (.file bytes)

section
variable {p : Plan} {b b' : Bench} {target : Path} {content path : Text}

theorem written_of_writeContent (hs : Sound b.tree)
    (h : writeContent b target content = (b', none)) : Written b'.tree target content := by
  unfold writeContent at h
  split at h
  · next bytes hbytes =>
    split at h
    · next t hwrite =>
      have hacc := Tree.account_write hs hwrite
      obtain ⟨-, l, hl, hfolder, rfl⟩ := Tree.write_eq_ok.mp hwrite
      cases h
      exact ⟨bytes, l, hbytes, Tree.landing_eq_some.mpr (Tree.locate_grows hacc.grows hl),
        Tree.get?_put_self (Tree.ne_nil_of_get? hfolder) _ _⟩
    · cases h
  · split at h <;> cases h

theorem written_of_writeFile (hs : Sound b.tree)
    (h : writeFile b target content = (b', none)) : Written b'.tree target content := by
  unfold writeFile at h
  split at h
  · cases h
  · next t hmade =>
    exact written_of_writeContent (Tree.account_makeFolders hs hmade).sound h

theorem written_mem_fileChanges (h : writeFile b target content = (b', none)) :
    Change.written target (contentBytes content) ∈ fileChanges b target content := by
  unfold writeFile at h
  unfold fileChanges contentChanges
  refine List.mem_cons_of_mem _ ?_
  cases hm : b.tree.makeFolders target.parent with
  | mk t f =>
    rw [hm] at h
    cases f with
    | some f => cases h
    | none =>
      simp only at h ⊢
      unfold writeContent at h
      split at h
      · next bytes hbytes =>
        rw [contentBytes_of_ok hbytes]
        cases hw : (b.withTree t).tree.write target bytes with
        | ok t' => exact List.mem_singleton_self _
        | error f =>
          rw [hw] at h
          cases h
      · split at h <;> cases h

/-! ## Actions that succeed -/

/-- How an action for a path succeeds, given its content: what it leaves, and where the old content of
the file has gone if there was any to keep. -/
inductive Succeeds (p : Plan) (b : Bench) (path : Text) : Option Text → Bench → Option Text → Prop
  | made {t : Tree} (h : b.tree.makeFolders (p.target path) = (t, none)) :
    Succeeds p b path none (b.withTree t) none
  | wrote {content : Text} {b' : Bench}
    (hfile : p.options.backupFiles = true → b.tree.isFile (p.target path) = .ok false)
    (h : writeFile b (p.target path) content = (b', none)) :
    Succeeds p b path (some content) b' none
  | wroteOver {content : Text} {b₁ b' : Bench} {copyPath : Path}
    (hb : p.options.backupFiles = true) (hfile : b.tree.isFile (p.target path) = .ok true)
    (hcopy : b.backUp p.root path p.backupFolder = (b₁, .ok copyPath))
    (h : writeFile b₁ (p.target path) content = (b', none)) :
    Succeeds p b path (some content) b' (some copyPath.toText)

/-- **An action succeeds in one of these ways.** -/
theorem succeeds_of_perform {a : Action} {kept : Option Text} (h : perform p b a = (b', .ok kept)) :
    ∃ path, a.path = some path ∧ Succeeds p b path a.content b' kept := by
  unfold perform at h
  cases hpath : a.path with
  | none =>
    rw [hpath] at h
    cases h
  | some path =>
    refine ⟨path, rfl, ?_⟩
    rw [hpath] at h
    cases hcontent : a.content with
    | none =>
      rw [hcontent] at h
      simp only at h
      split at h
      · next t hm =>
        cases h
        exact .made hm
      · cases h
    | some content =>
      rw [hcontent] at h
      simp only [writeOver_eq] at h
      split at h
      · next hb =>
        cases hfile : b.tree.isFile (p.target path) with
        | error f =>
          rw [hfile] at h
          cases h
        | ok there =>
          rw [hfile] at h
          cases there with
          | false =>
            obtain ⟨hwrite, rfl⟩ := finished_eq_ok.mp h
            exact .wrote (fun _ => hfile) hwrite
          | true =>
            cases hbu : b.backUp p.root path p.backupFolder with
            | mk b₁ res =>
              rw [hbu] at h
              cases res with
              | error f => cases h
              | ok copyPath =>
                obtain ⟨hwrite, rfl⟩ := finished_eq_ok.mp h
                exact .wroteOver hb hfile hbu hwrite
      · next hb =>
        obtain ⟨hwrite, rfl⟩ := finished_eq_ok.mp h
        exact .wrote (fun hb' => absurd hb' hb) hwrite

theorem written_of_perform (hp : p.Rooted) (hs : Sound b.tree) {a : Action} {kept : Option Text}
    (h : perform p b a = (b', .ok kept)) (hpath : a.path = some path)
    (hcontent : a.content = some content) : Written b'.tree (p.target path) content := by
  obtain ⟨path', hpath', hsucceeds⟩ := succeeds_of_perform h
  obtain rfl := Option.some.inj (hpath.symm.trans hpath')
  rw [hcontent] at hsucceeds
  cases hsucceeds with
  | wrote hfile hwrite => exact written_of_writeFile hs hwrite
  | wroteOver hb hfile hcopy hwrite =>
    have hacc := account_backUp hs (hp.target path).1 hp.backups hp.backupsAbsolute
    rw [hcopy] at hacc
    exact written_of_writeFile hacc.sound hwrite

/-- What an action that writes, and succeeds, changes: it keeps the old content and writes its own. -/
theorem changesOf_of_perform {a : Action} {kept : Option Text} (h : perform p b a = (b', .ok kept))
    (hcontent : a.content = some content) : ∃ path b₁ before, a.path = some path ∧
      writeFile b₁ (p.target path) content = (b', none) ∧
      changesOf p b a = before ++ fileChanges b₁ (p.target path) content := by
  obtain ⟨path, hpath, hsucceeds⟩ := succeeds_of_perform h
  rw [hcontent] at hsucceeds
  unfold changesOf overChanges
  rw [hpath, hcontent]
  cases hsucceeds with
  | wrote hfile hwrite =>
    refine ⟨path, b, [], rfl, hwrite, ?_⟩
    cases hb : p.options.backupFiles with
    | true => simp [hfile hb]
    | false => simp
  | wroteOver hb hfile hcopy hwrite =>
    exact ⟨path, _, backupChanges b p.root path p.backupFolder, rfl, hwrite, by simp [hb, hfile, hcopy]⟩

/-- **The last action of a plan that succeeds has left its content.** -/
theorem written_of_performAll (hp : p.Rooted) (ruleId : Text) {last : Action}
    (hpath : last.path = some path) (hcontent : last.content = some content) {kept : Option Text} :
    ∀ (init : List Action) {b : Bench} {before : Option Text}, Sound b.tree →
      performAll p ruleId b before (init ++ [last]) = (b', .ok kept) →
      Written b'.tree (p.target path) content
  | [], b, before, hs, h => by
    rw [List.nil_append, performAll] at h
    split at h
    · next hperform =>
      cases h
      exact written_of_perform hp hs hperform hpath hcontent
    · split at h <;> cases h
  | a :: init, b, before, hs, h => by
    rw [List.cons_append, performAll] at h
    have hacc := account_perform hp hs a
    split at h
    · next hperform =>
      rw [hperform] at hacc
      exact written_of_performAll hp ruleId hpath hcontent init hacc.sound h
    · split at h <;> cases h

end

end Repair

end PackageAudit
