import PackageAudit.Proofs.Service.Provided

/-! # What lands on the file of a remedy

Wherever the backups go, none lands on the file of a remedy: it would have to be a copy of that very
file (`not_copied_way`). So an action of a remedy leaves the files of the others alone, and its own
file as it was or with the action's content (`file_perform`).
-/

namespace PackageAudit

open PackageAudit.Tree (Sound NoLinks Grows Change Account IsStep)

namespace Repair

section
variable {p : Plan} {b : Bench} {path content : Text}

/-! ## Writing and failing -/

/-- A text that has a UTF-8 form is written, or nothing is. -/
theorem not_written_of_writeFile {target : Path} {bytes : List UInt8}
    (hbytes : Utf8.encode content = .ok bytes) {f : FileFault}
    (h : (writeFile b target content).2 = some f) {q : Path} {new : List UInt8} :
    .written q new ∉ fileChanges b target content := by
  intro hmem
  unfold writeFile at h
  rcases List.mem_cons.mp hmem with hmade | hmem
  · cases hmade
  · cases hm : b.tree.makeFolders target.parent with
    | mk t r =>
      rw [hm] at h hmem
      cases r with
      | some f => cases hmem
      | none =>
        simp only at h hmem
        unfold contentChanges at hmem
        rw [contentBytes_of_ok hbytes] at hmem
        unfold writeContent at h
        rw [hbytes] at h
        simp only at h
        split at hmem
        · next t' hw =>
          rw [hw] at h
          cases h
        · cases hmem

theorem not_written_of_backUp {root folder : Path} {q : Path} {new : List UInt8} :
    .written q new ∉ backupChanges b root path folder := by
  intro hmem
  unfold backupChanges at hmem
  rcases List.mem_cons.mp hmem with hmade | hmem
  · cases hmade
  · split at hmem
    · split at hmem
      · cases List.mem_singleton.mp hmem
      · cases hmem
    · cases hmem

/-- An action that fails has written nothing, if its content has a UTF-8 form. -/
theorem not_written_of_perform {a : Action} (hcontent : a.content = some content)
    {bytes : List UInt8} (hbytes : Utf8.encode content = .ok bytes) {f : FileFault}
    (h : (perform p b a).2 = .error f) {q : Path} {new : List UInt8} :
    .written q new ∉ changesOf p b a := by
  intro hmem
  obtain ⟨path, hpath, -⟩ := effect_of_mem_changesOf hmem
  have hfinish : ∀ {b : Bench} {kept : Option Text},
      (finished (writeFile b (p.target path) content) kept).2 = .error f →
      .written q new ∉ fileChanges b (p.target path) content :=
    fun h => not_written_of_writeFile hbytes (of_finished_error h)
  unfold perform at h
  unfold changesOf at hmem
  rw [hpath, hcontent] at h hmem
  simp only at h hmem
  rw [writeOver_eq] at h
  unfold overChanges at hmem
  split at hmem
  · next hb =>
    rw [if_pos hb] at h
    cases hfile : b.tree.isFile (p.target path) with
    | error f =>
      rw [hfile] at hmem
      cases hmem
    | ok there =>
      rw [hfile] at h hmem
      cases there with
      | false => exact hfinish h hmem
      | true =>
        simp only at h hmem
        rcases List.mem_append.mp hmem with hmem | hmem
        · exact not_written_of_backUp hmem
        · cases hback : b.backUp p.root path p.backupFolder with
          | mk b' r =>
            rw [hback] at h hmem
            cases r with
            | error f => cases hmem
            | ok copyPath => exact hfinish h hmem
  · next hb =>
    rw [if_neg hb] at h
    exact hfinish h hmem

end

end Repair

/-! ## Backups and the files of remedies -/

/-- The file of a remedy is known by its last name. -/
theorem BuiltinRemedy.way_eq_of_last {r r' : BuiltinRemedy}
    (h : r.way.getLast? = r'.way.getLast?) : r.way = r'.way := by
  revert h
  cases r <;> cases r' <;> decide

theorem BuiltinRemedy.last_append (r : BuiltinRemedy) (base : Location) :
    (base ++ r.way).getLast? = r.way.getLast? := by
  rw [List.getLast?_append]
  cases r <;> rfl

theorem BuiltinRemedy.name_append (r : BuiltinRemedy) (root : Path) :
    r.way.getLast? = some (Name.plain (root.append r.way).name) := by
  have hname : r.way.getLast? = some (root.append r.way).name := by
    cases r <;> simp [way, Path.name, Path.append]
  have hplain : Name.plain (root.append r.way).name = (root.append r.way).name :=
    (r.isEntryName_way _ (List.mem_of_getLast? hname)).2.1
  rw [hplain, hname]

theorem BuiltinRemedy.not_suffix_way (r : BuiltinRemedy) :
    ∀ name ∈ r.way, ¬ Name.bytes ".backup" <:+ Name.bytes name := by
  cases r <;> decide

theorem BuiltinRemedy.last_ne_backupName (r : BuiltinRemedy) (path : Text) (n : Nat) :
    r.way.getLast? ≠ some (Name.plain (backupName path n)) := by
  intro h
  have hmem : Name.plain (backupName path n) ∈ r.way.map Name.plain := by
    rw [r.plain_way]
    exact List.mem_of_getLast? h
  obtain ⟨name, hname, hplain⟩ := List.mem_map.mp hmem
  exact plain_ne_of_not_suffix (r.not_suffix_way name hname) path n hplain

section
variable {p : Repair.Plan} {b : Bench} {base : Location} {site : Site} {v : Verdict}
  {actions : List Action} {a : Action} {r : BuiltinRemedy} (hp : p.Rooted)
  (hst : Stage b.tree p.root base) (hsite : site.settings = .default)
  (hok : r.plan site v = .ok actions) (ha : a ∈ actions)

include hp hst hsite hok ha in
/-- **No backup lands on the file of a remedy.** -/
theorem not_copied_way {t' : Tree} {q : Path} {bytes : List UInt8} (hs : Sound t')
    (hg : Grows (Repair.perform p b a).1.tree t') (hc : .copied q bytes ∈ Repair.changesOf p b a)
    (r' : BuiltinRemedy) : t'.landing q ≠ some (base ++ r'.way) := by
  intro hland
  obtain ⟨-, path, hpath, hcopied⟩ := Repair.of_copied hp hst.sound hc
  have hst' : Stage t' p.root base :=
    hst.grows hs ((Repair.account_perform hp hst.sound a).grows.trans hg)
  obtain ⟨⟨at', hat⟩, source, k, hsource, hk, hne⟩ := hcopied.grows hg
  obtain rfl := Except.ok.inj (hk.symm.trans (Tree.landing_eq_some.mp hland))
  obtain ⟨names, hnames, -, htarget, hway⟩ := target_standard p.root p.options hsite hok ha hpath
  obtain ⟨path', hpath', heffect⟩ := Repair.effect_of_mem_changesOf hc
  obtain rfl := Option.some.inj (hpath.symm.trans hpath')
  generalize hcontent : a.content = content at heffect hway
  cases heffect with
  | @copy text hb hm bytes =>
    obtain rfl := hway rfl
    change p.target path = p.root.append r.way at htarget
    -- the copy is not where its source is, so the file is not the one of this remedy
    have hsource' : source = base ++ r.way := by
      rw [htarget] at hsource
      have h := Tree.locate_append hst'.ground.folder hnames r.isStep_way
        (hst'.noLinks.clearWay base _) hsource
      rwa [r.plain_way] at h
    have hother : r.way ≠ r'.way := fun he => hne (he ▸ hsource')
    change t'.locate .writing (Tree.copyPath _ (p.target path) _) = _ at hk
    rw [htarget] at hk
    have hname : Tree.IsStep (p.root.append r.way).name :=
      r.isStep_way _ (Path.name_append_mem p.root hnames)
    rcases locate_copyPath hat hst'.noLinks hname hk with hway | hway
    all_goals
      have hlast := congrArg List.getLast? hway
      rw [r'.last_append] at hlast
    · exact r'.last_ne_backupName path b.clock (by rw [hlast]; simp)
    · refine hother (BuiltinRemedy.way_eq_of_last ?_)
      rw [hlast, r.name_append p.root]
      simp

include hp hst hsite hok ha in
/-- **What lands on the file of a remedy** is the content of an action of a remedy for this file. -/
theorem content_of_landing {t' : Tree} {c : Change} {x : Path × List UInt8} (hs : Sound t')
    (hg : Grows (Repair.perform p b a).1.tree t') (hc : c ∈ Repair.changesOf p b a) (hx : x ∈ c.file?)
    (r' : BuiltinRemedy) (hland : t'.landing x.1 = some (base ++ r'.way)) :
    r.way = r'.way ∧ c = .written x.1 x.2 ∧ ∃ text, a.content = some text ∧
      x.2 = Repair.contentBytes text := by
  have hst' : Stage t' p.root base :=
    hst.grows hs ((Repair.account_perform hp hst.sound a).grows.trans hg)
  obtain ⟨path, hpath, heffect⟩ := Repair.effect_of_mem_changesOf hc
  obtain ⟨names, hne, -, htarget, hway⟩ := target_standard p.root p.options hsite hok ha hpath
  generalize hcontent : a.content = content at heffect hway
  cases heffect with
  | folder => cases hx
  | parent => cases hx
  | backups => cases hx
  | copy hb hm bytes =>
    cases hx
    exact absurd hland (not_copied_way hp hst hsite hok ha hs hg hc r')
  | @content text =>
    cases hx
    obtain rfl := hway rfl
    change p.target path = p.root.append r.way at htarget
    rw [htarget] at hland
    have hloc := hst'.of_landing hne r.isStep_way hland
    rw [r.plain_way] at hloc
    exact ⟨(List.append_cancel_left hloc).symm, rfl, text, rfl, rfl⟩

include hp hst hsite hok ha in
/-- **What an action of a remedy leaves in the file of a remedy**: what was there, or its own content,
which it has then written without failing if the content has a UTF-8 form. -/
theorem file_perform (r' : BuiltinRemedy) {old : List UInt8}
    (hk : b.tree.get? (base ++ r'.way) = some (.file old)) :
    (Repair.perform p b a).1.tree.get? (base ++ r'.way) = some (.file old) ∨
      r.way = r'.way ∧ ∃ content, a.content = some content ∧
        (Repair.perform p b a).1.tree.get? (base ++ r'.way) =
          some (.file (Repair.contentBytes content)) ∧
        ∀ bytes, Utf8.encode content = .ok bytes → ∃ kept, (Repair.perform p b a).2 = .ok kept := by
  have hacc := Repair.account_perform hp hst.sound a
  by_cases hsame : (Repair.perform p b a).1.tree.get? (base ++ r'.way) = some (.file old)
  · exact .inl hsame
  · obtain ⟨c, x, hlast, hx, -⟩ := (hacc.get?_ne_iff hk).mp hsame
    have hnew := (hacc.get?_eq_replay (by rw [hk]; exact nofun)).trans (hlast.replay_eq hx _)
    have hmem := hlast.mem
    obtain ⟨hway, rfl, text, hcontent, hbytes⟩ := content_of_landing hp hst hsite hok ha hacc.sound
      (Grows.refl _) hmem hx r' (hlast.landing hx)
    rw [hbytes] at hnew
    refine .inr ⟨hway, text, hcontent, hnew, fun bytes hbytes => ?_⟩
    cases hr : (Repair.perform p b a).2 with
    | ok kept => exact ⟨kept, rfl⟩
    | error f => exact absurd hmem (Repair.not_written_of_perform hcontent hbytes hr)

include hp hst hsite hok ha in
/-- A file of a remedy that is there after an action was there before, unless the action has written
it. -/
theorem file_of_perform (r' : BuiltinRemedy) (hother : r.way = r'.way → a.content = none)
    {bytes : List UInt8}
    (hk : (Repair.perform p b a).1.tree.get? (base ++ r'.way) = some (.file bytes)) :
    b.tree.get? (base ++ r'.way) = some (.file bytes) := by
  have hacc := Repair.account_perform hp hst.sound a
  refine Classical.byContradiction fun hne => ?_
  rcases hacc.landing_of_ne (k := base ++ r'.way) (by rw [hk]; exact Ne.symm hne) with
    ⟨c, hc, x, hx, hland⟩ | ⟨-, hfolder, -⟩
  · obtain ⟨hway, -, text, hcontent, -⟩ := content_of_landing hp hst hsite hok ha hacc.sound
      (Grows.refl _) hc hx r' hland
    rw [hother hway] at hcontent
    cases hcontent
  · rw [hk] at hfolder
    cases hfolder

end

end PackageAudit
