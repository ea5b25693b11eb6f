import PackageAudit.Proofs.Repair.Journal

/-! # Stamps that are still free

A stamp is `Free` in a tree if nothing there has the name of a backup with it. Changes along paths
that do not hold such a name (`Unstamped`) leave what has such a name alone
(`Account.get?_backupName`), so a stamp stays free until a backup with it is made, and a backup stays
what it is. As long as the next stamp is free a copy goes where its name says
(`copyPath_of_free`).
-/

namespace PackageAudit

open PackageAudit.Tree (Change Account Sound NoLinks IsStep)

/-- No name on a path is the name of a backup with this stamp. -/
def Unstamped (n : Nat) (p : Path) : Prop :=
  ∀ name ∈ p.parts, ∀ path, Name.plain name ≠ Name.plain (backupName path n)

/-- Nothing has the name of a backup with this stamp. -/
def Free (t : Tree) (n : Nat) : Prop :=
  ∀ folder path, t.get? (folder ++ [Name.plain (backupName path n)]) = none

/-- No link leads through the name of a backup with this stamp. -/
def UnstampedLinks (t : Tree) (n : Nat) : Prop :=
  Tree.LinkNames t fun x => ∀ path, x ≠ Name.plain (backupName path n)

section
variable {t t' : Tree} {n : Nat}

theorem Tree.NoLinks.unstamped (h : NoLinks t) (n : Nat) : UnstampedLinks t n := h.linkNames _

theorem UnstampedLinks.grows (hg : Tree.Grows t t') (h : UnstampedLinks t n) : UnstampedLinks t' n :=
  fun k target hk => h k target (hg.link.mpr hk)

theorem Unstamped.parent {p : Path} (h : Unstamped n p) : Unstamped n p.parent :=
  fun name hm => h name (List.dropLast_subset p.parts hm)

theorem Unstamped.append {p : Path} {names : List Text} (h : Unstamped n p)
    (hn : ∀ name ∈ names, ∀ path, Name.plain name ≠ Name.plain (backupName path n)) :
    Unstamped n (p.append names) := by
  intro name hm
  rcases List.mem_append.mp hm with hm | hm
  · exact h name hm
  · exact hn name hm

theorem Unstamped.join {p q : Path} (hp : Unstamped n p) (hq : Unstamped n q) :
    Unstamped n (p.join q) := by
  unfold Path.join
  split
  · exact hq
  · exact hp.append hq

/-- The path of a backup has the name of a backup with its own stamp only. -/
theorem Unstamped.backupPath {folder : Path} (h : Unstamped n folder) {m : Nat} (hm : m ≠ n)
    (path : Text) : Unstamped n (Repair.backupPath folder path m) :=
  h.append fun name hname path' he => by
    obtain rfl := List.mem_singleton.mp hname
    exact hm (stamp_eq_of_plain_eq he)

/-- Nothing with the name of a backup is at the end of a path without such names, if no link leads
through one. -/
theorem Unstamped.locate_ne {p : Path} (h : Unstamped n p) (hl : UnstampedLinks t n)
    (ha : p.isAbsolute = true) {purpose : Tree.Purpose} {l : Location}
    (hp : t.locate purpose p = .ok l) (folder : Location) (path : Text) :
    l ≠ folder ++ [Name.plain (backupName path n)] := by
  rintro rfl
  exact Tree.locate_names hl ha h hp _
    (List.mem_append_right folder (List.mem_singleton_self _)) path rfl

/-- **Changes along paths without the name of a backup leave what has such a name alone.** -/
theorem Account.get?_backupName {cs : List Change} (h : Account t cs t') (hl : UnstampedLinks t' n)
    (hc : ∀ c ∈ cs, c.path.isAbsolute = true ∧ Unstamped n c.path) (folder : Location)
    (path : Text) :
    t'.get? (folder ++ [Name.plain (backupName path n)]) =
      t.get? (folder ++ [Name.plain (backupName path n)]) := by
  rcases h.entry (folder ++ [Name.plain (backupName path n)]) with he | ⟨-, -, c, hcm, hm⟩
  · rw [he]
    refine Tree.replay_eq_self fun c hcm x hx hland => ?_
    obtain ⟨ha, hu⟩ := hc c hcm
    rw [Change.path_of_file? hx] at ha hu
    exact hu.locate_ne hl ha (Tree.landing_eq_some.mp hland) folder path rfl
  · obtain ⟨p, rfl, way, hw, hloc⟩ := hm
    obtain ⟨ha, hu⟩ := hc _ hcm
    have hway : Unstamped n ⟨p.anchor, way⟩ := fun name hn => hu name (hw.subset hn)
    exact absurd rfl (hway.locate_ne hl ha hloc folder path)

theorem Free.account {cs : List Change} (hf : Free t n) (h : Account t cs t')
    (hl : UnstampedLinks t' n)
    (hc : ∀ c ∈ cs, c.path.isAbsolute = true ∧ Unstamped n c.path) : Free t' n := by
  intro folder path
  rw [Account.get?_backupName h hl hc, hf]

/-- A name that does not end like a backup's is the name of no backup. -/
theorem plain_ne_of_not_suffix {name : Text}
    (h : ¬ Name.bytes ".backup" <:+ Name.bytes name) (path : Text) (n : Nat) :
    Name.plain name ≠ Name.plain (backupName path n) := by
  intro he
  have hb := Name.bytes_eq_of_plain_eq he
  rw [bytes_backupName] at hb
  exact h ⟨_, hb.symm⟩

/-- Paths none of whose names end like a backup's have no stamp. -/
theorem unstamped_of_not_suffix {p : Path}
    (h : ∀ name ∈ p.parts, ¬ Name.bytes ".backup" <:+ Name.bytes name) (n : Nat) : Unstamped n p :=
  fun name hn path => plain_ne_of_not_suffix (h name hn) path n

theorem free_of_not_suffix
    (h : ∀ x ∈ t.entries, ∀ name ∈ x.1, ¬ Name.bytes ".backup" <:+ Name.bytes name) (n : Nat) :
    Free t n := by
  intro folder path
  cases he : t.get? (folder ++ [Name.plain (backupName path n)]) with
  | none => rfl
  | some e =>
    have hm := Tree.mem_entries_of_get? (by simp) he
    have hs : Name.bytes ".backup" <:+ Name.bytes (Name.plain (backupName path n)) := by
      rw [Name.bytes_plain, bytes_backupName]
      exact List.suffix_append _ _
    exact absurd hs (h _ hm _ (List.mem_append_right folder (List.mem_singleton_self _)))

section
variable {folder : Path} {at' : Location} (hat : t.status folder = .ok (at', .folder))

include hat in
theorem locate_backupPath {path : Text}
    (hl : ∀ target, t.get? (at' ++ [Name.plain (backupName path n)]) ≠ some (.link target))
    {purpose : Tree.Purpose} {k : Location}
    (hk : t.locate purpose (Repair.backupPath folder path n) = .ok k) :
    k = at' ++ [Name.plain (backupName path n)] := by
  refine Tree.locate_append hat (List.cons_ne_nil _ _) (by simpa using isStep_backupName path n)
    (fun way hway hne => ?_) hk
  obtain rfl : way = [backupName path n] :=
    (List.prefix_cons_iff.mp hway).elim (absurd · hne) fun ⟨_, he, hnil⟩ =>
      he.trans (congrArg _ (List.prefix_nil.mp hnil))
  exact hl

include hat in
/-- Without links a copy for a backup is where the backup's name says, or in a directory there under
the name of its source. -/
theorem locate_copyPath (hl : NoLinks t) {source : Path} (hname : IsStep source.name) {t' : Tree}
    {path : Text} {k : Location}
    (hk : t.locate .writing (t'.copyPath source (Repair.backupPath folder path n)) = .ok k) :
    k = at' ++ [Name.plain (backupName path n)] ∨
      k = at' ++ [Name.plain (backupName path n)] ++ [Name.plain source.name] := by
  unfold Tree.copyPath at hk
  split at hk
  · rw [Repair.backupPath, Path.append, List.append_assoc] at hk
    have hway : k = at' ++ [backupName path n, source.name].map Name.plain :=
      Tree.locate_append hat (List.cons_ne_nil _ _)
        (by simpa using ⟨isStep_backupName path n, hname⟩) (hl.clearWay at' _) hk
    exact .inr (by simpa using hway)
  · exact .inl (locate_backupPath hat (hl _) hk)

include hat in
theorem locate_backupPath_of_free (hf : Free t n) {path : Text} {purpose : Tree.Purpose}
    {k : Location} (hk : t.locate purpose (Repair.backupPath folder path n) = .ok k) :
    k = at' ++ [Name.plain (backupName path n)] :=
  locate_backupPath hat (fun _ => by rw [hf at' path]; exact nofun) hk

include hat in
theorem leadsToFolder_of_free (hf : Free t n) (hp : folder.Proper) (ha : folder.isAbsolute = true)
    (path : Text) : t.leadsToFolder (Repair.backupPath folder path n).toText = false := by
  rw [Bool.eq_false_iff, Ne, Tree.leadsToFolder_toText (Repair.backupPath_proper hp path n) ha]
  rintro ⟨l, hst⟩
  obtain ⟨hloc, hget⟩ := Tree.status_eq_ok.mp hst
  rw [locate_backupPath_of_free hat hf hloc, hf at' path] at hget
  cases hget

include hat in
/-- While its stamp is free a backup takes the path that is meant for it. -/
theorem copyPath_of_free (hf : Free t n) (hp : folder.Proper) (ha : folder.isAbsolute = true)
    (source : Path) (path : Text) :
    t.copyPath source (Repair.backupPath folder path n) = Repair.backupPath folder path n := by
  unfold Tree.copyPath
  rw [leadsToFolder_of_free hat hf hp ha path]
  exact if_neg Bool.false_ne_true

end

end

end PackageAudit
