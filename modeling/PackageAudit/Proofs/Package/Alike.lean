import PackageAudit.Proofs.Package.Depth
import PackageAudit.Proofs.Package.Describe
import PackageAudit.Proofs.Tree.Outline

/-! # Descriptions of the same files

What the files of a package hold shows in their sizes and numbers of lines only: in trees with the
same outline a directory is described with files that are the same otherwise (`alike_of_describe`).
-/

namespace PackageAudit

open PackageAudit.Tree (SameOutline)

/-- The record of a file without its numbers. -/
def PackageFile.uncounted (f : PackageFile) : PackageFile := { f with size := 0, lineCount := none }

/-- Two descriptions are of the same files in the same place, with other sizes and line counts. -/
structure Package.Alike (p p' : Package) : Prop where
  path : p'.path = p.path
  files : p'.files.map PackageFile.uncounted = p.files.map PackageFile.uncounted

theorem Package.Alike.refl (p : Package) : Alike p p := ⟨rfl, rfl⟩

theorem Package.Alike.regularFiles {p p' : Package} (h : Alike p p') :
    p'.regularFiles.map PackageFile.uncounted = p.regularFiles.map PackageFile.uncounted := by
  have hfilter (p : Package) : p.regularFiles.map PackageFile.uncounted =
      (p.files.map PackageFile.uncounted).filter fun f => !f.isFolder := by
    rw [List.filter_map]
    rfl
  rw [hfilter, hfilter, h.files]

namespace Listing

/-! ## Walks through trees with the same outline -/

section
variable {w w' : Walk}

/-- A walk without the numbers of its files. -/
def Walk.uncounted (w : Walk) : Walk := ⟨w.listed.map PackageFile.uncounted, w.entered⟩

theorem Walk.entered_eq (hw : w'.uncounted = w.uncounted) : w'.entered = w.entered :=
  (Walk.mk.inj hw).2

theorem Walk.list_alike {f f' : PackageFile} (hf : f'.uncounted = f.uncounted)
    (hw : w'.uncounted = w.uncounted) : { w' with listed := f' :: w'.listed }.uncounted =
      { w with listed := f :: w.listed }.uncounted := by
  unfold uncounted at hw ⊢
  rw [Walk.mk.injEq] at hw ⊢
  exact ⟨by rw [List.map_cons, List.map_cons, hf, hw.1], hw.2⟩

end

/-- Two runs from alike walks end alike, or with the same fault. -/
def RunAlike (run run' : Walk → Except FileFault Walk) : Prop :=
  ∀ w w', w'.uncounted = w.uncounted → (run' w').map Walk.uncounted = (run w).map Walk.uncounted

/-- What is below directories is listed alike. -/
abbrev DescentAlike : Descent → Descent → Prop :=
  Option.Rel fun below below' => ∀ way, RunAlike (below way) (below' way)

theorem RunAlike.foldlM {α : Type} {visit visit' : Walk → α → Except FileFault Walk} {as : List α}
    (h : ∀ a ∈ as, RunAlike (visit · a) (visit' · a)) :
    RunAlike (as.foldlM visit ·) (as.foldlM visit' ·) := by
  induction as with
  | nil => exact fun _ _ hw => congrArg Except.ok hw
  | cons a as ih =>
    intro w w' hw
    obtain ⟨hfirst, hrest⟩ := List.forall_mem_cons.mp h
    have ha : (visit' w' a).map Walk.uncounted = (visit w a).map Walk.uncounted := hfirst w w' hw
    simp only [List.foldlM_cons]
    cases hr : visit w a with
    | error f =>
      rw [hr] at ha
      cases hr' : visit' w' a with
      | error f' =>
        rw [hr'] at ha
        exact congrArg Except.error (Except.error.inj ha)
      | ok v' =>
        rw [hr'] at ha
        cases ha
    | ok v =>
      rw [hr] at ha
      cases hr' : visit' w' a with
      | error f' =>
        rw [hr'] at ha
        cases ha
      | ok v' =>
        rw [hr'] at ha
        exact ih hrest v v' (Except.ok.inj ha)

section
variable {t t' : Tree} {s : Settings} {o : SearchOptions} {root : Path} {d d' : Descent}
  {folder place : Location} {name : Text}

theorem enter_alike (h : SameOutline t t') (hd : DescentAlike d d') (way : Location) (p : Path) :
    RunAlike (enter t d way p) (enter t' d' way p) := by
  intro w w' hw
  have hentered := Walk.entered_eq hw
  cases hd with
  | none => exact congrArg Except.ok hw
  | some hbelow =>
    unfold enter
    rw [h.resolve_eq]
    cases t.resolve p with
    | error f => rfl
    | ok q =>
      simp only [hentered]
      split
      · exact congrArg Except.ok hw
      · exact hbelow way _ _ (congrArg (fun v : Walk => (⟨v.listed, q :: w.entered⟩ : Walk)) hw)

theorem looksAt_alike (h : SameOutline t t') (folder : Location) (name : Text) :
    LooksAt t' s o root folder name ↔ LooksAt t s o root folder name := by
  refine exists_congr fun place => and_congr h.status_folder_iff ?_
  simp only [h.names, Ne, ← h.grows.link]

theorem visitEntry_alike (h : SameOutline t t') (hd : DescentAlike d d')
    (hst : t.status (root.append folder) = .ok (place, .folder)) (hname : name ∈ t.names place) :
    RunAlike (visitEntry t s o root d folder place · name)
      (visitEntry t' s o root d' folder place · name) := by
  intro w w' hw
  have hst' := h.status_folder_iff.mpr hst
  by_cases hlook : LooksAt t s o root folder name
  · simp only [visitEntry_of_looked hlook hst,
      visitEntry_of_looked ((looksAt_alike h folder name).mpr hlook) hst']
    split
    · rfl
    · rcases h.status_cases (root.append (folder ++ [name])) with heq | ⟨l, _, _, hfile, hfile'⟩
      · rw [heq]
        split
        · rfl
        · exact congrArg Except.ok hw
        · exact congrArg Except.ok hw
        · exact congrArg Except.ok (Walk.list_alike rfl hw)
        · split
          · exact congrArg Except.ok hw
          · exact enter_alike h hd _ _ _ _ (Walk.list_alike rfl hw)
      · rw [hfile, hfile']
        exact congrArg Except.ok (Walk.list_alike rfl hw)
  · simp only [visitEntry_of_skipped hst hname hlook, visitEntry_of_skipped hst'
      (h.names place ▸ hname) (mt (looksAt_alike h folder name).mp hlook)]
    split
    · rfl
    · exact congrArg Except.ok hw

theorem visitFolder_alike (h : SameOutline t t') (hd : DescentAlike d d') (folder : Location) :
    RunAlike (visitFolder t s o root d folder) (visitFolder t' s o root d' folder) := by
  intro w w' hw
  unfold visitFolder
  rcases h.status_cases (root.append folder) with heq | ⟨l, _, _, hfile, hfile'⟩
  · rw [heq]
    split
    · next place hst =>
      rw [h.names]
      exact RunAlike.foldlM (fun name hname => visitEntry_alike h hd hst hname) w w' hw
    · exact congrArg Except.ok hw
  · rw [hfile, hfile']
    exact congrArg Except.ok hw

theorem visit_alike (h : SameOutline t t') (levels : Nat) (folder : Location) :
    RunAlike (visit t s o root levels folder) (visit t' s o root levels folder) := by
  induction levels generalizing folder with
  | zero => exact visitFolder_alike h .none folder
  | succ levels ih => exact visitFolder_alike h (.some ih) folder

end

end Listing

/-- **In a tree with the same outline a package has the same files**, but with other sizes and line
counts. -/
theorem alike_of_describe {t t' : Tree} {s : Settings} {o : SearchOptions} {path : Text}
    {p p' : Package} (h : SameOutline t t') (hp : describe t s path o = .ok p)
    (hp' : describe t' s path o = .ok p') : p.Alike p' := by
  obtain ⟨root, hroot, hat⟩ := describe_eq_ok.mp hp
  obtain ⟨root', hroot', hat'⟩ := describe_eq_ok.mp hp'
  rw [h.resolve_eq, hroot] at hroot'
  cases hroot'
  obtain ⟨-, -, ms, files, -, hfiles, rfl⟩ := describeAt_eq_ok.mp hat
  obtain ⟨-, -, ms', files', -, hfiles', rfl⟩ := describeAt_eq_ok.mp hat'
  have huncounted {run : Except FileFault Listing.Walk} {files : List PackageFile}
      (hrun : run.map (·.listed.reverse) = .ok files) :
      (run.map Listing.Walk.uncounted).map (·.listed.reverse) =
        .ok (files.map PackageFile.uncounted) := by
    cases run with
    | error f => cases hrun
    | ok w =>
      cases hrun
      exact congrArg Except.ok List.map_reverse.symm
  have hmap := huncounted hfiles'
  rw [Listing.visit_alike h o.maxDepth.toNat [] ⟨[], [root]⟩ _ rfl, huncounted hfiles] at hmap
  exact ⟨rfl, (Except.ok.inj hmap).symm⟩

end PackageAudit
