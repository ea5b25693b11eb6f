import PackageAudit.Proofs.Check.Builtin
import PackageAudit.Proofs.Text.Split

/-! # Which test directory decides

A file is below a directory if its names go on behind those of the directory (`IsBelow`). The check
looks for such files at the first test directory that is listed and nowhere else (`status_iff`), so
it tells about all test directories unless that one has no files and another one has some
(`looksAtAll_iff`), and an empty directory may take away that it is passed (`Adds.status_ne_iff`).
-/

namespace PackageAudit.Check

/-- A path leads somewhere below a directory. -/
def IsBelow (folder path : Text) : Prop :=
  ∃ names, names ≠ [] ∧ path.split Path.slash = folder.split Path.slash ++ names

/-- There is a regular file somewhere below the directory. -/
def IsFilled (p : Package) (folder : Text) : Prop := ∃ f ∈ p.regularFiles, IsBelow folder f.path

/-- The directory is the first test directory that is listed. -/
def IsDecisive (p : Package) (folder : Text) : Prop :=
  testFolders.find? p.hasFolder = some folder

/-- The conventional names of test directories. -/
def conventional : List Text := ["tests", "test", "__tests__", "src/__tests__"]

/-- The outcome is about all test directories: the check is passed if one that is listed has files,
partly passed if some are listed and none of them has files, and failed if none is listed. -/
def LooksAtAll (p : Package) : Prop :=
  ((testFolderFilled p).status = .pass ↔
    ∃ folder ∈ conventional, p.hasFolder folder = true ∧ IsFilled p folder) ∧
  ((testFolderFilled p).status = .partly ↔
    (∃ folder ∈ conventional, p.hasFolder folder = true) ∧
      ∀ folder ∈ conventional, p.hasFolder folder = true → ¬ IsFilled p folder) ∧
  ((testFolderFilled p).status = .fail ↔ ∀ folder ∈ conventional, p.hasFolder folder = false)

section
variable {p : Package} {folder path : Text}

/-! ## Files below a directory -/

theorem startsWith_iff_isBelow :
    path.startsWith (folder ++ "/") = true ↔ IsBelow folder path := by
  rw [Text.startsWith, List.isPrefixOf_iff_prefix]
  constructor
  · rintro ⟨rest, rfl⟩
    refine ⟨Text.split Path.slash rest, Text.split_ne_nil _ rest, ?_⟩
    rw [List.append_assoc]
    exact Text.split_append_sep folder rest
  · rintro ⟨names, hne, hsplit⟩
    obtain ⟨a, b, rfl, ha, -⟩ :=
      (Text.split_eq_append_iff (Text.split_ne_nil _ folder) hne).mp hsplit
    have hfolder : a = folder := by
      rw [← Text.join_split Path.slash a, ha, Text.join_split]
    exact ⟨b, by simp [hfolder, Path.slash, Text.ofString]⟩

theorem countP_startsWith_eq_zero : (p.regularFiles.countP fun f =>
    f.path.startsWith (folder ++ "/")) = 0 ↔ ¬ IsFilled p folder := by
  simp only [List.countP_eq_zero, startsWith_iff_isBelow, IsFilled, not_exists, not_and]

/-! ## The first directory -/

theorem status_of_none (h : testFolders.find? p.hasFolder = none) :
    (testFolderFilled p).status = .fail := by
  rw [testFolderFilled, h]
  rfl

theorem status_of_isDecisive (h : IsDecisive p folder) :
    (testFolderFilled p).status = .pass ∧ IsFilled p folder ∨
      (testFolderFilled p).status = .partly ∧ ¬ IsFilled p folder := by
  rw [← countP_startsWith_eq_zero, testFolderFilled, h]
  simp only
  split
  · next hzero => exact .inr ⟨rfl, hzero⟩
  · next hne => exact .inl ⟨rfl, Classical.not_not.mp (mt countP_startsWith_eq_zero.mpr hne)⟩

theorem IsDecisive.listed (h : IsDecisive p folder) :
    folder ∈ conventional ∧ p.hasFolder folder = true :=
  ⟨List.mem_of_find?_eq_some h, List.find?_some h⟩

theorem IsDecisive.unique {other : Text} (h : IsDecisive p folder) (h' : IsDecisive p other) :
    folder = other :=
  Option.some.inj (h.symm.trans h')

theorem exists_isDecisive (hmem : folder ∈ conventional) (h : p.hasFolder folder = true) :
    ∃ first, IsDecisive p first :=
  Option.isSome_iff_exists.mp (List.find?_isSome.mpr ⟨folder, hmem, h⟩)

/-- **The first test directory that is listed decides.** -/
theorem status_iff (p : Package) :
    ((testFolderFilled p).status = .pass ↔ ∃ folder, IsDecisive p folder ∧ IsFilled p folder) ∧
    ((testFolderFilled p).status = .partly ↔ ∃ folder, IsDecisive p folder ∧ ¬ IsFilled p folder) ∧
    ((testFolderFilled p).status = .fail ↔ ∀ folder ∈ testFolders, p.hasFolder folder = false) := by
  have hnone : testFolders.find? p.hasFolder = none ↔
      ∀ folder ∈ testFolders, p.hasFolder folder = false := by simp
  rw [← hnone]
  unfold IsDecisive
  cases h : testFolders.find? p.hasFolder with
  | none => simp [status_of_none h]
  | some folder =>
    rcases status_of_isDecisive h with ⟨hstatus, hfilled⟩ | ⟨hstatus, hfilled⟩ <;>
      simp [hstatus, hfilled]

/-! ## Another directory -/

theorem find?_or_beq {α : Type} [BEq α] [LawfulBEq α] (q : α → Bool) (a : α) (xs : List α) :
    xs.find? (fun x => q x || x == a) =
      if a ∈ xs.takeWhile (fun x => !q x) then some a else xs.find? q := by
  induction xs with
  | nil => rfl
  | cons x xs ih =>
    cases hx : q x with
    | true => simp [hx]
    | false =>
      have hskip : (x :: xs).find? q = xs.find? q := List.find?_cons_of_neg (by simp [hx])
      rw [List.takeWhile_cons_of_pos (by simp [hx]), hskip]
      by_cases ha : x = a
      · rw [List.find?_cons_of_pos (by simp [ha]), if_pos (by simp [ha]), ha]
      · rw [List.find?_cons_of_neg (by simp [hx, ha]), ih]
        simp [Ne.symm ha]

/-- One package lists one more directory than another. -/
def Adds (p p' : Package) (g : PackageFile) : Prop :=
  ∃ front back, p.files = front ++ back ∧ p'.files = front ++ g :: back ∧ g.isFolder = true

/-- The test directories in front of the first one that is listed. -/
def earlier (p : Package) : List Text := testFolders.takeWhile fun folder => !p.hasFolder folder

section
variable {p' : Package} {g : PackageFile}

theorem Adds.isFilled_iff (h : Adds p p' g) : IsFilled p' folder ↔ IsFilled p folder := by
  obtain ⟨front, back, hp, hp', hg⟩ := h
  have hregular : p'.regularFiles = p.regularFiles := by simp [Package.regularFiles, hp, hp', hg]
  rw [IsFilled, IsFilled, hregular]

theorem Adds.hasFolder_eq (h : Adds p p' g) :
    p'.hasFolder = fun folder => p.hasFolder folder || folder == g.path := by
  obtain ⟨front, back, hp, hp', hg⟩ := h
  funext folder
  simp only [Package.hasFolder, hp, hp', List.any_append, List.any_cons, hg, Bool.and_true]
  rw [Bool.or_left_comm, Bool.or_comm, BEq.comm (a := folder)]

/-- An empty directory takes away that the check is passed if and only if it is a test directory in
front of the first one. -/
theorem Adds.status_ne_iff (h : Adds p p' g) (hempty : ¬ IsFilled p g.path)
    (hpass : (testFolderFilled p).status = .pass) :
    (testFolderFilled p').status ≠ .pass ↔ g.path ∈ earlier p := by
  have hfind : testFolders.find? p'.hasFolder =
      if g.path ∈ earlier p then some g.path else testFolders.find? p.hasFolder := by
    rw [h.hasFolder_eq]
    exact find?_or_beq p.hasFolder g.path testFolders
  have hiff := (status_iff p').1
  simp only [h.isFilled_iff, IsDecisive, hfind] at hiff
  rw [Ne, hiff]
  by_cases hearlier : g.path ∈ earlier p
  · simp [hearlier, hempty]
  · simpa [hearlier, IsDecisive] using (status_iff p).1.mp hpass

end

/-! ## All directories -/

/-- The first test directory that is listed has no files, but another one has. -/
def IsShadowed (p : Package) : Prop :=
  ∃ folder other, IsDecisive p folder ∧ ¬ IsFilled p folder ∧ other ∈ conventional ∧
    p.hasFolder other = true ∧ IsFilled p other

theorem looksAtAll_iff (p : Package) : LooksAtAll p ↔ ¬ IsShadowed p := by
  obtain ⟨hpass, hpartly, hfail⟩ := status_iff p
  constructor
  · rintro ⟨hall, -, -⟩ ⟨folder, other, hfirst, hempty, hmem, hlisted, hfilled⟩
    obtain ⟨first, hfirst', hfilled'⟩ := hpass.mp (hall.mpr ⟨other, hmem, hlisted, hfilled⟩)
    exact hempty (hfirst.unique hfirst' ▸ hfilled')
  · intro hnot
    -- the first directory is as good as any other
    have hfilled {first other : Text} (hfirst : IsDecisive p first) (hmem : other ∈ conventional)
        (hlisted : p.hasFolder other = true) (h : IsFilled p other) : IsFilled p first :=
      Classical.byContradiction fun hempty =>
        hnot ⟨first, other, hfirst, hempty, hmem, hlisted, h⟩
    refine ⟨hpass.trans ⟨?_, ?_⟩, hpartly.trans ⟨?_, ?_⟩, hfail⟩
    · rintro ⟨first, hfirst, h⟩
      exact ⟨first, hfirst.listed.1, hfirst.listed.2, h⟩
    · rintro ⟨other, hmem, hlisted, h⟩
      obtain ⟨first, hfirst⟩ := exists_isDecisive hmem hlisted
      exact ⟨first, hfirst, hfilled hfirst hmem hlisted h⟩
    · rintro ⟨first, hfirst, hempty⟩
      exact ⟨⟨first, hfirst.listed⟩, fun other hmem hlisted h =>
        hempty (hfilled hfirst hmem hlisted h)⟩
    · rintro ⟨⟨other, hmem, hlisted⟩, hall⟩
      obtain ⟨first, hfirst⟩ := exists_isDecisive hmem hlisted
      exact ⟨first, hfirst, hall first hfirst.listed.1 hfirst.listed.2⟩

/-- **What the check tells about the test directories**: it goes by the first one that is listed,
which is the same as looking at all of them unless that one has no files and another one has some.
In front of the one that made the check pass, an empty test directory makes it pass no more. -/
theorem testFolders_decided (p : Package) :
    (((testFolderFilled p).status = .pass ↔ ∃ folder, IsDecisive p folder ∧ IsFilled p folder) ∧
      ((testFolderFilled p).status = .partly ↔
        ∃ folder, IsDecisive p folder ∧ ¬ IsFilled p folder) ∧
      ((testFolderFilled p).status = .fail ↔
        ∀ folder ∈ conventional, p.hasFolder folder = false)) ∧
    (LooksAtAll p ↔ ¬ IsShadowed p) ∧
    ∀ p' g, Adds p p' g → ¬ IsFilled p g.path → (testFolderFilled p).status = .pass →
      ((testFolderFilled p').status ≠ .pass ↔ g.path ∈ earlier p) :=
  ⟨status_iff p, looksAtAll_iff p, fun _ _ hadds => hadds.status_ne_iff⟩

end

/-- A package whose tests are below its sources. -/
def testedPackage (files : List PackageFile) : Package :=
  ⟨"m", "m", "/m", .utility, "0.0.0", [], [], ⟨"src", true, 0, none, false⟩ ::
    ⟨"src/__tests__", true, 0, none, false⟩ ::
    ⟨"src/__tests__/index.test.ts", false, 1, some 1, false⟩ :: files, 0⟩

/-- An empty directory that tests are usually in. -/
def emptyFolder : PackageFile := ⟨"tests", true, 0, none, false⟩

/-- The empty directory takes away that the check is passed, and hides the tests from it. -/
theorem testFolders_shadowed : (testFolderFilled (testedPackage [])).status = .pass ∧
    (testFolderFilled (testedPackage [emptyFolder])).status ≠ .pass ∧
    ¬ LooksAtAll (testedPackage [emptyFolder]) := by
  obtain ⟨-, -, hadd⟩ := testFolders_decided (testedPackage [])
  obtain ⟨-, hall, -⟩ := testFolders_decided (testedPackage [emptyFolder])
  have hadds : Adds (testedPackage []) (testedPackage [emptyFolder]) emptyFolder :=
    ⟨(testedPackage []).files, [], rfl, rfl, rfl⟩
  have hempty (files : List PackageFile) (h : files = [] ∨ files = [emptyFolder]) :
      ¬ IsFilled (testedPackage files) "tests" := by
    rcases h with rfl | rfl <;> exact countP_startsWith_eq_zero.mp (by decide)
  have hfilled : IsFilled (testedPackage [emptyFolder]) "src/__tests__" :=
    ⟨_, List.mem_cons_self, ["index.test.ts"], List.cons_ne_nil _ _, by decide⟩
  have hpass : (testFolderFilled (testedPackage [])).status = .pass := by decide
  refine ⟨hpass, (hadd _ _ hadds (hempty [] (.inl rfl)) hpass).mpr (by decide), fun h => ?_⟩
  exact hall.mp h ⟨"tests", "src/__tests__", by unfold IsDecisive; decide, hempty _ (.inr rfl),
    by decide, by decide, hfilled⟩

end PackageAudit.Check
