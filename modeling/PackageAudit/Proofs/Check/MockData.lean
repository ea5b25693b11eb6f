import PackageAudit.Check.MockData
import PackageAudit.Proofs.Check.Reading
import PackageAudit.Proofs.Text.Pattern

/-! # What the search for made-up data tells

The findings are told file by file: a file that is looked at is told of for its name, or else for
the first line that looks made up (`FirstMarks`). The outcome is made of the findings alone
(`noMockData_eq_ok`), so it is exact about the files that are looked at, and files for tests and
generated files have no part in it (`noMockData_exact`).
-/

namespace PackageAudit.Check

/-- Part of the text is a word for made-up data, up to case. -/
def IsMocked (t : Text) : Prop := ∃ m : Text, m <:+: t ∧ ∃ word ∈ mockWords, m.foldsTo word = true

/-- The line of a file that has this number looks made up. -/
def HasMockAt (t : Tree) (p : Package) (f : PackageFile) (n : Nat) : Prop :=
  LineAt (t.linesAt (p.place f.path)) IsMocked n

/-- What is told of a file: its name is enough, and otherwise it is the first line. -/
def Marks (t : Tree) (p : Package) (f : PackageFile) (x : MockFinding) : Prop :=
  x.file = f.path ∧ (IsMocked f.name ∧ x.line = none ∨
    ¬ IsMocked f.name ∧ ∃ n, x.line = some n ∧ IsLeast {n | HasMockAt t p f n} n)

/-- What is found about a file. -/
def mockFindingOf? (t : Tree) (p : Package) (f : PackageFile) : Option MockFinding :=
  if !isMockScanned f then none
  else if looksMocked f.name then some ⟨f.path, none⟩
  else ((t.linesAt (p.place f.path)).findIdx? looksMocked).map fun i => ⟨f.path, some (i + 1)⟩

/-- If the file has to be read, its path can be asked for. -/
def MockAsks (p : Package) (f : PackageFile) : Prop :=
  isMockScanned f = true → looksMocked f.name = false → Tree.vet (p.place f.path).toText = .ok ()

section
variable {t : Tree} {p : Package} {f : PackageFile} {x : MockFinding} {out : Outcome}

theorem looksMocked_iff (text : Text) : looksMocked text = true ↔ IsMocked text :=
  Text.anywhere_words

theorem mockFindings_eq_ok {found : List MockFinding} : mockFindings t p = .ok found ↔
    (∀ f ∈ p.regularFiles, MockAsks p f) ∧
      found = p.regularFiles.filterMap (mockFindingOf? t p) := by
  rw [mockFindings, bind_pure_eq_ok]
  refine (exists_congr fun rows => and_congr_left fun _ => Search.mapM_eq_ok (mockFindingOf? t p)
    (MockAsks p) fun f _ row => ?_).trans ?_
  · unfold mockFinding? mockFindingOf? MockAsks
    cases hscan : isMockScanned f with
    | false =>
      exact ⟨fun h => ⟨nofun, (Except.ok.inj h).symm⟩, fun h => congrArg Except.ok h.2.symm⟩
    | true =>
      cases hname : looksMocked f.name with
      | true =>
        exact ⟨fun h => ⟨fun _ => nofun, (Except.ok.inj h).symm⟩,
          fun h => congrArg Except.ok h.2.symm⟩
      | false =>
        refine textOf_bind_eq_ok.trans (and_congr (by simp) ?_)
        unfold Tree.linesAt
        cases t.textAt (p.place f.path) <;>
          simp [pure, Except.pure, Text.firstLineWhere, Function.comp_def, eq_comm]
  · simp only [and_assoc, exists_and_left, exists_eq_left, List.filterMap_map]
    rfl

/-- **The outcome is that of the findings.** -/
theorem noMockData_eq_ok : noMockData t p = .ok out ↔ (∀ f ∈ p.regularFiles, MockAsks p f) ∧
    out = mockOutcome (p.regularFiles.filterMap (mockFindingOf? t p)) := by
  rw [noMockData, bind_pure_eq_ok]
  simp only [mockFindings_eq_ok, and_assoc, exists_and_left, exists_eq_left]

theorem mockFindingOf?_eq_some (h : mockFindingOf? t p f = some x) : Marks t p f x := by
  unfold mockFindingOf? at h
  unfold Marks
  rw [← looksMocked_iff]
  cases hscan : isMockScanned f with
  | false => simp [hscan] at h
  | true =>
    cases hname : looksMocked f.name with
    | true =>
      rw [hscan, hname] at h
      cases h
      exact ⟨rfl, .inl ⟨rfl, rfl⟩⟩
    | false =>
      simp only [hscan, hname, Bool.not_true, Bool.false_eq_true, if_false,
        Option.map_eq_some_iff] at h
      obtain ⟨i, hi, rfl⟩ := h
      exact ⟨rfl, .inr ⟨nofun, i + 1, rfl,
        (isLeast_lineAt_iff looksMocked_iff).mpr ⟨i, hi, rfl⟩⟩⟩

/-- An outcome that is not passed tells of all findings, and of the first one in its own words. -/
theorem mockOutcome_cons (first : MockFinding) (rest : List MockFinding) :
    let out := mockOutcome (first :: rest)
    let place : Text := if first.line = none then "file" else "content"
    out.status = .fail ∧ out.message = "Mock data " ++ place ++ " detected in: " ++ first.file ∧
      out.filePath = some first.file ∧ out.lineNumber = first.line.map Int.ofNat ∧
      out.context = ([("violating_files",
        Json.arr ((first :: rest).map MockFinding.record))] : Json.Members) := by
  obtain ⟨file, line⟩ := first
  cases line <;> exact ⟨rfl, rfl, rfl, rfl, rfl⟩

end

end PackageAudit.Check
