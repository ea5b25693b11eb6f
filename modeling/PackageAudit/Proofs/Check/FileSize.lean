import PackageAudit.Check.Layout
import PackageAudit.Proofs.Check.Reading
import PackageAudit.Proofs.Package.Walk

/-! # Which files are too long

The check of file sizes reads nothing: the numbers of lines are those of the description. A regular
file of a described package has the record that its bytes give it (`of_describe`), so the check is
as exact as the counting: files that are too large to be counted and files with a zero byte near
their beginning are never too long, all other source files are told of exactly if they have more
lines than allowed (`filesSmallEnough_exact`).
-/

namespace PackageAudit

open PackageAudit.Tree (Sound Named)

namespace Listing

section
variable {t : Tree} {s : Settings} {o : SearchOptions} {root : Path} {folder way : Location}
  {name : Text} {f : PackageFile} {files : List PackageFile} {entered : List Path}
  {bytes : List UInt8}

/-! ## Counting lines -/

/-- Line feeds, and one more for an unfinished last line. -/
def lineTotal (bytes : List UInt8) : Nat :=
  bytes.count 10 + if bytes = [] ∨ bytes.getLast? = some 10 then 0 else 1

/-- The bytes are not too many, and none of the first ones is zero. -/
def IsCounted (bytes : List UInt8) : Prop := bytes.length ≤ maxCountedBytes ∧ 0 ∉ bytes.take 1024

instance (bytes : List UInt8) : Decidable (IsCounted bytes) := inferInstanceAs (Decidable (_ ∧ _))

theorem countLines_eq (bytes : List UInt8) :
    countLines bytes = if IsCounted bytes then some (lineTotal bytes : Int) else none := by
  unfold countLines IsCounted lineTotal
  by_cases hlarge : maxCountedBytes < bytes.length
  · simp [hlarge, Nat.not_le.mpr hlarge]
  · by_cases hzero : 0 ∈ bytes.take 1024
    · simp [hlarge, hzero]
    · by_cases hnil : bytes = []
      · subst hnil
        rfl
      · simp [hlarge, hzero, hnil, Nat.le_of_not_lt hlarge]

/-! ## Records of regular files -/

theorem Notes.vetted (hn : Named t) (h : Notes t s o root way name f) : Tree.vet name = .ok () := by
  obtain ⟨place, -, hname, -⟩ := h.looksAt
  exact (hn.of_get? (Tree.mem_names.mp hname) name (by simp)).2.2

theorem Open.vetted (hn : Named t) (hfolder : ∀ x ∈ folder, Tree.vet x = .ok ())
    (h : Open t s o root entered files folder way) : ∀ x ∈ way, Tree.vet x = .ok () := by
  induction h with
  | here => exact hfolder
  | into hnotes _ _ ih =>
    obtain ⟨f, hf, -⟩ := hnotes
    exact ih (List.forall_mem_append.mpr ⟨hfolder, List.forall_mem_singleton.mpr (hf.vetted hn)⟩)

end

end Listing

section
variable {t : Tree} {s : Settings} {o : SearchOptions} {path : Text} {p : Package} {f : PackageFile}

/-- **A regular file of a described package can be read, and its record is that of its bytes.** -/
theorem regularFile_of_describe (hs : Sound t) (hn : Named t) (h : describe t s path o = .ok p)
    (hf : f ∈ p.regularFiles) : ∃ bytes, t.read (p.place f.path) = .ok bytes ∧
      f = Listing.fileRecord o f.path bytes := by
  obtain ⟨root, hroot, hat⟩ := describe_eq_ok.mp h
  obtain ⟨-, -, ms, files, -, hfiles, rfl⟩ := describeAt_eq_ok.mp hat
  obtain ⟨habsolute, hsteps⟩ := Tree.resolve_steps hs hroot
  have hproper : root.Proper := fun name hname => (hsteps name hname).1
  obtain ⟨hmem, hregular⟩ := List.mem_filter.mp hf
  obtain ⟨way, name, hopen, hnotes⟩ := ((Listing.of_listing hn hfiles).2 f).mp hmem
  have hparts : ∀ x ∈ way ++ [name], Path.IsPart x := List.forall_mem_append.mpr
    ⟨hopen.isPart hn (List.forall_mem_nil _), List.forall_mem_singleton.mpr (hnotes.isPart hn)⟩
  have hvetted : ∀ x ∈ way ++ [name], Tree.vet x = .ok () := List.forall_mem_append.mpr
    ⟨hopen.vetted hn (List.forall_mem_nil _), List.forall_mem_singleton.mpr (hnotes.vetted hn)⟩
  cases hnotes with
  | folder => simp [Listing.folderRecord] at hregular
  | @file l bytes hlook hst =>
    have hplace : (Describe.package s root ms files).place (Text.join "/" (way ++ [name])) =
        root.append (way ++ [name]) := by
      have hroot : (Describe.package s root ms files).root = root :=
        Path.ofText_toText hproper habsolute
      rw [Package.place, hroot]
      exact Path.join_ofText_join root hparts
    have hvet : Tree.vet (root.append (way ++ [name])).toText = .ok () := by
      rw [Tree.vet_toText (by rwa [Path.isAbsolute_append])]
      exact List.forall_mem_append.mpr
        ⟨(Tree.vet_toText habsolute).mp (Tree.resolve_eq_ok hroot).1, hvetted⟩
    refine ⟨bytes, ?_, rfl⟩
    show t.read ((Describe.package s root ms files).place (Text.join "/" (way ++ [name]))) = _
    rw [hplace]
    exact Tree.read_eq_ok.mpr ⟨hvet, l, hst⟩

end

namespace Check

section
variable {s : Settings} {p : Package} {f : PackageFile} {bytes : List UInt8}

/-! ## Files that are too long -/

/-- A source file written by hand whose lines are counted and are more than allowed. -/
def IsOversized (s : Settings) (f : PackageFile) (bytes : List UInt8) : Prop :=
  (f.suffix ∈ sourceSuffixes ∧ f.generated = false) ∧ Listing.IsCounted bytes ∧
    s.maxFileLines < Listing.lineTotal bytes

instance (s : Settings) (f : PackageFile) (bytes : List UInt8) : Decidable (IsOversized s f bytes) :=
  inferInstanceAs (Decidable (_ ∧ _))

/-- The record of a file that is too long. -/
def oversizedRecord (f : PackageFile) (bytes : List UInt8) : Json :=
  .obj [("file", .str f.path), ("lines", .int (Listing.lineTotal bytes))]

theorem oversized?_eq (hcount : f.lineCount = Listing.countLines bytes) : oversized? s f =
    if IsOversized s f bytes then some (f.path, (Listing.lineTotal bytes : Int)) else none := by
  unfold oversized? IsOversized
  rw [hcount, Listing.countLines_eq]
  by_cases hcounted : Listing.IsCounted bytes
  · simp [hcounted]
  · simp [hcounted]

theorem filesSmallEnough_of_oversized {found : List (Text × Int)}
    (hfound : p.regularFiles.filterMap (oversized? s) = found) :
    ((filesSmallEnough s p).status = .pass ↔ found = []) ∧ (found ≠ [] →
      (filesSmallEnough s p).status = .fail ∧ (filesSmallEnough s p).context =
        ([("violating_files", Json.arr (found.map fun x =>
          .obj [("file", .str x.1), ("lines", .int x.2)]))] : Json.Members)) := by
  unfold filesSmallEnough
  rw [hfound]
  cases found with
  | nil => exact ⟨iff_of_true rfl rfl, fun h => absurd rfl h⟩
  | cons x rest => exact ⟨iff_of_false nofun nofun, fun _ => ⟨rfl, rfl⟩⟩

theorem filterMap_oversized? {content : PackageFile → List UInt8}
    (hcount : ∀ f ∈ p.regularFiles, f.lineCount = Listing.countLines (content f)) :
    p.regularFiles.filterMap (oversized? s) =
      (p.regularFiles.filter fun f => IsOversized s f (content f)).map fun f =>
        (f.path, (Listing.lineTotal (content f) : Int)) := by
  rw [← List.filterMap_eq_map, List.filterMap_filter]
  refine List.filterMap_congr fun f hf => ?_
  rw [oversized?_eq (hcount f hf)]
  simp

/-- **A file is told of as too long if and only if it is**, unless it is not counted. -/
theorem filesSmallEnough_exact {t : Tree} {s' : Settings} {o : SearchOptions} {path : Text}
    (hs : Sound t) (hn : Named t) (hcontent : o.readsContent = true)
    (h : describe t s' path o = .ok p) (s : Settings) : ∃ content : PackageFile → List UInt8,
      (∀ f ∈ p.regularFiles, t.read (p.place f.path) = .ok (content f)) ∧
      ((filesSmallEnough s p).status = .pass ↔ ∀ f ∈ p.regularFiles, f.suffix ∈ sourceSuffixes →
        f.generated = false → Listing.IsCounted (content f) →
          Listing.lineTotal (content f) ≤ s.maxFileLines) ∧
      ((filesSmallEnough s p).status ≠ .pass → (filesSmallEnough s p).status = .fail ∧
        (filesSmallEnough s p).context = ([("violating_files", Json.arr
          ((p.regularFiles.filter fun f => IsOversized s f (content f)).map fun f =>
            oversizedRecord f (content f)))] : Json.Members)) := by
  have hread : ∀ f ∈ p.regularFiles, t.read (p.place f.path) =
      .ok (((t.read (p.place f.path)).toOption).getD []) ∧
        f.lineCount = Listing.countLines (((t.read (p.place f.path)).toOption).getD []) := by
    intro f hf
    obtain ⟨bytes, hbytes, hrecord⟩ := regularFile_of_describe hs hn h hf
    rw [hbytes]
    refine ⟨rfl, ?_⟩
    rw [hrecord, Listing.fileRecord, hcontent]
    rfl
  refine ⟨fun f => ((t.read (p.place f.path)).toOption).getD [], fun f hf => (hread f hf).1, ?_⟩
  obtain ⟨hpass, hfail⟩ := filesSmallEnough_of_oversized
    (filterMap_oversized? (s := s) fun f hf => (hread f hf).2)
  constructor
  · rw [hpass, List.map_eq_nil_iff, List.filter_eq_nil_iff]
    refine forall₂_congr fun f _ => ?_
    rw [decide_eq_true_eq, IsOversized]
    simp only [not_and, not_lt, and_imp]
  · rw [Ne, hpass]
    intro hne
    obtain ⟨hstatus, hcontext⟩ := hfail hne
    refine ⟨hstatus, hcontext.trans ?_⟩
    rw [List.map_map]
    rfl

end

/-! ## A package with one source file -/

/-- A package with a source file of these bytes. -/
def sourceTree (bytes : List UInt8) : Tree :=
  ⟨[(["a.py"], .file bytes), (["package.json"], .file [123, 125])], []⟩

/-- The record of the source file. -/
def sourceFile (bytes : List UInt8) : PackageFile := Listing.fileRecord .default "a.py" bytes

/-- What the package is described as. -/
def sourcePackage (bytes : List UInt8) : Package :=
  Describe.package .default (.ofLocation []) []
    [sourceFile bytes, Listing.fileRecord .default "package.json" [123, 125]]

/-- One line is allowed. -/
def oneLine : Settings := { Settings.default with maxFileLines := 1 }

theorem describe_sourceTree (bytes : List UInt8) :
    describe (sourceTree bytes) .default "." .default = .ok (sourcePackage bytes) := by
  have hnames : (sourceTree bytes).names [] = (["a.py", "package.json"] : List Text) :=
    Tree.names_of_ordered rfl (by decide)
  exact describe_of_names rfl rfl rfl rfl rfl rfl hnames rfl

/-- The package passes although its source file has more than one line. -/
def PassesTooLong (bytes : List UInt8) : Prop :=
  describe (sourceTree bytes) .default "." .default = .ok (sourcePackage bytes) ∧
    (filesSmallEnough oneLine (sourcePackage bytes)).status = .pass ∧
    sourceFile bytes ∈ (sourcePackage bytes).regularFiles ∧
    (sourceFile bytes).suffix ∈ sourceSuffixes ∧
    (sourceFile bytes).generated = false ∧
    (sourceTree bytes).read ((sourcePackage bytes).place (sourceFile bytes).path) = .ok bytes ∧
    1 < Listing.lineTotal bytes

theorem passesTooLong_of_not_counted {bytes : List UInt8} (h : ¬ Listing.IsCounted bytes)
    (hlong : 1 < Listing.lineTotal bytes) : PassesTooLong bytes := by
  have hsource : oversized? oneLine (sourceFile bytes) = none := by
    have hcount : (sourceFile bytes).lineCount = Listing.countLines bytes := rfl
    rw [oversized?_eq hcount, if_neg fun hover => h hover.2.1]
  have hmanifest :
      oversized? oneLine (Listing.fileRecord .default "package.json" [123, 125]) = none := by
    decide
  refine ⟨describe_sourceTree bytes, (filesSmallEnough_of_oversized ?_).1.mpr rfl,
    List.mem_cons_self, ?_, ?_, ?_, hlong⟩
  · show List.filterMap (oversized? oneLine) [sourceFile bytes, _] = []
    rw [List.filterMap_cons_none hsource, List.filterMap_cons_none hmanifest, List.filterMap_nil]
  · show (Path.ofText "a.py").suffix.lower ∈ sourceSuffixes
    decide +kernel
  · show Listing.isGenerated "a.py" = false
    decide
  · rfl

/-- Neither is a file with a zero byte counted, nor one that is too large. -/
theorem not_filesSmallEnough_all : PassesTooLong [0, 10, 10] ∧
    PassesTooLong (List.replicate (Listing.maxCountedBytes + 1) 10) := by
  constructor
  · exact passesTooLong_of_not_counted (by decide) (by decide)
  · refine passesTooLong_of_not_counted (fun h => ?_) ?_
    · rw [Listing.IsCounted, List.length_replicate] at h
      exact absurd h.1 (Nat.not_succ_le_self _)
    · rw [Listing.lineTotal, List.count_replicate_self]
      have hpos : 0 < Listing.maxCountedBytes := by decide
      omega

/-- Two lines are one more than allowed. -/
theorem filesSmallEnough_two_lines :
    describe (sourceTree [120, 10, 121]) .default "." .default = .ok (sourcePackage [120, 10, 121]) ∧
      (filesSmallEnough oneLine (sourcePackage [120, 10, 121])).status = .fail := by
  have hdescribe := describe_sourceTree [120, 10, 121]
  have hs : Sound (sourceTree [120, 10, 121]) := Tree.sound_of_entries rfl nofun (by decide)
  have hn : Named (sourceTree [120, 10, 121]) := ⟨by decide, by decide, by decide, by decide⟩
  obtain ⟨content, hread, hpass, hfail⟩ := filesSmallEnough_exact hs hn rfl hdescribe oneLine
  have hmem : sourceFile [120, 10, 121] ∈ (sourcePackage [120, 10, 121]).regularFiles :=
    List.mem_cons_self
  have hcontent : content (sourceFile [120, 10, 121]) = [120, 10, 121] :=
    (Except.ok.inj (hread _ hmem)).symm
  refine ⟨hdescribe, (hfail fun h => ?_).1⟩
  have hle := hpass.mp h _ hmem (by decide) (by decide) (by rw [hcontent]; decide)
  rw [hcontent] at hle
  exact absurd hle (by decide)

end Check

end PackageAudit
