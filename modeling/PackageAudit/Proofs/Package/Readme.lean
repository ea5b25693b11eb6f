import PackageAudit.Proofs.Check.Builtin
import PackageAudit.Proofs.Package.Describe
import PackageAudit.Proofs.Text.Order

/-! # The readme of a package

The readme may be named in capitals or not. Of several such files at the top the first in the order
of names counts (`Described.of_readme?`), whatever else there is in the package.
-/

namespace PackageAudit

open PackageAudit.Tree (Sound Named)

/-- A file at the top of a package that is named like the readme, up to case. -/
structure IsReadme (t : Tree) (s : Settings) (o : SearchOptions) (base : Location) (name : Text) :
    Prop where
  lower : name.lower = s.readmeName.lower
  listed : Listing.isListed s o name = true
  file : ∃ bytes, t.get? (base ++ [name]) = some (.file bytes)

section
variable {t : Tree} {s : Settings} {o : SearchOptions} {path : Text} {root : Path}
  {base : Location} {ms : Json.Members} {name : Text} {f : PackageFile}

/-- Is a record the one of a readme? -/
def isReadmeRecord (s : Settings) (f : PackageFile) : Bool :=
  !f.isFolder && (f.isTopLevel && f.path.lower == s.readmeName.lower)

theorem readme?_eq (p : Package) : Check.readme? s p = p.files.find? (isReadmeRecord s) := by
  unfold Check.readme? Package.regularFiles
  rw [List.find?_filter]
  congr 1
  funext f
  rw [Bool.eq_iff_iff]
  simp [isReadmeRecord]

theorem isTopLevel_of_mem_records {levels : Nat}
    (h : f ∈ Listing.records t s o base levels [name]) : f.isTopLevel = false := by
  obtain ⟨way, last, hreach, hrecord⟩ := Listing.mem_records.mp h
  obtain ⟨rest, rfl⟩ := hreach.prefix_of
  obtain ⟨next, more, hnext⟩ : ∃ next more, rest ++ [last] = next :: more := by
    cases rest with
    | nil => exact ⟨last, [], rfl⟩
    | cons next rest => exact ⟨next, rest ++ [last], rfl⟩
  have hslash : Path.slash ∈ f.path := by
    rw [Listing.path_of_record hrecord, List.append_assoc, hnext, List.singleton_append,
      Text.join_cons_cons]
    exact List.mem_append_left _ (List.mem_append_right _ (by decide))
  simp [PackageFile.isTopLevel, hslash]

/-- The readme among the records of one entry at the top can only be the entry itself. -/
theorem find?_recordsOf {below : Location → List PackageFile}
    (hbelow : ∀ f ∈ below [name], f.isTopLevel = false) :
    (Listing.recordsOf t s o base below [] name).find? (isReadmeRecord s) =
      (Listing.record? t s o base [] name).filter (isReadmeRecord s) := by
  unfold Listing.recordsOf
  cases Listing.record? t s o base [] name with
  | none => rfl
  | some f =>
    have hnone : (if f.isFolder then below [name] else []).find? (isReadmeRecord s) = none := by
      rw [List.find?_eq_none]
      intro g hg
      split at hg
      · simp [isReadmeRecord, hbelow g hg]
      · cases hg
    simp only [List.nil_append, List.find?_cons, hnone, Option.filter_some]
    cases isReadmeRecord s f <;> rfl

theorem find?_records (levels : Nat) :
    (Listing.records t s o base levels []).find? (isReadmeRecord s) =
      (t.names base).findSome? fun name =>
        (Listing.record? t s o base [] name).filter (isReadmeRecord s) := by
  cases levels with
  | zero =>
    rw [Listing.records, List.append_nil, List.find?_flatMap]
    congr 1
    funext name
    exact find?_recordsOf (by simp)
  | succ levels =>
    rw [Listing.records, List.append_nil, List.find?_flatMap]
    congr 1
    funext name
    exact find?_recordsOf fun f => isTopLevel_of_mem_records

theorem filter_record? (hn : Named t) : (Listing.record? t s o base [] name).filter
    (isReadmeRecord s) = some f ↔
      IsReadme t s o base name ∧ Listing.record? t s o base [] name = some f := by
  rw [Option.filter_eq_some_iff, and_comm]
  refine and_congr_left fun hrecord => ?_
  have hslash : Path.slash ∉ name := (Listing.isPart_of_record hn hrecord).2.2
  have hpath : f.path = name := by
    rw [Listing.path_of_record hrecord]
    exact Text.join_singleton _ name
  have hiff : isReadmeRecord s f = true ↔
      f.isFolder = false ∧ name.lower = s.readmeName.lower := by
    simp [isReadmeRecord, PackageFile.isTopLevel, hpath, hslash]
  rw [hiff]
  obtain ⟨hlisted, hentry⟩ := Listing.record?_eq_some.mp hrecord
  rw [List.append_nil] at hentry
  constructor
  · rintro ⟨hfile, hlower⟩
    rcases hentry with ⟨bytes, hk, -⟩ | ⟨-, -, rfl⟩
    · exact ⟨hlower, hlisted, bytes, hk⟩
    · cases hfile
  · rintro ⟨hlower, -, bytes, hk⟩
    rcases hentry with ⟨_, -, rfl⟩ | ⟨hfolder, -, -⟩
    · exact ⟨rfl, hlower⟩
    · rw [hk] at hfolder
      cases hfolder

theorem IsReadme.mem_names (h : IsReadme t s o base name) : name ∈ t.names base := by
  obtain ⟨bytes, hk⟩ := h.file
  exact Tree.mem_names.mpr (by rw [hk]; exact nofun)

theorem IsReadme.filter_record? (hn : Named t) (h : IsReadme t s o base name) :
    (Listing.record? t s o base [] name).filter (isReadmeRecord s) ≠ none := by
  obtain ⟨bytes, hk⟩ := h.file
  have hrecord := Listing.record?_eq_some.mpr
    ⟨h.listed, .inl ⟨bytes, (List.append_nil base).symm ▸ hk, rfl⟩⟩
  rw [(PackageAudit.filter_record? hn).mpr ⟨h, hrecord⟩]
  exact nofun

theorem Described.readme?_eq (h : Described t s o path root base ms) :
    Check.readme? s h.package = (t.names base).findSome? fun name =>
      (Listing.record? t s o base [] name).filter (isReadmeRecord s) :=
  (PackageAudit.readme?_eq h.package).trans (find?_records _)

theorem Described.readme?_eq_none (h : Described t s o path root base ms) (hn : Named t) :
    Check.readme? s h.package = none ↔ ∀ name, ¬ IsReadme t s o base name := by
  rw [h.readme?_eq, List.findSome?_eq_none_iff]
  constructor
  · intro hnone name hreadme
    exact hreadme.filter_record? hn (hnone name hreadme.mem_names)
  · intro hno name _
    cases hf : (Listing.record? t s o base [] name).filter (isReadmeRecord s) with
    | none => rfl
    | some f => exact absurd ((filter_record? hn).mp hf).1 (hno name)

/-- **The readme that counts is the first one in the order of names.** -/
theorem Described.of_readme? (h : Described t s o path root base ms) (hn : Named t)
    (hf : Check.readme? s h.package = some f) : IsReadme t s o base f.path ∧
      ∀ other, IsReadme t s o base other → Text.before other f.path = false := by
  rw [h.readme?_eq] at hf
  obtain ⟨front, name, back, hnames, hname, hfront⟩ := List.findSome?_eq_some_iff.mp hf
  obtain ⟨hreadme, hrecord⟩ := (filter_record? hn).mp hname
  have hpath : f.path = name := by
    rw [Listing.path_of_record hrecord]
    exact Text.join_singleton _ name
  rw [hpath]
  refine ⟨hreadme, fun other hother => ?_⟩
  have hmem := hother.mem_names
  have hsorted : (front ++ name :: back).Pairwise fun a b =>
      Text.before b a = false := by
    rw [← hnames]
    exact Text.ordered.pairwise_sorted id _
  rw [hnames, List.mem_append, List.mem_cons] at hmem
  rcases hmem with hbefore | rfl | hafter
  · exact absurd (hfront other hbefore) (hother.filter_record? hn)
  · exact Text.ordered.self _
  · exact (List.pairwise_cons.mp (List.pairwise_append.mp hsorted).2.1).1 other hafter

end

end PackageAudit
