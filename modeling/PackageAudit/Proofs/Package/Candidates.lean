import Mathlib.Data.List.Nodup
import PackageAudit.Package.Search
import PackageAudit.Proofs.Tree.Ground
import PackageAudit.Proofs.Tree.Names

/-! # What a search looks at

A `Candidate` is a directory that a search asks for a manifest, given by the way that leads down to
it. A way goes on from a candidate only if it holds none, so no package is below another one
(`Candidate.eq_of_prefix`). `packages` are the candidates that hold a manifest, directory by directory;
`mem_packages` says the same without the order. `Fits` is what keeps the question from failing.
-/

namespace PackageAudit

open PackageAudit.Tree (Sound Named)

namespace Search

section
variable (t : Tree) (s : Settings) (o : SearchOptions)

/-- A directory holds a manifest, which is a regular file. -/
def Holds (l : Location) : Prop := ∃ bytes, t.get? (l ++ [s.manifestName]) = some (.file bytes)

/-- A name in a directory is that of a directory that is looked at. -/
def Looks (l : Location) (name : Text) : Prop :=
  t.get? (l ++ [name]) = some .folder ∧ isSearched o name = true

/-- The way from a directory to one below it, at most so deep, that is asked for a manifest. -/
structure Candidate (depth : Nat) (l way : Location) : Prop where
  below : way ≠ []
  length_le : way.length ≤ depth
  folder : t.get? (l ++ way) = some .folder
  searched : ∀ name ∈ way, name ∉ Listing.ignoredFolders ∧
    (Listing.isHidden name = true → o.includeHidden = true)
  /-- No directory on the way holds a manifest. -/
  free : ∀ part, part <+: way → part ≠ [] → part ≠ way → ¬ Holds t s (l ++ part)

/-- The path to the manifest of a directory is not too long, nor is a name on the way to it. -/
structure Fits (p : Path) (way : Location) : Prop where
  path : Name.size (p.append (way ++ [s.manifestName])).toText ≤ Tree.maxPathBytes
  names : ∀ name ∈ way ++ [s.manifestName], Name.size name ≤ Tree.maxNameBytes

theorem holds_iff (l : Location) :
    Holds t s l ↔ (t.get? (l ++ [s.manifestName])).any Tree.isFileEntry = true := by
  unfold Holds
  cases t.get? (l ++ [s.manifestName]) with
  | none => simp
  | some e => cases e <;> simp [Tree.isFileEntry]

instance (l : Location) : Decidable (Holds t s l) := decidable_of_iff _ (holds_iff t s l).symm

instance (l : Location) (name : Text) : Decidable (Looks t o l name) :=
  inferInstanceAs (Decidable (_ ∧ _))

instance (p : Path) (way : Location) : Decidable (Fits s p way) :=
  decidable_of_iff (_ ∧ _) ⟨fun h => ⟨h.1, h.2⟩, fun h => ⟨h.path, h.names⟩⟩

/-- The packages at one name of a directory. -/
def packagesAt (below : Path → Location → List Path) (p : Path) (l : Location) (name : Text) :
    List Path :=
  if Looks t o l name then
    if Holds t s (l ++ [name]) then [p.append [name]] else below (p.append [name]) (l ++ [name])
  else []

/-- The packages below a directory, at most so deep. -/
def packages : Nat → Path → Location → List Path
  | 0, _, _ => []
  | depth + 1, p, l => (t.names l).flatMap (packagesAt t s o (packages depth) p l)

end

section
variable {t : Tree} {s : Settings} {o : SearchOptions} {depth : Nat} {p q : Path}
  {l way : Location} {name : Text}

theorem isSearched_iff : isSearched o name = true ↔ name ∉ Listing.ignoredFolders ∧
    (Listing.isHidden name = true → o.includeHidden = true) := by
  unfold isSearched
  cases Listing.isHidden name <;> simp

theorem not_candidate_zero : ¬ Candidate t s o 0 l way :=
  fun h => h.below (List.length_eq_zero_iff.mp (Nat.le_zero.mp h.length_le))

theorem candidate_singleton (h : Looks t o l name) : Candidate t s o (depth + 1) l [name] where
  below := by simp
  length_le := by simp
  folder := h.1
  searched := List.forall_mem_singleton.mpr (isSearched_iff.mp h.2)
  free part hp hne hpart := by
    rcases List.prefix_cons_iff.mp hp with rfl | ⟨rest, rfl, hrest⟩
    · exact absurd rfl hne
    · exact absurd (by rw [List.prefix_nil.mp hrest]) hpart

/-- A way to a candidate starts with a name that is looked at, and goes on if that directory holds no
manifest. -/
theorem candidate_cons (hs : Sound t) : Candidate t s o (depth + 1) l (name :: way) ↔
    Looks t o l name ∧
      (way = [] ∨ ¬ Holds t s (l ++ [name]) ∧ Candidate t s o depth (l ++ [name]) way) := by
  constructor
  · intro h
    obtain ⟨hname, hway⟩ := List.forall_mem_cons.mp h.searched
    have hsplit : l ++ name :: way = l ++ [name] ++ way := by simp
    cases way with
    | nil => exact ⟨⟨h.folder, isSearched_iff.mpr hname⟩, .inl rfl⟩
    | cons next rest =>
      have hfolder := h.folder
      rw [hsplit] at hfolder
      refine ⟨⟨hs.folder_of_append (by rw [hfolder]; exact nofun), isSearched_iff.mpr hname⟩,
        .inr ⟨h.free [name] (by simp) (by simp) (by simp), ?_⟩⟩
      refine ⟨by simp, Nat.le_of_succ_le_succ h.length_le, hfolder, hway, fun part hp hne hpart => ?_⟩
      have hfree := h.free (name :: part) (by simpa using hp) (by simp) (by simpa using hpart)
      rwa [List.append_cons] at hfree
  · rintro ⟨⟨hfolder, hname⟩, hrest⟩
    rcases hrest with rfl | ⟨hno, h⟩
    · exact candidate_singleton ⟨hfolder, hname⟩
    · refine ⟨by simp, Nat.succ_le_succ h.length_le, by rw [List.append_cons]; exact h.folder,
        List.forall_mem_cons.mpr ⟨isSearched_iff.mp hname, h.searched⟩, ?_⟩
      intro part hp hne hpart
      rcases List.prefix_cons_iff.mp hp with rfl | ⟨rest, rfl, hrest⟩
      · exact absurd rfl hne
      · rw [List.append_cons]
        by_cases hr : rest = []
        · rwa [hr, List.append_nil]
        · exact h.free rest hrest hr fun he => hpart (by rw [he])

/-- **No package is below another one.** -/
theorem Candidate.eq_of_prefix {other : Location} (h : Candidate t s o depth l way)
    (hne : other ≠ []) (hheld : Holds t s (l ++ other)) (hp : other <+: way) : other = way :=
  Classical.byContradiction fun hother => h.free other hp hne hother hheld

theorem fits_cons : Fits s p (name :: way) ↔
    Name.size name ≤ Tree.maxNameBytes ∧ Fits s (p.append [name]) way := by
  constructor
  · intro h
    obtain ⟨hname, hway⟩ := List.forall_mem_cons.mp h.names
    exact ⟨hname, ⟨by rw [Path.append_append]; exact h.path, hway⟩⟩
  · rintro ⟨hname, h⟩
    refine ⟨?_, List.forall_mem_cons.mpr ⟨hname, h.names⟩⟩
    have hpath := h.path
    rwa [Path.append_append] at hpath

theorem mem_packagesAt {below : Path → Location → List Path} :
    q ∈ packagesAt t s o below p l name ↔ Looks t o l name ∧
      (Holds t s (l ++ [name]) ∧ q = p.append [name] ∨
        ¬ Holds t s (l ++ [name]) ∧ q ∈ below (p.append [name]) (l ++ [name])) := by
  unfold packagesAt
  by_cases hl : Looks t o l name
  · by_cases hh : Holds t s (l ++ [name]) <;> simp [hl, hh]
  · simp [hl]

theorem Looks.mem_names (h : Looks t o l name) : name ∈ t.names l :=
  Tree.mem_names.mpr (by rw [h.1]; exact nofun)

/-- **The packages are the candidates that hold a manifest.** -/
theorem mem_packages (hs : Sound t) : ∀ {depth : Nat} {p : Path} {l : Location},
    q ∈ packages t s o depth p l ↔
      ∃ way, Candidate t s o depth l way ∧ Holds t s (l ++ way) ∧ q = p.append way
  | 0, p, l => by
    simp only [packages, List.not_mem_nil, false_iff]
    rintro ⟨way, h, -⟩
    exact not_candidate_zero h
  | depth + 1, p, l => by
    simp only [packages, List.mem_flatMap, mem_packagesAt]
    constructor
    · rintro ⟨name, -, hl, ⟨hh, rfl⟩ | ⟨hno, hq⟩⟩
      · exact ⟨[name], candidate_singleton hl, hh, rfl⟩
      · obtain ⟨way, h, hh, rfl⟩ := (mem_packages hs).mp hq
        refine ⟨name :: way, (candidate_cons hs).mpr ⟨hl, .inr ⟨hno, h⟩⟩, ?_, ?_⟩
        · rwa [List.append_cons]
        · rw [Path.append_append, List.singleton_append]
    · rintro ⟨way, h, hh, hq⟩
      obtain ⟨name, way, rfl⟩ := List.exists_cons_of_ne_nil h.below
      obtain ⟨hl, rfl | ⟨hno, hc⟩⟩ := (candidate_cons hs).mp h
      · exact ⟨name, hl.mem_names, hl, .inl ⟨hh, hq⟩⟩
      · rw [List.append_cons] at hh
        refine ⟨name, hl.mem_names, hl, .inr ⟨hno, (mem_packages hs).mpr ⟨way, hc, hh, ?_⟩⟩⟩
        rw [hq, Path.append_append, List.singleton_append]

theorem exists_of_mem_packagesAt (hs : Sound t)
    (h : q ∈ packagesAt t s o (packages t s o depth) p l name) :
    ∃ way, q = p.append (name :: way) := by
  obtain ⟨-, ⟨-, rfl⟩ | ⟨-, hq⟩⟩ := mem_packagesAt.mp h
  · exact ⟨[], rfl⟩
  · obtain ⟨way, -, -, rfl⟩ := (mem_packages hs).mp hq
    exact ⟨way, by rw [Path.append_append, List.singleton_append]⟩

theorem nodup_packages (hs : Sound t) (hn : Named t) : ∀ {depth : Nat} {p : Path} {l : Location},
    (packages t s o depth p l).Nodup
  | 0, _, _ => List.nodup_nil
  | depth + 1, p, l => by
    refine List.nodup_flatMap.mpr ⟨fun name _ => ?_, ?_⟩
    · unfold packagesAt
      split
      · split
        · exact List.nodup_singleton _
        · exact nodup_packages hs hn
      · exact List.nodup_nil
    · refine (Tree.nodup_names hn.once l).imp fun {a b} hab q ha hb => hab ?_
      obtain ⟨way, rfl⟩ := exists_of_mem_packagesAt hs ha
      obtain ⟨way', he⟩ := exists_of_mem_packagesAt hs hb
      exact (List.cons.inj (Path.append_inj he)).1

end

end Search

end PackageAudit
