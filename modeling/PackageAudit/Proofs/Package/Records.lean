import PackageAudit.Package.Listing
import PackageAudit.Proofs.Tree.Ground
import PackageAudit.Proofs.Tree.Names

/-! # The records of a directory

`records` says, directory by directory, what a listing without followed links holds: the names in
order, each directory right before what is below it. `Reaches` are the ways that such a listing
takes; `mem_records` says by them what is listed, and `Reaches.grows` and `Reaches.of_grown` compare
them in a tree that has grown. `AllFit` is what keeps a listing from failing.
-/

namespace PackageAudit

open PackageAudit.Tree (Sound Named)

namespace Listing

theorem foldlM_cons_eq_ok {ε α β : Type} {f : β → α → Except ε β} {a : α} {as : List α} {b c : β} :
    (a :: as).foldlM f b = .ok c ↔ ∃ mid, f b a = .ok mid ∧ as.foldlM f mid = .ok c := by
  rw [List.foldlM_cons]
  cases f b a with
  | error e => exact ⟨nofun, nofun⟩
  | ok mid => exact ⟨fun h => ⟨mid, rfl, h⟩, fun ⟨_, hmid, h⟩ => Except.ok.inj hmid ▸ h⟩

theorem isListed_of_not_hidden {s : Settings} (o : SearchOptions) {name : Text}
    (h : isHidden name = false) : isListed s o name = true := by
  simp [isListed, h]

theorem isListed_ignoreFile (s : Settings) (o : SearchOptions) :
    isListed s o s.ignoreFileName = true := by
  simp [isListed]

section
variable (t : Tree) (s : Settings) (o : SearchOptions) (base : Location)

/-- The record of a directory. -/
def folderRecord (path : Text) : PackageFile := ⟨path, true, 0, none, false⟩

/-- Does a way go on from a directory into this one? -/
def Enters (folder : Location) (name : Text) : Prop :=
  isListed s o name = true ∧ t.get? (base ++ folder ++ [name]) = some .folder ∧
    name ∉ ignoredFolders

/-- The record of an entry of a directory, if it is listed. -/
def record? (folder : Location) (name : Text) : Option PackageFile :=
  if isListed s o name then
    match t.get? (base ++ folder ++ [name]) with
    | some (.file bytes) => some (fileRecord o (Text.join "/" (folder ++ [name])) bytes)
    | some .folder =>
      if name ∈ ignoredFolders then none
      else some (folderRecord (Text.join "/" (folder ++ [name])))
    | _ => none
  else none

/-- The records of an entry of a directory and of what is below it. -/
def recordsOf (below : Location → List PackageFile) (folder : Location) (name : Text) :
    List PackageFile :=
  match record? t s o base folder name with
  | some f => f :: if f.isFolder then below (folder ++ [name]) else []
  | none => []

/-- The records of what is in a directory and so many levels below it. -/
def records : Nat → Location → List PackageFile
  | 0, folder => (t.names (base ++ folder)).flatMap (recordsOf t s o base (fun _ => []) folder)
  | levels + 1, folder =>
    (t.names (base ++ folder)).flatMap (recordsOf t s o base (records levels) folder)

/-- The directories that a listing goes into from one, at most so many levels down. -/
inductive Reaches : Nat → Location → Location → Prop
  | here {levels : Nat} {folder : Location} : Reaches levels folder folder
  | into {levels : Nat} {folder way : Location} {name : Text}
    (h : Enters t s o base folder name) (hr : Reaches levels (folder ++ [name]) way) :
    Reaches (levels + 1) folder way

/-- The path of an entry is not too long, nor is its name if it is looked at. -/
structure Fits (root : Path) (folder : Location) (name : Text) : Prop where
  path : Name.size (root.append (folder ++ [name])).toText ≤ Tree.maxPathBytes
  name : isListed s o name = true → (∀ target, t.get? (base ++ folder ++ [name]) ≠
    some (.link target)) → Name.size name ≤ Tree.maxNameBytes

/-- No path or name that a listing meets is too long. -/
def AllFit (root : Path) (levels : Nat) (folder : Location) : Prop :=
  ∀ way name, Reaches t s o base levels folder way →
    t.get? (base ++ way ++ [name]) ≠ none → Fits t s o base root way name

end

section
variable {t : Tree} {s : Settings} {o : SearchOptions} {root : Path} {base folder way : Location}
  {name : Text} {levels : Nat} {f : PackageFile}

theorem record?_isFolder :
    (record? t s o base folder name).any (·.isFolder) = true ↔ Enters t s o base folder name := by
  unfold record? Enters
  by_cases hlisted : isListed s o name = true
  · cases hk : t.get? (base ++ folder ++ [name]) with
    | none => simp [hlisted]
    | some e =>
      cases e with
      | link target => simp [hlisted]
      | file bytes => simp [hlisted, fileRecord]
      | folder => by_cases hi : name ∈ ignoredFolders <;> simp [hlisted, hi, folderRecord]
  · simp [hlisted]

theorem record?_eq_some : record? t s o base folder name = some f ↔ isListed s o name = true ∧
    ((∃ bytes, t.get? (base ++ folder ++ [name]) = some (.file bytes) ∧
        f = fileRecord o (Text.join "/" (folder ++ [name])) bytes) ∨
      (t.get? (base ++ folder ++ [name]) = some .folder ∧ name ∉ ignoredFolders ∧
        f = folderRecord (Text.join "/" (folder ++ [name])))) := by
  unfold record?
  by_cases hlisted : isListed s o name = true
  · cases hk : t.get? (base ++ folder ++ [name]) with
    | none => simp [hlisted]
    | some e =>
      cases e with
      | link target => simp [hlisted]
      | file bytes => simp [hlisted, eq_comm]
      | folder => by_cases hi : name ∈ ignoredFolders <;> simp [hlisted, hi, eq_comm]
  · simp [hlisted]

theorem path_of_record (h : record? t s o base folder name = some f) :
    f.path = Text.join "/" (folder ++ [name]) := by
  rcases (record?_eq_some.mp h).2 with ⟨bytes, -, rfl⟩ | ⟨-, -, rfl⟩
  · rfl
  · rfl

theorem get?_of_record (h : record? t s o base folder name = some f) :
    t.get? (base ++ folder ++ [name]) ≠ none := by
  rcases (record?_eq_some.mp h).2 with ⟨bytes, hk, -⟩ | ⟨hk, -, -⟩ <;> rw [hk] <;> exact nofun

theorem mem_recordsOf {below : Location → List PackageFile} :
    f ∈ recordsOf t s o base below folder name ↔ record? t s o base folder name = some f ∨
      Enters t s o base folder name ∧ f ∈ below (folder ++ [name]) := by
  rw [← record?_isFolder]
  unfold recordsOf
  cases record? t s o base folder name with
  | none => simp
  | some g => by_cases hg : g.isFolder <;> simp [hg, eq_comm]

/-- **What is listed are the records of the entries of the directories that are reached.** -/
theorem mem_records : ∀ {levels : Nat} {folder : Location},
    f ∈ records t s o base levels folder ↔ ∃ way name, Reaches t s o base levels folder way ∧
      record? t s o base way name = some f
  | 0, folder => by
    simp only [records, List.mem_flatMap, mem_recordsOf, List.not_mem_nil, and_false, or_false]
    constructor
    · rintro ⟨name, -, hf⟩
      exact ⟨folder, name, .here, hf⟩
    · rintro ⟨_, name, ⟨⟩, hf⟩
      exact ⟨name, Tree.mem_names.mpr (get?_of_record hf), hf⟩
  | levels + 1, folder => by
    simp only [records, List.mem_flatMap, mem_recordsOf]
    constructor
    · rintro ⟨name, -, hf | ⟨henters, hf⟩⟩
      · exact ⟨folder, name, .here, hf⟩
      · obtain ⟨way, last, hreach, hlast⟩ := mem_records.mp hf
        exact ⟨way, last, .into henters hreach, hlast⟩
    · rintro ⟨way, last, hreach, hlast⟩
      cases hreach with
      | here => exact ⟨last, Tree.mem_names.mpr (get?_of_record hlast), .inl hlast⟩
      | into hin hreach =>
        exact ⟨_, Tree.mem_names.mpr (by rw [hin.2.1]; exact nofun),
          .inr ⟨hin, mem_records.mpr ⟨way, last, hreach, hlast⟩⟩⟩

theorem Reaches.prefix_of (h : Reaches t s o base levels folder way) : folder <+: way := by
  induction h with
  | here => exact List.prefix_rfl
  | into _ _ ih => exact (List.prefix_append _ _).trans ih

theorem Reaches.get?_eq (hf : t.get? (base ++ folder) = some .folder)
    (h : Reaches t s o base levels folder way) : t.get? (base ++ way) = some .folder := by
  induction h with
  | here => exact hf
  | into hin _ ih => exact ih (by rw [← List.append_assoc]; exact hin.2.1)

theorem Reaches.grows {t' : Tree} (hg : Tree.Grows t t')
    (h : Reaches t s o base levels folder way) : Reaches t' s o base levels folder way := by
  induction h with
  | here => exact .here
  | into hin _ ih => exact .into ⟨hin.1, hg.folder hin.2.1, hin.2.2⟩ ih

/-- A directory that was there was reached before the tree has grown, too. -/
theorem Reaches.of_grown {t' : Tree} (hs : Sound t) (hway : t.get? (base ++ way) = some .folder)
    (h : Reaches t' s o base levels folder way) : Reaches t s o base levels folder way := by
  induction h with
  | here => exact .here
  | @into levels folder way name hin hr ih =>
    refine .into ⟨hin.1, ?_, hin.2.2⟩ (ih hway)
    obtain ⟨rest, rfl⟩ := hr.prefix_of
    cases rest with
    | nil => simpa using hway
    | cons next rest =>
      have hk : t.get? (base ++ folder ++ [name] ++ next :: rest) ≠ none := by
        rw [List.append_assoc base, List.append_assoc base, hway]
        exact nofun
      exact hs.folder_of_append hk

theorem allFit_zero : AllFit t s o base root 0 folder ↔
    ∀ name, t.get? (base ++ folder ++ [name]) ≠ none → Fits t s o base root folder name := by
  constructor
  · exact fun h name => h folder name .here
  · rintro h way name ⟨⟩
    exact h name

theorem allFit_succ {levels : Nat} : AllFit t s o base root (levels + 1) folder ↔
    ∀ name, (t.get? (base ++ folder ++ [name]) ≠ none → Fits t s o base root folder name) ∧
      (Enters t s o base folder name → AllFit t s o base root levels (folder ++ [name])) := by
  constructor
  · exact fun h name => ⟨h folder name .here, fun hin way last hr => h way last (.into hin hr)⟩
  · rintro h way last (_ | ⟨hin, hr⟩)
    · exact (h last).1
    · exact (h _).2 hin way last hr

/-! ## Records by their paths -/

theorem Reaches.isPart (hn : Named t) (hf : t.get? base = some .folder)
    (h : Reaches t s o base levels [] way) : ∀ x ∈ way, Path.IsPart x := by
  have hway := h.get?_eq (by simpa using hf)
  exact fun x hx =>
    ((hn.of_get? (by rw [hway]; exact nofun) x (List.mem_append_right base hx)).1).1

theorem isPart_of_record (hn : Named t) (h : record? t s o base folder name = some f) :
    Path.IsPart name := ((hn.of_get? (get?_of_record h) name (by simp)).1).1

/-- The path of a record says where it comes from. -/
theorem exists_record (hn : Named t) (hf : t.get? base = some .folder)
    (hway : ∀ x ∈ way, Path.IsPart x) (hname : Path.IsPart name) :
    (f ∈ records t s o base levels [] ∧ f.path = Text.join "/" (way ++ [name])) ↔
      Reaches t s o base levels [] way ∧ record? t s o base way name = some f := by
  rw [mem_records]
  constructor
  · rintro ⟨⟨way', name', hreach, hr⟩, hp⟩
    rw [path_of_record hr] at hp
    have hparts : ∀ {way : Location} {name : Text}, (∀ x ∈ way, Path.IsPart x) →
        Path.IsPart name → ∀ x ∈ way ++ [name], Path.slash ∉ x := by
      intro way name hway hname x hx
      rcases List.mem_append.mp hx with hx | hx
      · exact (hway x hx).2.2
      · exact List.mem_singleton.mp hx ▸ hname.2.2
    have he : way' ++ [name'] = way ++ [name] := Text.join_inj (by simp) (by simp)
      (hparts (hreach.isPart hn hf) (isPart_of_record hn hr)) (hparts hway hname) hp
    obtain ⟨rfl, hlast⟩ := List.append_inj' he rfl
    obtain rfl : name' = name := by simpa using hlast
    exact ⟨hreach, hr⟩
  · rintro ⟨hreach, hr⟩
    exact ⟨⟨way, name, hreach, hr⟩, path_of_record hr⟩

end

end Listing

end PackageAudit
