import PackageAudit.Proofs.Package.Records
import PackageAudit.Proofs.Tree.Order

/-! # What a walk lists

Whether or not links are followed, a walk lists the entries of the directories that it goes into, in
depth-first order (`of_listing`). It goes into a directory unless that is too deep or an earlier way has
led there (`Opens`), so what it lists is told from the list alone: which of its directories come first
says which of them are open (`Open`).
-/

namespace PackageAudit

open PackageAudit.Tree (Named)

/-- The names of the path of a file, from the root of the package down. -/
def PackageFile.way (f : PackageFile) : Location := Path.namesIn f.path

namespace Listing

section
variable (t : Tree) (s : Settings) (o : SearchOptions) (root : Path)

/-- An entry of the directory to which a way leads is looked at. -/
def LooksAt (way : Location) (name : Text) : Prop :=
  ∃ place, t.status (root.append way) = .ok (place, .folder) ∧ name ∈ t.names place ∧
    isListed s o name = true ∧
      (o.followLinks = true ∨ ∀ target, t.get? (place ++ [name]) ≠ some (.link target))

/-- What is listed of an entry of the directory to which a way leads. -/
inductive Notes (way : Location) (name : Text) : PackageFile → Prop
  | file {l : Location} {bytes : List UInt8} (hlook : LooksAt t s o root way name)
    (hst : t.status (root.append (way ++ [name])) = .ok (l, .file bytes)) :
    Notes way name (fileRecord o (Text.join "/" (way ++ [name])) bytes)
  | folder {l : Location} (hlook : LooksAt t s o root way name)
    (hst : t.status (root.append (way ++ [name])) = .ok (l, .folder)) (hi : name ∉ ignoredFolders) :
    Notes way name (folderRecord (Text.join "/" (way ++ [name])))

/-- A walk that lists these files goes into a directory that is resolved to this path, unless it is
too deep. -/
def Resolves (files : List PackageFile) (x : Path) : Prop :=
  ∃ f ∈ files, f.isFolder = true ∧ f.way.length ≤ o.maxDepth.toNat ∧
    t.resolve (root.append f.way) = .ok x

/-- A walk that lists these files goes into the directory of a way: it is not too deep, and neither was
it entered before the walk nor does it lie where an earlier directory lies. -/
structure Opens (entered : List Path) (files : List PackageFile) (way : Location) : Prop where
  length_le : way.length ≤ o.maxDepth.toNat
  fresh : ∃ x, t.resolve (root.append way) = .ok x ∧ x ∉ entered ∧ ∀ f ∈ files, f.isFolder = true →
    f.way.length ≤ o.maxDepth.toNat → f.way.before way = true →
      t.resolve (root.append f.way) ≠ .ok x

/-- The directories that a walk that lists these files goes into from one on. -/
inductive Open (entered : List Path) (files : List PackageFile) : Location → Location → Prop
  | here {folder : Location} : Open entered files folder folder
  | into {folder way : Location} {name : Text}
    (hnotes : ∃ f, Notes t s o root folder name f ∧ f.isFolder = true)
    (hopens : Opens t o root entered files (folder ++ [name]))
    (hr : Open entered files (folder ++ [name]) way) : Open entered files folder way

/-- What a walk that lists these files lists at a name of a directory. -/
def ListsAt (entered : List Path) (files : List PackageFile) (folder : Location) (name : Text)
    (f : PackageFile) : Prop :=
  Notes t s o root folder name f ∨
    (∃ g, Notes t s o root folder name g ∧ g.isFolder = true) ∧
      Opens t o root entered files (folder ++ [name]) ∧
        ∃ way last, Open t s o root entered files (folder ++ [name]) way ∧ Notes t s o root way last f

/-- Files that a walk adds at ways of some kind, in order. -/
structure Extends (on : Location → Prop) (files : List PackageFile) (w w' : Walk) : Prop where
  listed : w'.listed = files.reverse ++ w.listed
  within : ∀ f ∈ files, on f.way
  sorted : files.Pairwise fun f g => f.way.before g.way = true
  entered : ∀ x, x ∈ w'.entered ↔ x ∈ w.entered ∨ Resolves t o root files x

end

section
variable {t : Tree} {s : Settings} {o : SearchOptions} {root : Path} {way folder : Location}
  {name : Text} {f g : PackageFile} {files later : List PackageFile} {entered : List Path}
  {w w' w'' : Walk}

/-! ## Notes -/

theorem Notes.looksAt (h : Notes t s o root way name f) : LooksAt t s o root way name := by
  cases h with
  | file hlook _ => exact hlook
  | folder hlook _ _ => exact hlook

theorem Notes.unique (h : Notes t s o root way name f) (h' : Notes t s o root way name g) : f = g := by
  cases h with
  | file _ hst =>
    cases h' with
    | file _ hst' =>
      cases hst.symm.trans hst'
      rfl
    | folder _ hst' _ => exact nomatch hst.symm.trans hst'
  | folder _ hst _ =>
    cases h' with
    | file _ hst' => exact nomatch hst.symm.trans hst'
    | folder _ _ _ => rfl

theorem Notes.path_eq (h : Notes t s o root way name f) : f.path = Text.join "/" (way ++ [name]) := by
  cases h <;> rfl

theorem Notes.isPart (hn : Named t) (h : Notes t s o root way name f) : Path.IsPart name := by
  obtain ⟨place, -, hname, -⟩ := h.looksAt
  exact (hn.of_get? (Tree.mem_names.mp hname) name (by simp)).1.1

theorem Notes.way_eq (hn : Named t) (hway : ∀ x ∈ way, Path.IsPart x)
    (h : Notes t s o root way name f) : f.way = way ++ [name] := by
  have hparts : ∀ x ∈ way ++ [name], Path.IsPart x :=
    List.forall_mem_append.mpr ⟨hway, List.forall_mem_singleton.mpr (h.isPart hn)⟩
  rw [PackageFile.way, h.path_eq]
  exact Path.namesIn_join hparts

theorem Open.prefix_of (h : Open t s o root entered files folder way) : folder <+: way := by
  induction h with
  | here => exact List.prefix_rfl
  | into _ _ _ ih => exact (List.prefix_append _ _).trans ih

theorem Open.isPart (hn : Named t) (hfolder : ∀ x ∈ folder, Path.IsPart x)
    (h : Open t s o root entered files folder way) : ∀ x ∈ way, Path.IsPart x := by
  induction h with
  | here => exact hfolder
  | into hnotes _ _ ih =>
    obtain ⟨f, hf, -⟩ := hnotes
    exact ih (List.forall_mem_append.mpr ⟨hfolder, List.forall_mem_singleton.mpr (hf.isPart hn)⟩)

theorem exists_open_iff : (∃ way last, Open t s o root entered files folder way ∧
    Notes t s o root way last f) ↔ ∃ name, ListsAt t s o root entered files folder name f := by
  constructor
  · rintro ⟨way, last, hopen, hlast⟩
    cases hopen with
    | here => exact ⟨last, .inl hlast⟩
    | into hnotes hopens hr => exact ⟨_, .inr ⟨hnotes, hopens, way, last, hr, hlast⟩⟩
  · rintro ⟨name, hname | ⟨hnotes, hopens, way, last, hr, hlast⟩⟩
    · exact ⟨folder, name, .here, hname⟩
    · exact ⟨way, last, .into hnotes hopens hr, hlast⟩

theorem ListsAt.looksAt (h : ListsAt t s o root entered files folder name f) :
    LooksAt t s o root folder name := by
  rcases h with hf | ⟨⟨g, hg, -⟩, -⟩
  · exact hf.looksAt
  · exact hg.looksAt

/-! ## Which directories are open -/

/-- What is listed later does not matter. -/
theorem opens_append_later (h : ∀ g ∈ later, g.way.before way = false) :
    Opens t o root entered (files ++ later) way ↔ Opens t o root entered files way := by
  constructor
  · rintro ⟨hlen, x, hx, hnot, hfresh⟩
    exact ⟨hlen, x, hx, hnot, fun f hf => hfresh f (List.mem_append_left later hf)⟩
  · rintro ⟨hlen, x, hx, hnot, hfresh⟩
    refine ⟨hlen, x, hx, hnot, fun f hf hisf hle hbefore => ?_⟩
    rcases List.mem_append.mp hf with hf | hf
    · exact hfresh f hf hisf hle hbefore
    · rw [h f hf] at hbefore
      cases hbefore

/-- What was listed earlier counts as what was entered. -/
theorem opens_append_earlier {earlier : List PackageFile} {entered' : List Path}
    (h : ∀ g ∈ earlier, g.way.before way = true)
    (he : ∀ x, x ∈ entered' ↔ x ∈ entered ∨ Resolves t o root earlier x) :
    Opens t o root entered (earlier ++ files) way ↔ Opens t o root entered' files way := by
  constructor
  · rintro ⟨hlen, x, hx, hnot, hfresh⟩
    refine ⟨hlen, x, hx, fun hm => ?_, fun f hf => hfresh f (List.mem_append_right earlier hf)⟩
    rcases (he x).mp hm with hm | ⟨f, hf, hisf, hle, hres⟩
    · exact hnot hm
    · exact hfresh f (List.mem_append_left files hf) hisf hle (h f hf) hres
  · rintro ⟨hlen, x, hx, hnot, hfresh⟩
    refine ⟨hlen, x, hx, fun hm => hnot ((he x).mpr (.inl hm)), fun f hf hisf hle hbefore hres => ?_⟩
    rcases List.mem_append.mp hf with hf | hf
    · exact hnot ((he x).mpr (.inr ⟨f, hf, hisf, hle, hres⟩))
    · exact hfresh f hf hisf hle hbefore hres

theorem Open.congr {entered' : List Path} {files' : List PackageFile}
    (hc : ∀ more, more ≠ [] → Opens t o root entered files (folder ++ more) →
      Opens t o root entered' files' (folder ++ more))
    (h : Open t s o root entered files folder way) :
    Open t s o root entered' files' folder way := by
  induction h with
  | here => exact .here
  | @into folder way name hnotes hopens _ ih =>
    refine .into hnotes (hc [name] (by simp) hopens) (ih fun more _ hm => ?_)
    rw [List.append_assoc] at hm ⊢
    exact hc (name :: more) (by simp) hm

theorem listsAt_congr {entered' : List Path} {files' : List PackageFile}
    (hc : ∀ more, Opens t o root entered files (folder ++ name :: more) ↔
      Opens t o root entered' files' (folder ++ name :: more)) :
    ListsAt t s o root entered files folder name f ↔
      ListsAt t s o root entered' files' folder name f := by
  have hmore (more : Location) : folder ++ [name] ++ more = folder ++ name :: more := by simp
  refine or_congr Iff.rfl (and_congr Iff.rfl (and_congr (hc []) ?_))
  refine exists_congr fun way => exists_congr fun last => and_congr ⟨fun h => ?_, fun h => ?_⟩ Iff.rfl
  · exact h.congr fun more _ hm => hmore more ▸ (hc more).mp (hmore more ▸ hm)
  · exact h.congr fun more _ hm => hmore more ▸ (hc more).mpr (hmore more ▸ hm)

/-! ## What is added -/

theorem resolves_append : ∀ x, Resolves t o root (files ++ later) x ↔
    Resolves t o root files x ∨ Resolves t o root later x := by
  intro x
  simp only [Resolves, List.mem_append, or_and_right, exists_or]

theorem Extends.nil : Extends t o root (fun _ => False) [] w w where
  listed := rfl
  within := nofun
  sorted := .nil
  entered x := by simp [Resolves]

theorem Extends.append {on on' : Location → Prop} (h : Extends t o root on files w w')
    (h' : Extends t o root on' later w' w'') (hlt : ∀ k l, on k → on' l → k.before l = true) :
    Extends t o root (fun way => on way ∨ on' way) (files ++ later) w w'' where
  listed := by rw [h'.listed, h.listed, List.reverse_append, List.append_assoc]
  within g hg := (List.mem_append.mp hg).imp (h.within g) (h'.within g)
  sorted := List.pairwise_append.mpr
    ⟨h.sorted, h'.sorted, fun f hf g hg => hlt _ _ (h.within f hf) (h'.within g hg)⟩
  entered x := by rw [h'.entered, h.entered, resolves_append, or_assoc]

theorem Extends.imp {on on' : Location → Prop} (h : Extends t o root on files w w')
    (hon : ∀ way, on way → on' way) : Extends t o root on' files w w' :=
  ⟨h.listed, fun f hf => hon _ (h.within f hf), h.sorted, h.entered⟩

theorem Extends.one (hl : w'.listed = f :: w.listed)
    (he : ∀ x, x ∈ w'.entered ↔ x ∈ w.entered ∨ Resolves t o root [f] x) :
    Extends t o root (· = f.way) [f] w w' where
  listed := hl
  within := List.forall_mem_singleton.mpr rfl
  sorted := List.pairwise_singleton _ f
  entered := he

theorem resolves_one {x : Path} : Resolves t o root [f] x ↔ f.isFolder = true ∧
    f.way.length ≤ o.maxDepth.toNat ∧ t.resolve (root.append f.way) = .ok x := by
  simp only [Resolves, List.mem_singleton, exists_eq_left]

end

/-- A way goes on from a directory by a name. -/
def Along (folder : Location) (name : Text) (way : Location) : Prop := ∃ more, way = folder ++ name :: more

theorem Along.before {folder k l : Location} {name other : Text} (hlt : Text.before name other = true)
    (hk : Along folder name k) (hl : Along folder other l) : k.before l = true := by
  obtain ⟨more, rfl⟩ := hk
  obtain ⟨more', rfl⟩ := hl
  exact Location.before_of_names folder more more' hlt

section
variable (t : Tree) (s : Settings) (o : SearchOptions) (root : Path)

/-- A walk through a directory adds what is listed at the names of some kind. -/
structure WalksThrough (folder : Location) (on : Text → Prop) (files : List PackageFile)
    (w w' : Walk) : Prop where
  adds : Extends t o root (fun way => ∃ name, on name ∧ Along folder name way) files w w'
  mem_iff : ∀ f, f ∈ files ↔ ∃ name, on name ∧ ListsAt t s o root w.entered files folder name f

/-- A walk that goes on below a directory, unless this is the last level, walks through what is
there. -/
def GoesBelow (descend : Descent) (folder : Location) : Prop :=
  match descend with
  | none => o.maxDepth.toNat ≤ folder.length
  | some below => folder.length < o.maxDepth.toNat ∧ ∀ name w w', Path.IsPart name →
      below (folder ++ [name]) w = .ok w' →
        ∃ files, WalksThrough t s o root (folder ++ [name]) (fun _ => True) files w w'

end

/-! ## One entry -/

section
variable {t : Tree} {s : Settings} {o : SearchOptions} {root : Path} {folder place : Location}
  {name : Text} {f : PackageFile} {w w' : Walk} {descend : Descent}

theorem looksAt_iff (hst : t.status (root.append folder) = .ok (place, .folder))
    (hname : name ∈ t.names place) : LooksAt t s o root folder name ↔ isListed s o name = true ∧
      (o.followLinks = true ∨ ∀ target, t.get? (place ++ [name]) ≠ some (.link target)) := by
  constructor
  · rintro ⟨place', hst', -, hlook⟩
    cases hst.symm.trans hst'
    exact hlook
  · exact fun hlook => ⟨place, hst, hname, hlook⟩

theorem visitEntry_of_skipped (hst : t.status (root.append folder) = .ok (place, .folder))
    (hname : name ∈ t.names place) (h : ¬ LooksAt t s o root folder name) :
    visitEntry t s o root descend folder place w name =
      if Tree.maxPathBytes < Name.size (root.append (folder ++ [name])).toText then
        .error (.refused .nameTooLong (root.append (folder ++ [name])).toText)
      else .ok w := by
  rw [looksAt_iff hst hname] at h
  unfold visitEntry
  by_cases hlisted : isListed s o name = true
  · have hoff : o.followLinks = false := by simpa using fun hon => h ⟨hlisted, .inl hon⟩
    obtain ⟨target, hk⟩ : ∃ target, t.get? (place ++ [name]) = some (.link target) := by
      by_contra hno
      exact h ⟨hlisted, .inr fun target hk => hno ⟨target, hk⟩⟩
    simp [hk, hoff]
  · simp [hlisted]

theorem visitEntry_of_looked (h : LooksAt t s o root folder name)
    (hst : t.status (root.append folder) = .ok (place, .folder)) :
    visitEntry t s o root descend folder place w name =
      if Tree.maxPathBytes < Name.size (root.append (folder ++ [name])).toText then
        .error (.refused .nameTooLong (root.append (folder ++ [name])).toText)
      else
        match t.status (root.append (folder ++ [name])) with
        | .error .nameTooLong => .error (.refused .nameTooLong (root.append (folder ++ [name])).toText)
        | .error _ => .ok w
        | .ok (_, .link _) => .ok w
        | .ok (_, .file bytes) =>
          .ok { w with listed := fileRecord o (Text.join "/" (folder ++ [name])) bytes :: w.listed }
        | .ok (_, .folder) =>
          if ignoredFolders.contains name then .ok w
          else
            enter t descend (folder ++ [name]) (root.append (folder ++ [name]))
              { w with listed := folderRecord (Text.join "/" (folder ++ [name])) :: w.listed } := by
  obtain ⟨place', hst', -, hlisted, hfollow⟩ := h
  cases hst.symm.trans hst'
  unfold visitEntry
  split
  · next target hk =>
    have hon : o.followLinks = true := hfollow.resolve_right fun hno => hno target hk
    simp only [hlisted, hon, Bool.not_true, Bool.and_false, Bool.or_false, Bool.false_eq_true, if_false]
    rfl
  · simp only [hlisted, Bool.not_true, Bool.false_and, Bool.or_false, Bool.false_eq_true, if_false]
    rfl

/-- A walk passes an entry over, notes it, or notes it and enters it. -/
theorem visitEntry_cases (hst : t.status (root.append folder) = .ok (place, .folder))
    (hname : name ∈ t.names place)
    (h : visitEntry t s o root descend folder place w name = .ok w') :
    (w' = w ∧ ∀ f, ¬ Notes t s o root folder name f) ∨ ∃ f, Notes t s o root folder name f ∧
      (f.isFolder = false ∧ w' = { w with listed := f :: w.listed } ∨
        f.isFolder = true ∧ enter t descend (folder ++ [name]) (root.append (folder ++ [name]))
          { w with listed := f :: w.listed } = .ok w') := by
  by_cases hlook : LooksAt t s o root folder name
  · -- nothing is noted of an entry that the file system calls neither a file nor a directory
    have hnone (hno : ∀ l bytes, t.status (root.append (folder ++ [name])) ≠ .ok (l, .file bytes))
        (hno' : ∀ l, t.status (root.append (folder ++ [name])) ≠ .ok (l, .folder)) (f : PackageFile) :
        ¬ Notes t s o root folder name f := by
      rintro (⟨-, hst⟩ | ⟨-, hst, -⟩)
      · exact hno _ _ hst
      · exact hno' _ hst
    rw [visitEntry_of_looked hlook hst] at h
    split at h
    · cases h
    · split at h
      · cases h
      · next hst' => exact .inl ⟨(Except.ok.inj h).symm, hnone (by simp [hst']) (by simp [hst'])⟩
      · next hst' => exact .inl ⟨(Except.ok.inj h).symm, hnone (by simp [hst']) (by simp [hst'])⟩
      · next hst' => exact .inr ⟨_, .file hlook hst', .inl ⟨rfl, (Except.ok.inj h).symm⟩⟩
      · next hst' =>
        split at h
        · next hi =>
          refine .inl ⟨(Except.ok.inj h).symm, fun f hf => ?_⟩
          cases hf with
          | file _ hst => exact nomatch hst'.symm.trans hst
          | folder _ _ hnot => exact hnot (List.contains_iff_mem.mp hi)
        · next hi =>
          exact .inr ⟨_, .folder hlook hst' fun hm => hi (List.contains_iff_mem.mpr hm), .inr ⟨rfl, h⟩⟩
  · rw [visitEntry_of_skipped hst hname hlook] at h
    split at h
    · cases h
    · exact .inl ⟨(Except.ok.inj h).symm, fun f hf => hlook hf.looksAt⟩

/-- A directory is entered unless this is the last level or it was entered before. -/
theorem enter_cases {way : Location} {p : Path} (h : enter t descend way p w = .ok w') :
    (w' = w ∧ (descend = none ∨ ∃ x ∈ w.entered, t.resolve p = .ok x)) ∨
      ∃ below x, descend = some below ∧ t.resolve p = .ok x ∧ x ∉ w.entered ∧
        below way { w with entered := x :: w.entered } = .ok w' := by
  unfold enter at h
  split at h
  · exact .inl ⟨(Except.ok.inj h).symm, .inl rfl⟩
  · next below =>
    split at h
    · cases h
    · next x hx =>
      split at h
      · next hm =>
        exact .inl ⟨(Except.ok.inj h).symm, .inr ⟨x, List.contains_iff_mem.mp hm, hx⟩⟩
      · next hm => exact .inr ⟨below, x, rfl, hx, fun hin => hm (List.contains_iff_mem.mpr hin), h⟩

/-- An entry is noted and nothing else is added: neither is it a directory that is open. -/
theorem walksThrough_note (hf : Notes t s o root folder name f) (hway : f.way = folder ++ [name])
    (h : ∀ x, Resolves t o root [f] x → x ∈ w.entered) :
    WalksThrough t s o root folder (· = name) [f] w { w with listed := f :: w.listed } where
  adds := by
    have hone : Extends t o root (· = f.way) [f] w { w with listed := f :: w.listed } :=
      .one rfl fun x => (or_iff_left_of_imp (h x)).symm
    exact hone.imp fun way hw => ⟨name, rfl, [], hw.trans hway⟩
  mem_iff g := by
    rw [List.mem_singleton, exists_eq_left]
    constructor
    · rintro rfl
      exact .inl hf
    · rintro (hg | ⟨⟨f', hf', hisf⟩, ⟨hlen, x, hx, hnot, -⟩, -⟩)
      · exact hg.unique hf
      · obtain rfl := hf'.unique hf
        exact absurd (h x (resolves_one.mpr (by rw [hway]; exact ⟨hisf, hlen, hx⟩))) hnot

/-- A directory is noted and entered: what is listed there is added behind it. -/
theorem walksThrough_into {x : Path} {below : List PackageFile}
    (hf : Notes t s o root folder name f) (hisf : f.isFolder = true)
    (hway : f.way = folder ++ [name]) (hlen : folder.length < o.maxDepth.toNat)
    (hx : t.resolve (root.append (folder ++ [name])) = .ok x) (hnot : x ∉ w.entered)
    (h : WalksThrough t s o root (folder ++ [name]) (fun _ => True) below
      ⟨f :: w.listed, x :: w.entered⟩ w') :
    WalksThrough t s o root folder (· = name) (f :: below) w w' := by
  have hlen' : (folder ++ [name]).length ≤ o.maxDepth.toNat := by
    rw [List.length_append, List.length_singleton]
    exact hlen
  have he (y : Path) : y ∈ x :: w.entered ↔ y ∈ w.entered ∨ Resolves t o root [f] y := by
    rw [resolves_one, hway, hx, List.mem_cons, or_comm, Except.ok.injEq]
    simp only [hisf, hlen', true_and, eq_comm]
  have hone : Extends t o root (· = f.way) [f] w ⟨f :: w.listed, x :: w.entered⟩ := .one rfl he
  have hafter : ∀ more, more ≠ [] → f.way.before (folder ++ [name] ++ more) = true := by
    intro more hmore
    rw [hway]
    exact Location.before_of_below _ hmore
  -- what was entered before the directory's entries is what was entered before, and the directory
  have hopens : ∀ more, more ≠ [] → (Opens t o root w.entered (f :: below) (folder ++ [name] ++ more) ↔
      Opens t o root (x :: w.entered) below (folder ++ [name] ++ more)) := fun more hmore =>
    opens_append_earlier (List.forall_mem_singleton.mpr (hafter more hmore)) he
  constructor
  · refine (hone.append h.adds ?_).imp ?_
    · rintro _ _ rfl ⟨last, -, more, rfl⟩
      exact hafter (last :: more) (List.cons_ne_nil last more)
    · rintro way (rfl | ⟨last, -, more, rfl⟩)
      · exact ⟨name, rfl, [], hway⟩
      · exact ⟨name, rfl, last :: more, by simp⟩
  · intro g
    have hbelow : g ∈ below ↔ ∃ way last, Open t s o root w.entered (f :: below) (folder ++ [name]) way ∧
        Notes t s o root way last g := by
      rw [h.mem_iff g]
      simp only [true_and, ← exists_open_iff]
      refine exists_congr fun way => exists_congr fun last => and_congr ⟨fun ho => ?_, fun ho => ?_⟩ Iff.rfl
      · exact ho.congr fun more hmore => (hopens more hmore).mpr
      · exact ho.congr fun more hmore => (hopens more hmore).mp
    have hself : Opens t o root w.entered (f :: below) (folder ++ [name]) := by
      refine ⟨hlen', x, hx, hnot, fun g hg _ _ hbefore => ?_⟩
      rcases List.mem_cons.mp hg with rfl | hg
      · rw [hway, Location.ordered.self] at hbefore
        cases hbefore
      · obtain ⟨last, -, more, hg⟩ := h.adds.within g hg
        have hlater := hafter (last :: more) (List.cons_ne_nil last more)
        rw [← hg, hway] at hlater
        rw [Location.ordered.asymm hlater] at hbefore
        cases hbefore
    rw [List.mem_cons, hbelow, exists_eq_left]
    constructor
    · rintro (rfl | hg)
      · exact .inl hf
      · exact .inr ⟨⟨f, hf, hisf⟩, hself, hg⟩
    · rintro (hg | ⟨-, -, hg⟩)
      · exact .inl (hg.unique hf)
      · exact .inr hg

theorem walksThrough_entry (hn : Named t) (hfolder : ∀ x ∈ folder, Path.IsPart x)
    (hst : t.status (root.append folder) = .ok (place, .folder)) (hname : name ∈ t.names place)
    (hd : GoesBelow t s o root descend folder)
    (h : visitEntry t s o root descend folder place w name = .ok w') :
    ∃ files, WalksThrough t s o root folder (· = name) files w w' := by
  rcases visitEntry_cases hst hname h with ⟨rfl, hno⟩ | ⟨f, hf, ⟨hfile, rfl⟩ | ⟨hisf, henter⟩⟩
  · refine ⟨[], Extends.nil.imp nofun, fun f => ?_⟩
    simp only [List.not_mem_nil, exists_eq_left, false_iff]
    rintro (hf | ⟨⟨g, hg, -⟩, -⟩)
    · exact hno f hf
    · exact hno g hg
  · refine ⟨[f], walksThrough_note hf (hf.way_eq hn hfolder) fun x hx => ?_⟩
    rw [resolves_one, hfile] at hx
    exact nomatch hx.1
  · have hway := hf.way_eq hn hfolder
    rcases enter_cases henter with ⟨rfl, hwhy⟩ | ⟨below, x, rfl, hx, hnot, hbelow⟩
    · refine ⟨[f], walksThrough_note hf hway fun x hx => ?_⟩
      obtain ⟨-, hlen, hx⟩ := resolves_one.mp hx
      rcases hwhy with rfl | ⟨y, hy, hres⟩
      · -- the last level: the directory is too deep
        rw [hway, List.length_append, List.length_singleton] at hlen
        exact absurd hlen (Nat.not_le.mpr (Nat.lt_succ_of_le hd))
      · rw [hway, hres] at hx
        exact Except.ok.inj hx ▸ hy
    · obtain ⟨files, hfiles⟩ := hd.2 name _ _ (hf.isPart hn) hbelow
      exact ⟨f :: files, walksThrough_into hf hisf hway hd.1 hx hnot hfiles⟩

/-! ## Whole directories -/

/-- What is added at a name comes before what is added at later ones. -/
theorem WalksThrough.append {w'' : Walk} {files others : List PackageFile} {rest : List Text}
    (h : WalksThrough t s o root folder (· = name) files w w')
    (h' : WalksThrough t s o root folder (· ∈ rest) others w' w'')
    (hlater : ∀ other ∈ rest, Text.before name other = true) :
    WalksThrough t s o root folder (· ∈ name :: rest) (files ++ others) w w'' where
  adds := by
    refine (h.adds.append h'.adds ?_).imp ?_
    · rintro k l ⟨_, rfl, hk⟩ ⟨other, hother, hl⟩
      exact hk.before (hlater other hother) hl
    · rintro way (⟨_, rfl, hway⟩ | ⟨other, hother, hway⟩)
      · exact ⟨_, List.mem_cons_self, hway⟩
      · exact ⟨other, List.mem_cons_of_mem name hother, hway⟩
  mem_iff f := by
    have hfirst (more : Location) : ∀ g ∈ others, g.way.before (folder ++ name :: more) = false := by
      intro g hg
      obtain ⟨other, hother, hway⟩ := h'.adds.within g hg
      exact Location.ordered.asymm (Along.before (hlater other hother) ⟨more, rfl⟩ hway)
    have hothers {other : Text} (hother : other ∈ rest) (more : Location) :
        ∀ g ∈ files, g.way.before (folder ++ other :: more) = true := by
      intro g hg
      obtain ⟨_, rfl, hway⟩ := h.adds.within g hg
      exact hway.before (hlater other hother) ⟨more, rfl⟩
    rw [List.mem_append, h.mem_iff, h'.mem_iff, exists_eq_left]
    simp only [List.mem_cons, or_and_right, exists_or, exists_eq_left]
    refine or_congr (listsAt_congr fun more => (opens_append_later (hfirst more)).symm) ?_
    refine exists_congr fun other => and_congr_right fun hother => listsAt_congr fun more => ?_
    exact (opens_append_earlier (hothers hother more) h.adds.entered).symm

theorem walksThrough_entries (hn : Named t) (hfolder : ∀ x ∈ folder, Path.IsPart x)
    (hst : t.status (root.append folder) = .ok (place, .folder))
    (hd : GoesBelow t s o root descend folder) {names : List Text}
    (hordered : names.Pairwise fun a b => Text.before a b = true) (hall : ∀ x ∈ names, x ∈ t.names place)
    (h : names.foldlM (visitEntry t s o root descend folder place) w = .ok w') :
    ∃ files, WalksThrough t s o root folder (· ∈ names) files w w' := by
  induction names generalizing w with
  | nil =>
    cases h
    exact ⟨[], Extends.nil.imp nofun, fun f => by simp⟩
  | cons name rest ih =>
    obtain ⟨hlater, hordered⟩ := List.pairwise_cons.mp hordered
    obtain ⟨v, hv, h⟩ := foldlM_cons_eq_ok.mp h
    obtain ⟨files, hfiles⟩ := walksThrough_entry hn hfolder hst (hall name List.mem_cons_self) hd hv
    obtain ⟨others, hothers⟩ := ih hordered (fun x hx => hall x (List.mem_cons_of_mem name hx)) h
    refine ⟨files ++ others, hfiles.append hothers hlater⟩

/-- **What a walk through a directory adds is what is listed there.** -/
theorem walksThrough_folder (hn : Named t) (hfolder : ∀ x ∈ folder, Path.IsPart x)
    (hd : GoesBelow t s o root descend folder)
    (h : visitFolder t s o root descend folder w = .ok w') :
    ∃ files, WalksThrough t s o root folder (fun _ => True) files w w' := by
  unfold visitFolder at h
  split at h
  · next place hst =>
    obtain ⟨files, hfiles⟩ := walksThrough_entries hn hfolder hst hd
      (Tree.pairwise_names hn.once place) (fun _ hx => hx) h
    refine ⟨files, hfiles.adds.imp fun way ⟨name, _, hway⟩ => ⟨name, trivial, hway⟩, fun f => ?_⟩
    rw [hfiles.mem_iff]
    refine exists_congr fun name => ⟨fun ⟨_, hf⟩ => ⟨trivial, hf⟩, fun ⟨_, hf⟩ => ⟨?_, hf⟩⟩
    obtain ⟨place', hst', hname, -⟩ := hf.looksAt
    cases hst.symm.trans hst'
    exact hname
  · next hno =>
    cases h
    refine ⟨[], ⟨Extends.nil.imp nofun, fun f => ?_⟩⟩
    simp only [List.not_mem_nil, true_and, false_iff]
    rintro ⟨name, hf⟩
    obtain ⟨place, hst, -⟩ := hf.looksAt
    exact hno place hst

theorem walksThrough_visit (hn : Named t) : ∀ (levels : Nat) (folder : Location) (w w' : Walk),
    (∀ x ∈ folder, Path.IsPart x) → folder.length + levels = o.maxDepth.toNat →
      visit t s o root levels folder w = .ok w' →
        ∃ files, WalksThrough t s o root folder (fun _ => True) files w w'
  | 0, folder, w, w', hfolder, hlen, h => by
    have hd : GoesBelow t s o root none folder := Nat.le_of_eq hlen.symm
    exact walksThrough_folder hn hfolder hd h
  | levels + 1, folder, w, w', hfolder, hlen, h => by
    have hd : GoesBelow t s o root (some (visit t s o root levels)) folder := by
      refine ⟨by omega, fun name w w' hname h => ?_⟩
      refine walksThrough_visit hn levels (folder ++ [name]) w w' ?_ ?_ h
      · exact List.forall_mem_append.mpr ⟨hfolder, List.forall_mem_singleton.mpr hname⟩
      · rw [List.length_append, List.length_singleton]
        omega
    exact walksThrough_folder hn hfolder hd h

/-- **What a walk lists** are the entries of its open directories, in depth-first order. -/
theorem of_listing {files : List PackageFile} (hn : Named t) (h : listing t s o root = .ok files) :
    (files.Pairwise fun f g => f.way.before g.way = true) ∧
      ∀ f, f ∈ files ↔ ∃ way name, Open t s o root [root] files [] way ∧
        Notes t s o root way name f := by
  unfold listing at h
  cases hv : visit t s o root o.maxDepth.toNat [] ⟨[], [root]⟩ with
  | error f => rw [hv] at h; cases h
  | ok w =>
    rw [hv] at h
    obtain ⟨found, hfound⟩ := walksThrough_visit hn o.maxDepth.toNat [] _ w nofun (by simp) hv
    obtain rfl : w.listed.reverse = files := Except.ok.inj h
    obtain rfl : w.listed.reverse = found := by
      rw [hfound.adds.listed, List.append_nil, List.reverse_reverse]
    refine ⟨hfound.adds.sorted, fun f => ?_⟩
    rw [hfound.mem_iff, exists_open_iff]
    simp only [true_and]

end

end Listing

end PackageAudit
