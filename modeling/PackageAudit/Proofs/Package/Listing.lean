import PackageAudit.Proofs.Package.Records
import PackageAudit.Proofs.Tree.Access

/-! # What a listing answers

A listing goes through a directory once (`Adds` and `Fresh`: what is at one name leaves the other
names alone), and at each entry does what the entry's record says (`visitEntry_of_fits`).
`listing_eq_ok`: what it answers are the `records` of the directory, and it fails only for a path or
a name that is too long.
-/

namespace PackageAudit

open PackageAudit.Tree (Sound Named NoLinks)

namespace Listing

/-- What a walk has added at a way and below it. -/
structure Adds (root : Path) (way : Location) (files : List PackageFile) (w w' : Walk) : Prop where
  listed : w'.listed = files.reverse ++ w.listed
  entered : ∀ q ∈ w'.entered, q ∈ w.entered ∨ ∃ more, q = root.append (way ++ more)

/-- Nothing at a way or below it has been entered. -/
def Fresh (root : Path) (way : Location) (w : Walk) : Prop :=
  ∀ more, root.append (way ++ more) ∉ w.entered

section
variable {root : Path} {way : Location} {w w' w'' : Walk}

theorem Adds.refl : Adds root way [] w w := ⟨rfl, fun _ hq => .inl hq⟩

theorem Adds.trans {files files' : List PackageFile} (h : Adds root way files w w')
    (h' : Adds root way files' w' w'') : Adds root way (files ++ files') w w'' where
  listed := by rw [h'.listed, h.listed, List.reverse_append, List.append_assoc]
  entered q hq := (h'.entered q hq).elim (h.entered q) .inr

theorem Adds.up {files : List PackageFile} {name : Text}
    (h : Adds root (way ++ [name]) files w w') : Adds root way files w w' where
  listed := h.listed
  entered q hq := (h.entered q hq).imp_right fun ⟨more, he⟩ =>
    ⟨name :: more, by rw [he, List.append_assoc, List.singleton_append]⟩

/-- What was added at one name of a directory leaves the other names fresh. -/
theorem Adds.fresh {files : List PackageFile} {name other : Text} (hne : other ≠ name)
    (h : Adds root (way ++ [name]) files w w') (hf : Fresh root (way ++ [other]) w) :
    Fresh root (way ++ [other]) w' := by
  intro more hm
  rcases h.entered _ hm with hm | ⟨more', he⟩
  · exact hf more hm
  · have hway := Path.append_inj he
    rw [List.append_assoc, List.append_assoc, List.append_cancel_left_eq] at hway
    exact hne (List.cons.inj hway).1

end

/-! ## One entry -/

section
variable {t : Tree} {s : Settings} {o : SearchOptions} {root : Path} {base folder : Location}
  {name : Text} {w w' : Walk}

/-- The walk after the record of an entry, if it has one. -/
def Walk.noting (w : Walk) (f : Option PackageFile) : Walk :=
  { w with listed := f.toList ++ w.listed }

theorem status_entry (hn : Named t)
    (hf : t.status (root.append folder) = .ok (base ++ folder, .folder))
    (he : t.get? (base ++ folder ++ [name]) ≠ none)
    (hlink : ∀ target, t.get? (base ++ folder ++ [name]) ≠ some (.link target)) :
    t.status (root.append (folder ++ [name])) =
      if Tree.maxPathBytes < Name.size (root.append (folder ++ [name])).toText ∨
        Tree.maxNameBytes < Name.size name then .error .nameTooLong
      else t.occupied (base ++ folder ++ [name]) := by
  obtain ⟨hstep, hplain, -⟩ := hn.of_get? he name (by simp)
  have hst := Tree.status_child hf hstep (by rwa [hplain])
  rwa [hplain, Path.append_append] at hst

theorem visitEntry_of_fits (hn : Named t) (hl : o.followLinks = false ∨ NoLinks t)
    (hf : t.status (root.append folder) = .ok (base ++ folder, .folder))
    (he : t.get? (base ++ folder ++ [name]) ≠ none) (hfits : Fits t s o base root folder name)
    (descend : Descent) :
    visitEntry t s o root descend folder (base ++ folder) w name =
      if (record? t s o base folder name).any (·.isFolder) then
        enter t descend (folder ++ [name]) (root.append (folder ++ [name]))
          (w.noting (record? t s o base folder name))
      else .ok (w.noting (record? t s o base folder name)) := by
  have hpath := Nat.not_lt.mpr hfits.path
  unfold visitEntry record?
  simp only [hpath, if_false]
  by_cases hlisted : isListed s o name = true
  · cases hk : t.get? (base ++ folder ++ [name]) with
    | none => exact absurd hk he
    | some e =>
      by_cases hlink : ∃ target, e = .link target
      · obtain ⟨target, rfl⟩ := hlink
        have hfollow := hl.resolve_right fun h => h _ target hk
        simp [hfollow, hlisted, Walk.noting]
      · have hno : ∀ target, t.get? (base ++ folder ++ [name]) ≠ some (.link target) :=
          fun target h => hlink ⟨target, Option.some.inj (hk.symm.trans h)⟩
        have hsize := Nat.not_lt.mpr (hfits.name hlisted hno)
        have hst := status_entry hn hf he hno
        rw [if_neg (not_or.mpr ⟨hpath, hsize⟩), Tree.occupied, hk] at hst
        cases e with
        | link target => exact absurd ⟨target, rfl⟩ hlink
        | file bytes => simp [hst, hlisted, Walk.noting, fileRecord]
        | folder =>
          by_cases hi : name ∈ ignoredFolders
          · simp [hst, hlisted, hi, Walk.noting]
          · simp [hst, hlisted, hi, Walk.noting, folderRecord]
  · simp [hlisted, Walk.noting]

theorem fits_of_visitEntry (hn : Named t)
    (hf : t.status (root.append folder) = .ok (base ++ folder, .folder))
    (he : t.get? (base ++ folder ++ [name]) ≠ none) {descend : Descent}
    (h : visitEntry t s o root descend folder (base ++ folder) w name = .ok w') :
    Fits t s o base root folder name := by
  have hpath : ¬ Tree.maxPathBytes < Name.size (root.append (folder ++ [name])).toText := by
    intro hp
    simp [visitEntry, hp] at h
  refine ⟨Nat.le_of_not_lt hpath, fun hlisted hlink => Nat.le_of_not_lt fun hsize => ?_⟩
  have hst := status_entry hn hf he hlink
  rw [if_pos (.inr hsize)] at hst
  cases hk : t.get? (base ++ folder ++ [name]) with
  | none => exact he hk
  | some e =>
    cases e with
    | link target => exact hlink target hk
    | file bytes => simp [visitEntry, hpath, hlisted, hst, hk, -List.append_assoc] at h
    | folder => simp [visitEntry, hpath, hlisted, hst, hk, -List.append_assoc] at h

/-! ## Whole directories -/

theorem status_of_enters (hn : Named t)
    (hf : t.status (root.append folder) = .ok (base ++ folder, .folder))
    (h : Enters t s o base folder name) (hfits : Fits t s o base root folder name) :
    t.status (root.append (folder ++ [name])) = .ok (base ++ (folder ++ [name]), .folder) := by
  obtain ⟨hlisted, hk, -⟩ := h
  have hno : ∀ target, t.get? (base ++ folder ++ [name]) ≠ some (.link target) := by
    rw [hk]
    exact nofun
  have hst := status_entry hn hf (by rw [hk]; exact nofun) hno
  rw [if_neg (not_or.mpr ⟨Nat.not_lt.mpr hfits.path, Nat.not_lt.mpr (hfits.name hlisted hno)⟩),
    Tree.occupied, hk] at hst
  rw [hst, List.append_assoc]

theorem Reaches.status {levels : Nat} {way : Location} (hn : Named t)
    (hfits : AllFit t s o base root levels folder)
    (hf : t.status (root.append folder) = .ok (base ++ folder, .folder))
    (h : Reaches t s o base levels folder way) :
    t.status (root.append way) = .ok (base ++ way, .folder) := by
  induction h with
  | here => exact hf
  | into hin _ ih =>
    obtain ⟨hfit, hbelow⟩ := allFit_succ.mp hfits _
    exact ih (hbelow hin) (status_of_enters hn hf hin (hfit (by rw [hin.2.1]; exact nofun)))

theorem read_of_record {levels : Nat} {way : Location} {bytes : List UInt8} (hg : t.Ground root base)
    (hn : Named t) (hfits : AllFit t s o base root levels []) (h : Reaches t s o base levels [] way)
    (hlisted : isListed s o name = true)
    (hk : t.get? (base ++ way ++ [name]) = some (.file bytes)) :
    t.read (root.append (way ++ [name])) = .ok bytes := by
  have he : t.get? (base ++ way ++ [name]) ≠ none := by
    rw [hk]
    exact nofun
  have hlink : ∀ target, t.get? (base ++ way ++ [name]) ≠ some (.link target) := by
    rw [hk]
    exact nofun
  have hfit := hfits way name h he
  have hst := status_entry hn (h.status hn hfits (by simpa using hg.folder)) he hlink
  rw [if_neg (not_or.mpr ⟨Nat.not_lt.mpr hfit.path, Nat.not_lt.mpr (hfit.name hlisted hlink)⟩),
    Tree.occupied, hk] at hst
  refine Tree.read_eq_ok.mpr ⟨hg.vet_append fun x hx => ?_, _, hst⟩
  exact (hn.of_get? he x (by rw [List.append_assoc]; exact List.mem_append_right base hx)).2.2

theorem enter_some (hg : t.Ground root base) (hs : Sound t) (hn : Named t) {way : Location}
    (hway : t.get? (base ++ way) = some .folder) (hw : Fresh root way w)
    (below : Location → Walk → Except FileFault Walk) :
    enter t (some below) way (root.append way) w =
      below way { w with entered := root.append way :: w.entered } := by
  have hnot : root.append way ∉ w.entered := by simpa using hw []
  simp [enter, hg.resolve_append hs hn hway, hnot]

theorem Fresh.entering {way : Location} (hw : Fresh root way w) (name : Text) :
    Fresh root (way ++ [name]) { w with entered := root.append way :: w.entered } := by
  intro more hm
  rcases List.mem_cons.mp hm with he | hm
  · have := congrArg List.length (Path.append_inj he)
    simp at this
  · exact hw ([name] ++ more) (by rwa [← List.append_assoc])

section
variable {descend : Descent} {below : Location → List PackageFile} {fit : Location → Prop}

/-- What entering directories adds, and that all fits there. -/
def Descends (t : Tree) (root : Path) (base : Location) (descend : Descent)
    (below : Location → List PackageFile) (fit : Location → Prop) : Prop :=
  ∀ way w w', t.status (root.append way) = .ok (base ++ way, .folder) → Fresh root way w →
    enter t descend way (root.append way) w = .ok w' → Adds root way (below way) w w' ∧ fit way

theorem adds_visitEntry (hn : Named t) (hl : o.followLinks = false ∨ NoLinks t)
    (hd : Descends t root base descend below fit)
    (hf : t.status (root.append folder) = .ok (base ++ folder, .folder))
    (he : t.get? (base ++ folder ++ [name]) ≠ none) (hw : Fresh root (folder ++ [name]) w)
    (h : visitEntry t s o root descend folder (base ++ folder) w name = .ok w') :
    Adds root (folder ++ [name]) (recordsOf t s o base below folder name) w w' ∧
      Fits t s o base root folder name ∧
        (Enters t s o base folder name → fit (folder ++ [name])) := by
  have hfits := fits_of_visitEntry hn hf he h
  have hnote (f : Option PackageFile) : Adds root (folder ++ [name]) f.toList w (w.noting f) :=
    ⟨by cases f <;> rfl, fun _ hq => .inl hq⟩
  rw [visitEntry_of_fits hn hl hf he hfits] at h
  unfold recordsOf
  split at h
  · next hfolder =>
    have hin := record?_isFolder.mp hfolder
    have hst := status_of_enters hn hf hin hfits
    obtain ⟨f, hf', hisf⟩ : ∃ f, record? t s o base folder name = some f ∧ f.isFolder = true := by
      cases hr : record? t s o base folder name with
      | none => rw [hr] at hfolder; cases hfolder
      | some f => exact ⟨f, rfl, by rw [hr] at hfolder; exact hfolder⟩
    obtain ⟨hadd, hfit⟩ := hd _ (w.noting (record? t s o base folder name)) w' hst hw h
    refine ⟨?_, hfits, fun _ => hfit⟩
    have hall := (hnote (record? t s o base folder name)).trans hadd
    simp only [hf', hisf, if_true]
    rw [hf'] at hall
    exact hall
  · next hfolder =>
    cases h
    refine ⟨?_, hfits, fun hin => absurd (record?_isFolder.mpr hin) hfolder⟩
    have hall := hnote (record? t s o base folder name)
    cases hr : record? t s o base folder name with
    | none => rw [hr] at hall; exact hall
    | some f =>
      rw [hr] at hall hfolder
      have hisf : f.isFolder = false := by simpa using hfolder
      simp only [hisf]
      exact hall

theorem adds_visitEntries (hn : Named t) (hl : o.followLinks = false ∨ NoLinks t)
    (hd : Descends t root base descend below fit)
    (hf : t.status (root.append folder) = .ok (base ++ folder, .folder)) {names : List Text}
    (hnodup : names.Nodup) (he : ∀ name ∈ names, t.get? (base ++ folder ++ [name]) ≠ none)
    (hw : ∀ name ∈ names, Fresh root (folder ++ [name]) w)
    (h : names.foldlM (visitEntry t s o root descend folder (base ++ folder)) w = .ok w') :
    Adds root folder (names.flatMap (recordsOf t s o base below folder)) w w' ∧
      ∀ name ∈ names, Fits t s o base root folder name ∧
        (Enters t s o base folder name → fit (folder ++ [name])) := by
  induction names generalizing w with
  | nil =>
    cases h
    exact ⟨.refl, nofun⟩
  | cons name rest ih =>
    obtain ⟨hnot, hnodup⟩ := List.nodup_cons.mp hnodup
    obtain ⟨v, hv, h⟩ := foldlM_cons_eq_ok.mp h
    obtain ⟨hadd, hfit⟩ := adds_visitEntry hn hl hd hf (he name List.mem_cons_self)
      (hw name List.mem_cons_self) hv
    have hfresh : ∀ other ∈ rest, Fresh root (folder ++ [other]) v := fun other hm =>
      hadd.fresh (fun he : other = name => hnot (he ▸ hm)) (hw other (List.mem_cons_of_mem name hm))
    obtain ⟨hadds, hfits⟩ :=
      ih hnodup (fun x hx => he x (List.mem_cons_of_mem name hx)) hfresh h
    refine ⟨hadd.up.trans hadds, fun x hx => ?_⟩
    rcases List.mem_cons.mp hx with rfl | hx
    · exact hfit
    · exact hfits x hx

theorem adds_visitFolder (hn : Named t) (hl : o.followLinks = false ∨ NoLinks t)
    (hd : Descends t root base descend below fit)
    (hf : t.status (root.append folder) = .ok (base ++ folder, .folder))
    (hw : ∀ name, Fresh root (folder ++ [name]) w)
    (h : visitFolder t s o root descend folder w = .ok w') :
    Adds root folder ((t.names (base ++ folder)).flatMap (recordsOf t s o base below folder)) w w' ∧
      ∀ name, t.get? (base ++ folder ++ [name]) ≠ none → Fits t s o base root folder name ∧
        (Enters t s o base folder name → fit (folder ++ [name])) := by
  unfold visitFolder at h
  rw [hf] at h
  obtain ⟨hadds, hfits⟩ := adds_visitEntries hn hl hd hf (Tree.nodup_names hn.once (base ++ folder))
    (fun name hm => Tree.mem_names.mp hm) (fun name _ => hw name) h
  exact ⟨hadds, fun name he => hfits name (Tree.mem_names.mpr he)⟩

end

theorem descends_none : Descends t root base none (fun _ => []) (fun _ => True) := by
  intro way w w' _ _ h
  cases h
  exact ⟨.refl, trivial⟩

theorem descends_some (hg : t.Ground root base) (hs : Sound t) (hn : Named t)
    {visit : Location → Walk → Except FileFault Walk} {below : Location → List PackageFile}
    {fit : Location → Prop}
    (hv : ∀ way w w', t.status (root.append way) = .ok (base ++ way, .folder) →
      (∀ name, Fresh root (way ++ [name]) w) → visit way w = .ok w' →
      Adds root way (below way) w w' ∧ fit way) :
    Descends t root base (some visit) below fit := by
  intro way w w' hst hw h
  rw [enter_some hg hs hn (Tree.status_eq_ok.mp hst).2 hw] at h
  obtain ⟨hadds, hfit⟩ := hv way _ w' hst hw.entering h
  refine ⟨⟨hadds.listed, fun q hq => ?_⟩, hfit⟩
  rcases hadds.entered q hq with hq | hq
  · rcases List.mem_cons.mp hq with rfl | hq
    · exact .inr ⟨[], by simp⟩
    · exact .inl hq
  · exact .inr hq

/-- What a walk has listed, and that all that it met fits. -/
theorem adds_visit (hg : t.Ground root base) (hs : Sound t) (hn : Named t)
    (hl : o.followLinks = false ∨ NoLinks t) :
    ∀ (levels : Nat) (folder : Location) (w w' : Walk),
      t.status (root.append folder) = .ok (base ++ folder, .folder) →
      (∀ name, Fresh root (folder ++ [name]) w) → visit t s o root levels folder w = .ok w' →
      Adds root folder (records t s o base levels folder) w w' ∧
        AllFit t s o base root levels folder
  | 0, _, _, _, hf, hw, h => by
    obtain ⟨hadds, hfits⟩ := adds_visitFolder hn hl descends_none hf hw h
    exact ⟨hadds, allFit_zero.mpr fun name he => (hfits name he).1⟩
  | levels + 1, _, _, _, hf, hw, h => by
    have hd := descends_some hg hs hn (adds_visit hg hs hn hl levels)
    obtain ⟨hadds, hfits⟩ := adds_visitFolder hn hl hd hf hw h
    refine ⟨hadds, allFit_succ.mpr fun name => ⟨fun he => (hfits name he).1, fun hin => ?_⟩⟩
    exact (hfits name (by rw [hin.2.1]; exact nofun)).2 hin

/-! ## Listings that succeed -/

/-- Directories that can be entered. -/
def Enterable (t : Tree) (root : Path) (base : Location) (descend : Descent)
    (fit : Location → Prop) : Prop :=
  ∀ way w, t.status (root.append way) = .ok (base ++ way, .folder) → Fresh root way w → fit way →
    ∃ w', enter t descend way (root.append way) w = .ok w'

theorem visitFolder_ok {descend : Descent} {below : Location → List PackageFile}
    {fit : Location → Prop} (hn : Named t) (hl : o.followLinks = false ∨ NoLinks t)
    (hd : Descends t root base descend below fit) (hen : Enterable t root base descend fit)
    (hf : t.status (root.append folder) = .ok (base ++ folder, .folder))
    (hw : ∀ name, Fresh root (folder ++ [name]) w)
    (hfits : ∀ name, t.get? (base ++ folder ++ [name]) ≠ none → Fits t s o base root folder name ∧
      (Enters t s o base folder name → fit (folder ++ [name]))) :
    ∃ w', visitFolder t s o root descend folder w = .ok w' := by
  have all : ∀ {names : List Text} {w : Walk}, names.Nodup →
      (∀ name ∈ names, t.get? (base ++ folder ++ [name]) ≠ none) →
      (∀ name ∈ names, Fresh root (folder ++ [name]) w) →
      ∃ w', names.foldlM (visitEntry t s o root descend folder (base ++ folder)) w = .ok w' := by
    intro names
    induction names with
    | nil => exact fun _ _ _ => ⟨_, rfl⟩
    | cons name rest ih =>
      intro w hnodup he hw
      obtain ⟨hnot, hnodup⟩ := List.nodup_cons.mp hnodup
      have hname := he name List.mem_cons_self
      obtain ⟨hfit, hbelow⟩ := hfits name hname
      obtain ⟨v, hv⟩ : ∃ v, visitEntry t s o root descend folder (base ++ folder) w name = .ok v := by
        rw [visitEntry_of_fits hn hl hf hname hfit]
        split
        · next hfolder =>
          have hin := record?_isFolder.mp hfolder
          exact hen _ (w.noting (record? t s o base folder name))
            (status_of_enters hn hf hin hfit) (hw name List.mem_cons_self) (hbelow hin)
        · exact ⟨_, rfl⟩
      obtain ⟨hadd, -⟩ := adds_visitEntry hn hl hd hf hname (hw name List.mem_cons_self) hv
      obtain ⟨w', hw'⟩ := ih hnodup (fun x hx => he x (List.mem_cons_of_mem name hx))
        fun other hm => hadd.fresh (fun he : other = name => hnot (he ▸ hm))
          (hw other (List.mem_cons_of_mem name hm))
      refine ⟨w', ?_⟩
      rw [List.foldlM_cons, hv]
      exact hw'
  unfold visitFolder
  rw [hf]
  exact all (Tree.nodup_names hn.once (base ++ folder)) (fun name hm => Tree.mem_names.mp hm)
    fun name _ => hw name

theorem visit_ok (hg : t.Ground root base) (hs : Sound t) (hn : Named t)
    (hl : o.followLinks = false ∨ NoLinks t) :
    ∀ (levels : Nat) (folder : Location) (w : Walk),
      t.status (root.append folder) = .ok (base ++ folder, .folder) →
      (∀ name, Fresh root (folder ++ [name]) w) → AllFit t s o base root levels folder →
      ∃ w', visit t s o root levels folder w = .ok w'
  | 0, _, _, hf, hw, hfits =>
    visitFolder_ok hn hl descends_none (fun _ w _ _ _ => ⟨w, rfl⟩) hf hw
      fun name he => ⟨allFit_zero.mp hfits name he, fun _ => trivial⟩
  | levels + 1, _, _, hf, hw, hfits => by
    refine visitFolder_ok hn hl (descends_some hg hs hn (adds_visit hg hs hn hl levels)) ?_ hf hw
      fun name he => ⟨(allFit_succ.mp hfits name).1 he, (allFit_succ.mp hfits name).2⟩
    intro way w hst hw hfit
    rw [enter_some hg hs hn (Tree.status_eq_ok.mp hst).2 hw]
    exact visit_ok hg hs hn hl levels way _ hst hw.entering hfit

end

end Listing

section
variable {t : Tree} {s : Settings} {o : SearchOptions} {root : Path} {base : Location}

/-- **A listing answers with the records of the directory**, and it does if no path or name that it
meets is too long. -/
theorem listing_eq_ok (hg : t.Ground root base) (hs : Sound t) (hn : Named t)
    (hl : o.followLinks = false ∨ NoLinks t) {files : List PackageFile} :
    listing t s o root = .ok files ↔ Listing.AllFit t s o base root o.maxDepth.toNat [] ∧
      files = Listing.records t s o base o.maxDepth.toNat [] := by
  have hf : t.status (root.append []) = .ok (base ++ [], .folder) := by
    rw [Path.append_nil, List.append_nil]
    exact hg.folder
  have hw : ∀ name, Listing.Fresh root ([] ++ [name]) ⟨[], [root]⟩ := by
    intro name more hm
    have hp : (root.append ([] ++ [name] ++ more)) = root.append [] := by
      rw [Path.append_nil]
      exact List.mem_singleton.mp hm
    have := Path.append_inj hp
    simp at this
  unfold listing
  constructor
  · intro h
    cases hv : Listing.visit t s o root o.maxDepth.toNat [] ⟨[], [root]⟩ with
    | error f => rw [hv] at h; cases h
    | ok w =>
      rw [hv] at h
      obtain ⟨hadds, hfits⟩ := Listing.adds_visit hg hs hn hl _ _ _ _ hf hw hv
      cases h
      exact ⟨hfits, by simp [hadds.listed]⟩
  · rintro ⟨hfits, rfl⟩
    obtain ⟨w, hv⟩ := Listing.visit_ok hg hs hn hl _ _ _ hf hw hfits
    obtain ⟨hadds, -⟩ := Listing.adds_visit hg hs hn hl _ _ _ _ hf hw hv
    rw [hv]
    simp [Except.map, hadds.listed]

theorem listing_of_names {levels : Nat} {place : Location} {names : List Text}
    {answer : Except FileFault (List PackageFile)} (hlevels : o.maxDepth.toNat = levels + 1)
    (hst : t.status (root.append []) = .ok (place, .folder)) (hnames : t.names place = names)
    (hwalk : (names.foldlM (Listing.visitEntry t s o root (some (Listing.visit t s o root levels)) []
      place) ⟨[], [root]⟩).map (·.listed.reverse) = answer) :
    listing t s o root = answer := by
  rw [listing, hlevels, Listing.visit, Listing.visitFolder, hst]
  simp only
  rw [hnames]
  exact hwalk

end

end PackageAudit
