import PackageAudit.Proofs.Package.Depth
import PackageAudit.Proofs.Package.Found
import PackageAudit.Proofs.Package.Listing
import PackageAudit.Proofs.Tree.Real
import Mathlib.Data.Finset.Card
import Mathlib.Data.Finset.Dedup
import Mathlib.Data.List.Flatten

/-! # Walks along cycles of links

A walk that follows links ends on every tree, because it enters no directory that it has entered before
by the path that it resolved for it. However deep it may go makes no difference beyond the number of
directories that can be reached (`bounds_reached`), and the entries of a directory are listed by one way
only (`once_of_listing`), so that no more is listed than these directories hold, and by the first way
that leads there (`all_of_listing`), so that nothing is left out for it. This rests on every
directory being resolved to one path (`ReachedBy.resolve`), which links at very long paths are not:
there a directory is listed again and again (`Spiral`), and it is the length of a path alone that ends
the walk.
-/

namespace PackageAudit

open PackageAudit.Tree (Sound Named LinksFit)

namespace Listing

section
variable {t : Tree} {s : Settings} {o : SearchOptions} {root : Path} {way folder place : Location}
  {name : Text} {w : Walk} {descend : Descent}

/-! ## Directories that can be reached -/

/-- A way of entries leads from the root to a directory, links followed. -/
inductive ReachedBy (t : Tree) (root : Path) : Location → Location → Prop
  | root {l : Location} (hst : t.status root = .ok (l, .folder)) : ReachedBy t root [] l
  | entry {way l l' : Location} {name : Text} (h : ReachedBy t root way l) (hname : name ∈ t.names l)
      (hst : t.status (root.append (way ++ [name])) = .ok (l', .folder)) :
      ReachedBy t root (way ++ [name]) l'

theorem ReachedBy.status (h : ReachedBy t root way place) :
    t.status (root.append way) = .ok (place, .folder) := by
  cases h with
  | root hst => rwa [Path.append_nil]
  | entry _ _ hst => exact hst

theorem ReachedBy.isEntryName (hn : Named t) (h : ReachedBy t root way place) :
    ∀ x ∈ way, Tree.IsEntryName x := by
  induction h with
  | root => exact nofun
  | entry _ hname _ ih =>
    refine List.forall_mem_append.mpr ⟨ih, List.forall_mem_singleton.mpr ?_⟩
    exact hn.of_get? (Tree.mem_names.mp hname) _ (by simp)

/-- **A directory that is reached is resolved to its location.** -/
theorem ReachedBy.resolve {base : Location} (hs : Sound t) (hn : Named t) (hfit : LinksFit t)
    (hbase : t.get? base = some .folder) (h : ReachedBy t (.ofLocation base) way place) :
    t.resolve ((Path.ofLocation base).append way) = .ok (.ofLocation place) := by
  have hnames : ∀ x ∈ ((Path.ofLocation base).append way).parts, Tree.IsEntryName x :=
    List.forall_mem_append.mpr ⟨Tree.isEntryName_of_get? hn hbase, h.isEntryName hn⟩
  exact Tree.resolve_of_status hs hn hfit rfl (fun x hx => (hnames x hx).1.1)
    (fun x hx => (hnames x hx).2.1) h.status

/-- If all directories are resolved to their locations, a walk goes no deeper than there are any that
were not entered yet. -/
theorem bounds_reached {base : Location} (hs : Sound t) (hn : Named t) (hfit : LinksFit t)
    (hbase : t.get? base = some .folder) {folders : List Location}
    (hall : ∀ way place, ReachedBy t (.ofLocation base) way place → place ∈ folders) :
    Bounds t (.ofLocation base) (fun way => ∃ place, ReachedBy t (.ofLocation base) way place)
      fun _ entered => (folders.toFinset.filter fun l => Path.ofLocation l ∉ entered).card where
  anti way entered entered' h :=
    Finset.card_le_card (Finset.monotone_filter_right _ fun l _ hl hm => hl (h hm))
  step way place name l entered hway hst hname _ hfolder := by
    obtain ⟨place', hreached⟩ := hway
    cases hreached.status.symm.trans hst
    have hentry : ReachedBy t (.ofLocation base) (way ++ [name]) l := .entry hreached hname hfolder
    have hres := hentry.resolve hs hn hfit hbase
    by_cases hin : Path.ofLocation l ∈ entered
    · exact .inl ⟨_, hin, hres⟩
    · have hnew : l ∈ folders.toFinset.filter fun l => Path.ofLocation l ∉ entered :=
        Finset.mem_filter.mpr ⟨List.mem_toFinset.mpr (hall _ _ hentry), hin⟩
      refine .inr ⟨Finset.card_pos.mpr ⟨l, hnew⟩, fun x hx _ => ?_⟩
      obtain rfl : Path.ofLocation l = x := Except.ok.inj (hres.symm.trans hx)
      refine ⟨⟨l, hentry⟩, Finset.card_lt_card (Finset.ssubset_iff_subset_ne.mpr ⟨?_, ?_⟩)⟩
      · exact Finset.monotone_filter_right _ fun k _ hk hm => hk (List.mem_cons_of_mem _ hm)
      · intro he
        rw [← he] at hnew
        exact (Finset.mem_filter.mp hnew).2 List.mem_cons_self

/-! ## Failures -/

/-- A walk fails at an entry whose kind cannot be asked for because a name is too long. -/
def FailsAt (t : Tree) (root : Path) (f : FileFault) : Prop :=
  ∃ way place name, ReachedBy t root way place ∧ name ∈ t.names place ∧
    (Tree.maxPathBytes < Name.size (root.append (way ++ [name])).toText ∨
      t.status (root.append (way ++ [name])) = .error .nameTooLong) ∧
    f = .refused .nameTooLong (root.append (way ++ [name])).toText

theorem failsAt_of_visitEntry {f : FileFault} (hreached : ReachedBy t root way place)
    (hname : name ∈ t.names place)
    (hresolve : ∀ way place, ReachedBy t root way place →
      t.resolve (root.append way) = .ok (.ofLocation place))
    (hd : ∀ below, descend = some below → ∀ way place w f, ReachedBy t root way place →
      below way w = .error f → FailsAt t root f)
    (h : visitEntry t s o root descend way place w name = .error f) : FailsAt t root f := by
  have hst := hreached.status
  by_cases hlook : LooksAt t s o root way name
  · rw [visitEntry_of_looked hlook hst] at h
    split at h
    · next hsize => exact ⟨way, place, name, hreached, hname, .inl hsize, (Except.error.inj h).symm⟩
    · split at h
      · next hlong => exact ⟨way, place, name, hreached, hname, .inr hlong, (Except.error.inj h).symm⟩
      · cases h
      · cases h
      · cases h
      · next l hfolder =>
        have hentry : ReachedBy t root (way ++ [name]) l := .entry hreached hname hfolder
        split at h
        · cases h
        · unfold enter at h
          split at h
          · cases h
          · next below =>
            rw [hresolve _ _ hentry] at h
            simp only at h
            split at h
            · cases h
            · exact hd below rfl _ _ _ _ hentry h
  · rw [visitEntry_of_skipped hst hname hlook] at h
    split at h
    · next hsize => exact ⟨way, place, name, hreached, hname, .inl hsize, (Except.error.inj h).symm⟩
    · cases h

theorem failsAt_of_visitFolder {f : FileFault}
    (hresolve : ∀ way place, ReachedBy t root way place →
      t.resolve (root.append way) = .ok (.ofLocation place))
    (hd : ∀ below, descend = some below → ∀ way place w f, ReachedBy t root way place →
      below way w = .error f → FailsAt t root f)
    (hreached : ReachedBy t root way place)
    (h : visitFolder t s o root descend way w = .error f) : FailsAt t root f := by
  unfold visitFolder at h
  rw [hreached.status] at h
  simp only at h
  generalize hnames : t.names place = names at h
  replace hnames : ∀ name ∈ names, name ∈ t.names place := fun _ hx => hnames ▸ hx
  induction names generalizing w with
  | nil => cases h
  | cons name rest ih =>
    have hname := hnames name List.mem_cons_self
    rw [List.foldlM_cons] at h
    cases hv : visitEntry t s o root descend way place w name with
    | error g =>
      rw [hv] at h
      cases h
      exact failsAt_of_visitEntry hreached hname hresolve hd hv
    | ok v =>
      rw [hv] at h
      exact ih h fun x hx => hnames x (List.mem_cons_of_mem name hx)

/-- **A walk fails for names that are too long only**, if all directories can be resolved. -/
theorem failsAt_of_visit
    (hresolve : ∀ way place, ReachedBy t root way place →
      t.resolve (root.append way) = .ok (.ofLocation place))
    {levels : Nat} {f : FileFault} (hreached : ReachedBy t root way place)
    (h : visit t s o root levels way w = .error f) : FailsAt t root f := by
  induction levels generalizing way place w f with
  | zero =>
    refine failsAt_of_visitFolder hresolve ?_ hreached h
    exact nofun
  | succ levels ih =>
    refine failsAt_of_visitFolder hresolve ?_ hreached h
    rintro _ ⟨⟩ way place w f hr hbelow
    exact ih hr hbelow

/-! ## What is listed once -/

theorem Open.reachedBy {entered : List Path} {files : List PackageFile}
    (h : Open t s o root entered files folder way) (hf : ReachedBy t root folder place) :
    ∃ l, ReachedBy t root way l := by
  induction h generalizing place with
  | here => exact ⟨place, hf⟩
  | into hnotes _ _ ih =>
    obtain ⟨f, hnote, hisf⟩ := hnotes
    cases hnote with
    | file => cases hisf
    | folder hlook hst _ =>
      obtain ⟨place', hst', hname, -⟩ := hlook
      cases hf.status.symm.trans hst'
      exact ih (.entry hf hname hst)

/-- A directory that is open, unless the walk begins there, is listed in one that is open. -/
theorem Open.last {entered : List Path} {files : List PackageFile}
    (h : Open t s o root entered files folder way) : way = folder ∨ ∃ parent name f,
      way = parent ++ [name] ∧ Open t s o root entered files folder parent ∧
      Notes t s o root parent name f ∧ f.isFolder = true ∧ Opens t o root entered files way := by
  induction h with
  | here => exact .inl rfl
  | @into folder way name hnotes hopens _ ih =>
    right
    rcases ih with rfl | ⟨parent, last, f, rfl, hparent, hnote, hisf, hlast⟩
    · obtain ⟨f, hnote, hisf⟩ := hnotes
      exact ⟨folder, name, f, rfl, .here, hnote, hisf, hopens⟩
    · exact ⟨parent, last, f, rfl, .into hnotes hopens hparent, hnote, hisf, hlast⟩

/-- No directory is listed twice: each entry comes once, the entries of a directory come by one way, and
so there are no more of them than the directories that can be reached hold. -/
structure ListsOnce (t : Tree) (root : Path) (files : List PackageFile) : Prop where
  sorted : files.Pairwise fun f g => f.way.before g.way = true
  reached : ∀ f ∈ files, ∃ way name place, f.way = way ++ [name] ∧ ReachedBy t root way place ∧
    name ∈ t.names place
  once : ∀ f ∈ files, ∀ g ∈ files, ∀ place, ReachedBy t root f.way.dropLast place →
    ReachedBy t root g.way.dropLast place → f.way.dropLast = g.way.dropLast
  length_le : ∀ folders : List Location, (∀ way place, ReachedBy t root way place → place ∈ folders) →
    files.length ≤ (folders.flatMap t.names).length

/-- No directory is left out: what a walk notes in the root is listed, and what it notes in a directory
that is listed and not too deep is listed by some way to that directory. -/
structure ListsAll (t : Tree) (s : Settings) (o : SearchOptions) (root : Path)
    (files : List PackageFile) : Prop where
  top : ∀ name f, Notes t s o root [] name f → f ∈ files
  below : ∀ f ∈ files, f.isFolder = true → f.way.length ≤ o.maxDepth.toNat →
    ∀ place, ReachedBy t root f.way place → ∃ way, ReachedBy t root way place ∧
      ∀ name g, Notes t s o root way name g → g ∈ files

theorem open_unique {base : Location} {files : List PackageFile} {way' : Location}
    (hn : Named t) (hresolve : ∀ way place, ReachedBy t (.ofLocation base) way place →
      t.resolve ((Path.ofLocation base).append way) = .ok (.ofLocation place))
    (hbase : t.status (.ofLocation base) = .ok (base, .folder))
    (hmem : ∀ f, f ∈ files ↔ ∃ way name,
      Open t s o (.ofLocation base) [.ofLocation base] files [] way ∧
        Notes t s o (.ofLocation base) way name f)
    (h : Open t s o (.ofLocation base) [.ofLocation base] files [] way)
    (h' : Open t s o (.ofLocation base) [.ofLocation base] files [] way')
    (hr : ReachedBy t (.ofLocation base) way place)
    (hr' : ReachedBy t (.ofLocation base) way' place) : way = way' := by
  -- the later one of the two ways would have been refused
  have hnot : ∀ {way way' : Location},
      Open t s o (.ofLocation base) [.ofLocation base] files [] way →
      Open t s o (.ofLocation base) [.ofLocation base] files [] way' →
      ReachedBy t (.ofLocation base) way place → ReachedBy t (.ofLocation base) way' place →
      way.before way' = false := by
    intro way way' h h' hr hr'
    by_contra hbefore
    rw [Bool.not_eq_false] at hbefore
    rcases h'.last with rfl | ⟨-, -, -, -, -, -, -, -, x, hx, hfresh, hearlier⟩
    · cases way <;> cases hbefore
    obtain rfl : Path.ofLocation place = x := Except.ok.inj ((hresolve _ _ hr').symm.trans hx)
    rcases h.last with rfl | ⟨parent, name, f, rfl, hparent, hnote, hisf, hopens⟩
    · cases hr.status.symm.trans ((Path.append_nil (.ofLocation base)).symm ▸ hbase)
      exact hfresh List.mem_cons_self
    · have hway := hnote.way_eq hn (hparent.isPart hn fun _ hx => absurd hx List.not_mem_nil)
      refine hearlier f ((hmem f).mpr ⟨parent, name, hparent, hnote⟩) hisf ?_ ?_ ?_
      · rw [hway]
        exact hopens.length_le
      · rwa [hway]
      · rw [hway]
        exact hresolve _ _ hr
  exact Location.ordered.eq_of_not (hnot h h' hr hr') (hnot h' h hr' hr)

theorem ReachedBy.unique {place' : Location} (h : ReachedBy t root way place)
    (h' : ReachedBy t root way place') : place = place' := by
  cases h.status.symm.trans h'.status
  rfl

/-- The directory in which a file is listed, and the name of the file there. -/
def entryOf (t : Tree) (root : Path) (f : PackageFile) : Option Location × Option Text :=
  ((t.status (root.append f.way.dropLast)).toOption.map Prod.fst, f.way.getLast?)

theorem entryOf_eq {f : PackageFile} (hway : f.way = way ++ [name])
    (h : ReachedBy t root way place) : entryOf t root f = (some place, some name) := by
  rw [entryOf, hway, List.dropLast_concat, List.getLast?_concat, h.status]
  rfl

/-- If each entry comes by one way, there are no more of them than the directories hold. -/
theorem length_le_of_once {files : List PackageFile}
    (hsorted : files.Pairwise fun f g => f.way.before g.way = true)
    (hreached : ∀ f ∈ files, ∃ way name place, f.way = way ++ [name] ∧
      ReachedBy t root way place ∧ name ∈ t.names place)
    (honce : ∀ f ∈ files, ∀ g ∈ files, ∀ place, ReachedBy t root f.way.dropLast place →
      ReachedBy t root g.way.dropLast place → f.way.dropLast = g.way.dropLast)
    {folders : List Location} (hall : ∀ way place, ReachedBy t root way place → place ∈ folders) :
    files.length ≤ (folders.flatMap t.names).length := by
  have hnodup : (files.map (entryOf t root)).Nodup := by
    refine List.pairwise_map.mpr (hsorted.imp_of_mem fun {f g} hf hg hbefore he => ?_)
    obtain ⟨way, name, place, hway, hr, -⟩ := hreached f hf
    obtain ⟨way', name', place', hway', hr', -⟩ := hreached g hg
    rw [entryOf_eq hway hr, entryOf_eq hway' hr'] at he
    obtain ⟨rfl, rfl⟩ : place = place' ∧ name = name' := by simpa using he
    have hsame := honce f hf g hg place (by simpa [hway] using hr) (by simpa [hway'] using hr')
    rw [hway, hway', List.dropLast_concat, List.dropLast_concat] at hsame
    rw [hway, hway', hsame, Location.ordered.self] at hbefore
    cases hbefore
  have hsub : files.map (entryOf t root) ⊆
      folders.flatMap fun l => (t.names l).map fun name => (some l, some name) := by
    intro e he
    obtain ⟨f, hf, rfl⟩ := List.mem_map.mp he
    obtain ⟨way, name, place, hway, hr, hname⟩ := hreached f hf
    rw [entryOf_eq hway hr]
    exact List.mem_flatMap.mpr ⟨place, hall _ _ hr, List.mem_map_of_mem hname⟩
  have hle := (List.subperm_of_subset hnodup hsub).length_le
  simpa [List.length_flatMap] using hle

theorem listed_at {base : Location} {files : List PackageFile} {f : PackageFile} (hn : Named t)
    (hbase : t.status (.ofLocation base) = .ok (base, .folder))
    (hmem : ∀ f, f ∈ files ↔ ∃ way name,
      Open t s o (.ofLocation base) [.ofLocation base] files [] way ∧
        Notes t s o (.ofLocation base) way name f)
    (hf : f ∈ files) : ∃ way name place,
      Open t s o (.ofLocation base) [.ofLocation base] files [] way ∧
        Notes t s o (.ofLocation base) way name f ∧ f.way = way ++ [name] ∧
        ReachedBy t (.ofLocation base) way place ∧ name ∈ t.names place := by
  obtain ⟨way, name, hopen, hnotes⟩ := (hmem f).mp hf
  have hway := hnotes.way_eq hn (hopen.isPart hn fun _ hx => absurd hx List.not_mem_nil)
  obtain ⟨place, hr⟩ := hopen.reachedBy (.root hbase)
  obtain ⟨place', hst, hname, -⟩ := hnotes.looksAt
  cases hr.status.symm.trans hst
  exact ⟨way, name, place, hopen, hnotes, hway, hr, hname⟩

/-- **What a walk lists it lists once.** -/
theorem once_of_listing {base : Location} {files : List PackageFile} (hs : Sound t) (hn : Named t)
    (hfit : LinksFit t) (hbase : t.status (.ofLocation base) = .ok (base, .folder))
    (h : listing t s o (.ofLocation base) = .ok files) : ListsOnce t (.ofLocation base) files := by
  obtain ⟨hsorted, hmem⟩ := of_listing hn h
  have hreached : ∀ f ∈ files, ∃ way name place, f.way = way ++ [name] ∧
      ReachedBy t (.ofLocation base) way place ∧ name ∈ t.names place := by
    intro f hf
    obtain ⟨way, name, place, -, -, hrest⟩ := listed_at hn hbase hmem hf
    exact ⟨way, name, place, hrest⟩
  have honce : ∀ f ∈ files, ∀ g ∈ files, ∀ place,
      ReachedBy t (.ofLocation base) f.way.dropLast place →
        ReachedBy t (.ofLocation base) g.way.dropLast place → f.way.dropLast = g.way.dropLast := by
    intro f hf g hg place hr hr'
    obtain ⟨way, name, -, hopen, -, hway, -⟩ := listed_at hn hbase hmem hf
    obtain ⟨way', name', -, hopen', -, hway', -⟩ := listed_at hn hbase hmem hg
    rw [hway, List.dropLast_concat] at hr ⊢
    rw [hway', List.dropLast_concat] at hr' ⊢
    have hk := (Tree.status_eq_ok.mp hbase).2
    exact open_unique hn (fun _ _ hr => hr.resolve hs hn hfit hk) hbase hmem hopen hopen' hr hr'
  exact ⟨hsorted, hreached, honce, fun _ hall => length_le_of_once hsorted hreached honce hall⟩

/-! ## What is listed at all -/

theorem Open.concat {entered : List Path} {files : List PackageFile}
    (h : Open t s o root entered files folder way)
    (hnotes : ∃ f, Notes t s o root way name f ∧ f.isFolder = true)
    (hopens : Opens t o root entered files (way ++ [name])) :
    Open t s o root entered files folder (way ++ [name]) := by
  induction h with
  | here => exact .into hnotes hopens .here
  | into hnotes' hopens' _ ih => exact .into hnotes' hopens' (ih hnotes hopens)

theorem exists_first {files : List PackageFile} {p : PackageFile → Prop}
    (hsorted : files.Pairwise fun f g => f.way.before g.way = true) (h : ∃ f ∈ files, p f) :
    ∃ f ∈ files, p f ∧ ∀ g ∈ files, p g → g.way.before f.way = false := by
  induction files with
  | nil => simp at h
  | cons first rest ih =>
    obtain ⟨hlater, hsorted⟩ := List.pairwise_cons.mp hsorted
    by_cases hfirst : p first
    · refine ⟨first, List.mem_cons_self, hfirst, fun g hg _ => ?_⟩
      rcases List.mem_cons.mp hg with rfl | hg
      · exact Location.ordered.self _
      · exact Location.ordered.asymm (hlater g hg)
    · obtain ⟨f, hf, hpf⟩ := h
      obtain rfl | hf := List.mem_cons.mp hf
      · exact absurd hpf hfirst
      obtain ⟨f, hf, hpf, hmin⟩ := ih hsorted ⟨f, hf, hpf⟩
      refine ⟨f, List.mem_cons_of_mem first hf, hpf, fun g hg hpg => ?_⟩
      rcases List.mem_cons.mp hg with rfl | hg
      · exact absurd hpg hfirst
      · exact hmin g hg hpg

/-- A directory that is listed and not too deep is open by the first way to it that is listed. -/
theorem open_of_listed {base : Location} {files : List PackageFile} {f : PackageFile} (hn : Named t)
    (hresolve : ∀ way place, ReachedBy t (.ofLocation base) way place →
      t.resolve ((Path.ofLocation base).append way) = .ok (.ofLocation place))
    (hbase : t.status (.ofLocation base) = .ok (base, .folder))
    (hsorted : files.Pairwise fun f g => f.way.before g.way = true)
    (hmem : ∀ f, f ∈ files ↔ ∃ way name,
      Open t s o (.ofLocation base) [.ofLocation base] files [] way ∧
        Notes t s o (.ofLocation base) way name f)
    (hf : f ∈ files) (hisf : f.isFolder = true) (hlen : f.way.length ≤ o.maxDepth.toNat)
    (hr : ReachedBy t (.ofLocation base) f.way place) :
    ∃ way, Open t s o (.ofLocation base) [.ofLocation base] files [] way ∧
      ReachedBy t (.ofLocation base) way place := by
  by_cases hplace : place = base
  · subst hplace
    exact ⟨[], .here, .root hbase⟩
  obtain ⟨g, hg, ⟨hisg, hleng, hres⟩, hmin⟩ :=
    exists_first (p := fun g => g.isFolder = true ∧ g.way.length ≤ o.maxDepth.toNat ∧
      t.resolve ((Path.ofLocation base).append g.way) = .ok (.ofLocation place)) hsorted
      ⟨f, hf, hisf, hlen, hresolve _ _ hr⟩
  obtain ⟨way, name, -, hopen, hnotes, hway, -⟩ := listed_at hn hbase hmem hg
  have hopens : Opens t o (.ofLocation base) [.ofLocation base] files (way ++ [name]) := by
    rw [← hway]
    refine ⟨hleng, .ofLocation place, hres, ?_, fun e he hise hlene hbefore hrese => ?_⟩
    · rw [List.mem_singleton]
      exact fun he => hplace (Path.mk.inj he).2
    · exact absurd hbefore (by simp [hmin e he ⟨hise, hlene, hrese⟩])
  have hlast := hopen.concat ⟨g, hnotes, hisg⟩ hopens
  obtain ⟨l, hl⟩ := hlast.reachedBy (.root hbase)
  have hsame := (hresolve _ _ hl).symm.trans (hway ▸ hres)
  obtain rfl : l = place := (Path.mk.inj (Except.ok.inj hsame)).2
  exact ⟨way ++ [name], hlast, hl⟩

/-- **A walk leaves out no directory** that is listed and not too deep. -/
theorem all_of_listing {base : Location} {files : List PackageFile} (hs : Sound t) (hn : Named t)
    (hfit : LinksFit t) (hbase : t.status (.ofLocation base) = .ok (base, .folder))
    (h : listing t s o (.ofLocation base) = .ok files) :
    ListsAll t s o (.ofLocation base) files := by
  obtain ⟨hsorted, hmem⟩ := of_listing hn h
  have hk := (Tree.status_eq_ok.mp hbase).2
  refine ⟨fun name f hf => (hmem f).mpr ⟨[], name, .here, hf⟩, fun f hf hisf hlen place hr => ?_⟩
  obtain ⟨way, hopen, hway⟩ := open_of_listed hn (fun _ _ hr => hr.resolve hs hn hfit hk) hbase hsorted
    hmem hf hisf hlen hr
  exact ⟨way, hway, fun name g hg => (hmem g).mpr ⟨way, name, hopen, hg⟩⟩

/-! ## The walk as a whole -/

/-- A walk to any depth beyond the number of directories lists the same. -/
theorem listing_eq_of_folders {base : Location} (hs : Sound t) (hn : Named t) (hfit : LinksFit t)
    (hbase : t.status (.ofLocation base) = .ok (base, .folder)) {folders : List Location}
    (hall : ∀ way place, ReachedBy t (.ofLocation base) way place → place ∈ folders) {depth : Int}
    (h : (folders.length : Int) ≤ depth) :
    listing t s { o with maxDepth := depth } (.ofLocation base) =
      listing t s { o with maxDepth := folders.length } (.ofLocation base) := by
  have hk := (Tree.status_eq_ok.mp hbase).2
  have hcard : ((folders.toFinset.filter fun l =>
      Path.ofLocation l ∉ [Path.ofLocation base]).card) ≤ folders.length :=
    Nat.le_trans (Finset.card_filter_le _ _) (List.toFinset_card_le folders)
  rw [listing_maxDepth, listing_maxDepth]
  rw [visit_eq_of_bounds (bounds_reached hs hn hfit hk hall) (n := depth.toNat)
    (m := (folders.length : Int).toNat) ⟨base, .root hbase⟩] <;>
  simp only [Int.toNat_natCast] <;> omega

/-- **A walk ends on every graph of links**: it does not depend on how deep it may go beyond the length
of paths. If all links lie at paths that can be asked for, it does not beyond the number of directories
that can be reached either; it then lists no directory twice and leaves out none, unless it fails for a
name that is too long. -/
theorem listing_once (t : Tree) (s : Settings) (o : SearchOptions) (root : Path) :
    (∀ depth : Int, (Tree.maxPathBytes : Int) < depth →
      listing t s { o with maxDepth := depth } root =
        listing t s { o with maxDepth := (Tree.maxPathBytes + 1 : Nat) } root) ∧
    ∀ base, root = .ofLocation base → t.status root = .ok (base, .folder) →
      Sound t → Named t → LinksFit t →
        (match listing t s o root with
        | .ok files => ListsOnce t root files ∧ ListsAll t s o root files
        | .error f => FailsAt t root f) ∧
        ∀ folders : List Location, (∀ way place, ReachedBy t root way place → place ∈ folders) →
          ∀ depth : Int, (folders.length : Int) ≤ depth →
            listing t s { o with maxDepth := depth } root =
              listing t s { o with maxDepth := folders.length } root := by
  refine ⟨fun depth => listing_eq_of_long, ?_⟩
  rintro base rfl hbase hs hn hfit
  refine ⟨?_, fun folders hall depth => listing_eq_of_folders hs hn hfit hbase hall⟩
  cases h : listing t s o (.ofLocation base) with
  | ok files => exact ⟨once_of_listing hs hn hfit hbase h, all_of_listing hs hn hfit hbase h⟩
  | error f =>
    have hk := (Tree.status_eq_ok.mp hbase).2
    unfold listing at h
    cases hv : visit t s o (.ofLocation base) o.maxDepth.toNat [] ⟨[], [.ofLocation base]⟩ with
    | ok w => rw [hv] at h; cases h
    | error g =>
      rw [hv] at h
      obtain rfl : g = f := Except.error.inj h
      exact failsAt_of_visit (fun _ _ hr => hr.resolve hs hn hfit hk) (.root hbase) hv

theorem ReachedBy.mem_entries (h : ReachedBy t root way place) :
    place ∈ [] :: t.entries.map Prod.fst := by
  have hk := (Tree.status_eq_ok.mp h.status).2
  by_cases hne : place = []
  · exact hne ▸ List.mem_cons_self
  · exact List.mem_cons_of_mem _ (List.mem_map_of_mem (Tree.mem_entries_of_get? hne hk))

end

/-! ## Links to themselves, to directories above and out of the package -/

namespace Ring

/-- A link back, a link to another directory and one from there, and a link to itself. -/
def links : List (Location × Text) :=
  [(["pkg", "a", "up"], ".."), (["pkg", "lib"], "../lib"), (["lib", "pkg"], "../pkg"),
    (["pkg", "me"], "me")]

def tree : Tree where
  entries := (["pkg"], .folder) :: (["pkg", "a"], .folder) :: (["lib"], .folder) ::
    links.map fun x => (x.1, .link x.2)
  here := []

def root : Path := .ofLocation ["pkg"]

def options : SearchOptions := ⟨false, true, 1000000000, true⟩

def files : List PackageFile :=
  [folderRecord "a", folderRecord "a/up", folderRecord "lib", folderRecord "lib/pkg"]

theorem linksFit : LinksFit tree := by
  have hall : ∀ x ∈ links, Name.size (Path.ofLocation x.1).toText ≤ Tree.maxPathBytes ∧
      ∀ name ∈ Path.namesIn x.2, Name.plain name = name := by decide +kernel
  have hlinks {l : Location} {target : Text} (hk : tree.get? l = some (.link target)) :
      (l, target) ∈ links := by
    have hm := Tree.mem_entries_of_get? (Tree.ne_nil_of_get? (by rw [hk]; exact nofun)) hk
    simpa [tree, links] using hm
  exact ⟨fun hk => (hall _ (hlinks hk)).1, fun hk => (hall _ (hlinks hk)).2⟩

theorem listing_shallow : listing tree .default { options with maxDepth := 8 } root = .ok files := by
  have hnames : tree.names ["pkg"] = (["a", "lib", "me"] : List Text) :=
    Tree.names_of_ordered (by decide) (by decide)
  exact listing_of_names rfl rfl hnames (by decide +kernel)

/-- However deep a walk may go, it ends after two levels here. -/
theorem listing_once_ring : listing tree .default options root = .ok files ∧
    ListsOnce tree root files ∧ ListsAll tree .default options root files := by
  have hs : Sound tree := Tree.sound_of_entries rfl nofun (by decide)
  have hn : Named tree := ⟨by decide, by decide, by decide, by decide⟩
  obtain ⟨-, hrest⟩ := listing_once tree .default options root
  obtain ⟨hlists, hdeep⟩ := hrest ["pkg"] rfl rfl hs hn linksFit
  have hdeep := hdeep _ (fun _ _ h => h.mem_entries) 1000000000 (by decide)
  have hfiles : listing tree .default options root = .ok files := hdeep.trans listing_shallow
  rw [hfiles] at hlists
  exact ⟨hfiles, hlists⟩

end Ring

/-! ## A directory that is listed again and again -/

namespace Spiral

open Search.Deep (name way isEntryName_name)

/-- The text of a way. -/
def text (levels : Nat) : Text := Text.join "/" (way levels)

/-- Fifteen directories below each other with a link to the last one in it, whose path is too long to be
asked for, and a package with a link to it. -/
def tree : Tree where
  entries := (List.range 15).map (fun k => (way (k + 1), .folder)) ++
    [(way 16, .link "."), (["pkg"], .folder), (["pkg", "package.json"], .file [123, 125]),
      (["pkg", "s"], .link ("../" ++ text 15))]
  here := []

def root : Path := .ofLocation ["pkg"]

def options : SearchOptions := ⟨false, true, 2, true⟩

/-- What is in the directory is listed by two ways. -/
def files : List PackageFile :=
  [⟨"package.json", false, 2, some 1, false⟩, folderRecord "s", folderRecord ("s/" ++ text 1),
    folderRecord ("s/" ++ text 2)]

theorem listing_files : listing tree .default options root = .ok files := by
  have hnames : tree.names ["pkg"] = (["package.json", "s"] : List Text) :=
    Tree.names_of_ordered (by decide +kernel) (by decide)
  exact listing_of_names rfl (by decide +kernel) hnames (by decide +kernel)

theorem get?_way : ∀ k ≤ 15, tree.get? (way k) = some .folder := by decide +kernel

theorem sound : Sound tree := by
  have hway (k : Nat) : (way (k + 1)).dropLast = way k := by
    rw [way, List.dropLast_replicate, Nat.add_sub_cancel, ← way]
  refine Tree.sound_of_entries rfl (List.forall_mem_nil _) (List.forall_mem_append.mpr ⟨fun x hx => ?_, ?_⟩)
  · obtain ⟨k, hk, rfl⟩ := List.mem_map.mp hx
    rw [hway]
    exact get?_way k (Nat.le_of_lt (List.mem_range.mp hk))
  · refine List.forall_mem_cons.mpr ⟨hway 15 ▸ get?_way 15 (Nat.le_refl 15), ?_⟩
    decide +kernel

theorem named : Named tree := by
  have hnames : ∀ x ∈ tree.entries, ∀ y ∈ x.1, Tree.IsEntryName y := by
    have hway (k : Nat) : ∀ y ∈ way k, Tree.IsEntryName y := fun y hy =>
      List.eq_of_mem_replicate hy ▸ isEntryName_name
    refine List.forall_mem_append.mpr ⟨fun x hx => ?_, ?_⟩
    · obtain ⟨k, -, rfl⟩ := List.mem_map.mp hx
      exact hway (k + 1)
    · refine List.forall_mem_cons.mpr ⟨hway 16, ?_⟩
      decide +kernel
  refine ⟨?_, ?_, ?_, by decide +kernel⟩
  · exact fun x hx y hy => (hnames x hx y hy).1
  · exact fun x hx y hy => (hnames x hx y hy).2.1
  · exact fun x hx y hy => (hnames x hx y hy).2.2

theorem reachedBy_way : ReachedBy tree root ["s"] (way 15) ∧
    ReachedBy tree root ["s", name] (way 15) := by
  have hpkg : ReachedBy tree root [] ["pkg"] := .root rfl
  have hname : ("s" : Text) ∈ tree.names ["pkg"] := Tree.mem_names.mpr (by decide +kernel)
  have hs : ReachedBy tree root ["s"] (way 15) := .entry hpkg hname (by decide +kernel)
  have hname' : name ∈ tree.names (way 15) := Tree.mem_names.mpr (by decide +kernel)
  exact ⟨hs, .entry hs hname' (by decide +kernel)⟩

/-- One entry of a directory is listed twice, by two ways to the directory. -/
theorem listed_again : Sound tree ∧ Named tree ∧ tree.resolve (.ofText root.toText) = .ok root ∧
    tree.status root = .ok (["pkg"], .folder) ∧ listing tree .default options root = .ok files ∧
    (∃ f ∈ files, ∃ g ∈ files, ReachedBy tree root f.way.dropLast (way 15) ∧
      ReachedBy tree root g.way.dropLast (way 15) ∧ f.way.getLast? = g.way.getLast? ∧ f ≠ g) ∧
    ¬ ListsOnce tree root files := by
  have hf : folderRecord ("s/" ++ text 1) ∈ files := by decide +kernel
  have hg : folderRecord ("s/" ++ text 2) ∈ files := by decide +kernel
  have hway : (folderRecord ("s/" ++ text 1)).way = ("s" : Text) :: [name] := by decide +kernel
  have hway' : (folderRecord ("s/" ++ text 2)).way = ("s" : Text) :: [name, name] := by decide +kernel
  have hr : ReachedBy tree root (folderRecord ("s/" ++ text 1)).way.dropLast (way 15) := by
    rw [hway]
    exact reachedBy_way.1
  have hr' : ReachedBy tree root (folderRecord ("s/" ++ text 2)).way.dropLast (way 15) := by
    rw [hway']
    exact reachedBy_way.2
  have hne : folderRecord ("s/" ++ text 1) ≠ folderRecord ("s/" ++ text 2) := by decide +kernel
  refine ⟨sound, named, by decide +kernel, rfl, listing_files, ⟨_, hf, _, hg, hr, hr', ?_, hne⟩,
    fun h => ?_⟩
  · rw [hway, hway']
    rfl
  · have hsame := h.once _ hf _ hg _ hr hr'
    rw [hway, hway'] at hsame
    exact absurd (congrArg List.length hsame) (by decide)

end Spiral

end Listing

end PackageAudit
