import PackageAudit.Proofs.Package.Search

/-! # What a search finds

A search asks for the manifests of the candidates and perhaps of the root (`Asks`). `searchAt_answers`:
it finds those directories among them that hold one, in order, unless one of the manifests has too long
a path. What it finds is `Exact`: no package but the root has another one below it, and each of them can
be described (`describe_ne_noPackage`).
-/

namespace PackageAudit

open PackageAudit.Tree (Sound Named NoLinks IsEntryName)

namespace Search

section
variable {t : Tree} {s : Settings} {o : SearchOptions} {p : Path} {l way : Location}

/-! ## What was found is described -/

theorem Fits.ground (hs : Sound t) (hn : Named t) (hl : NoLinks t) : ∀ {way p l}, t.Ground p l →
    t.get? (l ++ way) = some .folder → Fits s p way → t.Ground (p.append way) (l ++ way)
  | [], p, l, hg, _, _ => by rwa [Path.append_nil, List.append_nil]
  | name :: way, p, l, hg, hk, hf => by
    obtain ⟨hsize, hrest⟩ := fits_cons.mp hf
    have hfolder : t.get? (l ++ [name]) = some .folder := by
      rw [List.append_cons] at hk
      cases way with
      | nil => simpa using hk
      | cons next rest => exact hs.folder_of_append (by rw [hk]; exact nofun)
    have hname : IsEntryName name := hn.of_get? (by rw [hfolder]; exact nofun) name (by simp)
    have hpath := Nat.le_trans
      (Tree.size_toText_append (p.append [name]) (way ++ [s.manifestName]) hg.isAbsolute) hrest.path
    have hbelow := Fits.ground hs hn hl (hg.append hl hname hfolder hpath hsize)
      (by rwa [← List.append_cons]) hrest
    rwa [Path.append_append, ← List.append_cons] at hbelow

theorem Fits.last (h : Fits s p way) : Fits s (p.append way) [] where
  path := by
    rw [Path.append_append]
    exact h.path
  names x hx := h.names x (List.mem_append_right way hx)

theorem loadManifest_ne_noPackage (root : Path) (place reason : Text) :
    loadManifest t s root ≠ .error (.failure (.noPackage place reason)) := by
  unfold loadManifest
  simp only
  split
  · exact nofun
  · split <;> exact nofun
  all_goals exact nofun

theorem describe_ne_noPackage (hg : t.Ground p l) (hs : Sound t) (hn : Named t) (hl : NoLinks t)
    (hm : IsEntryName s.manifestName) (hheld : Holds t s l) (hf : Fits s p [])
    (place reason : Text) :
    describe t s p.toText o ≠ .error (.failure (.noPackage place reason)) := by
  have hfolder : t.isFolder p = .ok true := Tree.isFolder_eq_true.mpr ⟨hg.vetted, l, hg.folder⟩
  have hfile : t.isFile (manifestPath s p) = .ok true := by
    have h := holdsManifest_eq hg hl hm
    rwa [told, if_pos hf, List.append_nil, decide_eq_true hheld] at h
  unfold describe
  rw [hg.resolve_toText hs hn]
  show describeAt t s o p ≠ _
  unfold describeAt
  rw [hfolder, hfile]
  have hload := loadManifest_ne_noPackage (t := t) (s := s) p place reason
  cases hms : loadManifest t s p with
  | error f =>
    rw [hms] at hload
    simpa [liftFile, bind, Except.bind] using hload
  | ok ms =>
    intro he
    cases hfiles : listing t s o p with
    | error f => rw [hfiles] at he; cases he
    | ok files => rw [hfiles] at he; cases he

end

/-! ## The whole search -/

section
variable {t : Tree} {s : Settings} {o : SearchOptions} {path : Text} {root : Path}
  {base way part : Location} {includeRoot : Bool}

/-- A search asks the candidates for a manifest, and the root if that is to be included. -/
def Asks (t : Tree) (s : Settings) (o : SearchOptions) (includeRoot : Bool) (base way : Location) :
    Prop :=
  way = [] ∧ includeRoot = true ∨ Candidate t s o (o.maxDepth.toNat + 1) base way

/-- What a search of a directory is for: its packages, in order. -/
structure Exact (t : Tree) (s : Settings) (o : SearchOptions) (includeRoot : Bool) (root : Path)
    (base : Location) (found : List Path) : Prop where
  increasing : found.Pairwise fun p q => Location.before p.parts q.parts = true
  nodup : found.Nodup
  mem_iff : ∀ q, q ∈ found ↔ ∃ way, Asks t s o includeRoot base way ∧ Holds t s (base ++ way) ∧
    q = root.append way
  /-- Only the root has packages below it. -/
  apart : ∀ p ∈ found, ∀ q ∈ found, p ≠ root → p.parts <+: q.parts → p = q
  described : ∀ p ∈ found, ∀ options place reason,
    describe t s p.toText options ≠ .error (.failure (.noPackage place reason))

theorem Asks.folder (h : Asks t s o includeRoot base way) (hbase : t.get? base = some .folder) :
    t.get? (base ++ way) = some .folder := by
  rcases h with ⟨rfl, -⟩ | h
  · rwa [List.append_nil]
  · exact h.folder

/-- Nothing is asked for below a package, unless that is the root. -/
theorem Asks.eq_of_prefix (h : Asks t s o includeRoot base way) (hne : part ≠ [])
    (hheld : Holds t s (base ++ part)) (hp : part <+: way) : part = way := by
  rcases h with ⟨rfl, -⟩ | h
  · exact absurd (List.prefix_nil.mp hp) hne
  · exact h.eq_of_prefix hne hheld hp

/-- What is found, before it is sorted. -/
def gathered (t : Tree) (s : Settings) (o : SearchOptions) (includeRoot : Bool) (root : Path)
    (base : Location) : List Path :=
  (if (includeRoot && decide (Holds t s base)) = true then [root] else []) ++
    packages t s o (o.maxDepth.toNat + 1) root base

theorem mem_gathered (hs : Sound t) {q : Path} : q ∈ gathered t s o includeRoot root base ↔
    ∃ way, Asks t s o includeRoot base way ∧ Holds t s (base ++ way) ∧ q = root.append way := by
  have hown : q ∈ (if (includeRoot && decide (Holds t s base)) = true then [root] else []) ↔
      (includeRoot = true ∧ Holds t s base) ∧ q = root := by
    cases includeRoot with
    | false => simp
    | true => by_cases hheld : Holds t s base <;> simp [hheld]
  unfold gathered Asks
  rw [List.mem_append, hown, mem_packages hs]
  constructor
  · rintro (⟨⟨hroot, hheld⟩, rfl⟩ | ⟨way, h⟩)
    · exact ⟨[], .inl ⟨rfl, hroot⟩, by rwa [List.append_nil], (Path.append_nil q).symm⟩
    · exact ⟨way, .inr h.1, h.2⟩
  · rintro ⟨way, ⟨rfl, hroot⟩ | hc, hheld, hq⟩
    · rw [List.append_nil] at hheld
      exact .inl ⟨⟨hroot, hheld⟩, by rw [hq, Path.append_nil]⟩
    · exact .inr ⟨way, hc, hheld, hq⟩

theorem nodup_gathered (hs : Sound t) (hn : Named t) :
    ((gathered t s o includeRoot root base).map Path.parts).Nodup := by
  refine List.Nodup.map_on ?_ (List.nodup_append.mpr ⟨?_, nodup_packages hs hn, ?_⟩)
  · intro p hp q hq he
    obtain ⟨way, -, -, rfl⟩ := (mem_gathered hs).mp hp
    obtain ⟨way', -, -, rfl⟩ := (mem_gathered hs).mp hq
    rw [List.append_cancel_left he]
  · split
    · exact List.nodup_singleton root
    · exact List.nodup_nil
  · intro p hp q hq he
    obtain ⟨way, hc, -, rfl⟩ := (mem_packages hs).mp hq
    split at hp
    · rw [List.mem_singleton.mp hp, ← Path.append_nil root, Path.append_append] at he
      exact hc.below (Path.append_inj he).symm
    · cases hp

/-- A search asks for the manifest of the root first, then it goes through what is below. -/
theorem searchAt_eq (hg : t.Ground root base) (hl : NoLinks t) (hm : IsEntryName s.manifestName) :
    searchAt t s o includeRoot root =
      if includeRoot = true ∧ ¬ Fits s root [] then .error (tooLong s root [])
      else (visit t s o o.maxDepth.toNat root).map fun below =>
        ((if (includeRoot && decide (Holds t s base)) = true then [root] else []) ++ below).mergeSort
          fun p q => !Location.before q.parts p.parts := by
  have hfolder : t.isFolder root = .ok true :=
    Tree.isFolder_eq_true.mpr ⟨hg.vetted, base, hg.folder⟩
  have hroot := holdsManifest_eq hg hl hm
  rw [told, List.append_nil] at hroot
  unfold searchAt
  rw [hfolder]
  cases includeRoot with
  | false => cases visit t s o o.maxDepth.toNat root <;> rfl
  | true =>
    by_cases hf : Fits s root []
    · have hnot : ¬ (true = true ∧ ¬ Fits s root []) := fun h => h.2 hf
      rw [if_pos hf] at hroot
      rw [hroot, if_neg hnot]
      cases visit t s o o.maxDepth.toNat root <;> rfl
    · have hlong : true = true ∧ ¬ Fits s root [] := ⟨rfl, hf⟩
      rw [if_neg hf] at hroot
      rw [hroot, if_pos hlong]
      rfl

theorem exact_gathered (hg : t.Ground root base) (hs : Sound t) (hn : Named t) (hl : NoLinks t)
    (hm : IsEntryName s.manifestName)
    (hfits : ∀ way, Asks t s o includeRoot base way → Fits s root way) :
    Exact t s o includeRoot root base ((gathered t s o includeRoot root base).mergeSort
      fun p q => !Location.before q.parts p.parts) := by
  have hmem : ∀ q, q ∈ (gathered t s o includeRoot root base).mergeSort
      (fun p q => !Location.before q.parts p.parts) ↔
      ∃ way, Asks t s o includeRoot base way ∧ Holds t s (base ++ way) ∧ q = root.append way :=
    fun q => List.mem_mergeSort.trans (mem_gathered hs)
  have hnodup : ((gathered t s o includeRoot root base).map Path.parts).Nodup :=
    nodup_gathered hs hn
  refine ⟨Location.ordered.pairwise_before Path.parts hnodup, ?_, hmem, ?_, ?_⟩
  · exact (List.mergeSort_perm _ _).nodup_iff.mpr (List.Nodup.of_map _ hnodup)
  · intro p hp q hq hne hprefix
    obtain ⟨part, -, hheld, rfl⟩ := (hmem p).mp hp
    obtain ⟨way, hasks, -, rfl⟩ := (hmem q).mp hq
    have hpart : part ≠ [] := by
      rintro rfl
      exact hne (Path.append_nil root)
    rw [hasks.eq_of_prefix hpart hheld ((List.prefix_append_right_inj root.parts).mp hprefix)]
  · intro p hp options place reason
    obtain ⟨way, hasks, hheld, rfl⟩ := (hmem p).mp hp
    have hf := hfits way hasks
    have hplace := hf.ground hs hn hl hg (hasks.folder (Tree.status_eq_ok.mp hg.folder).2)
    exact describe_ne_noPackage hplace hs hn hl hm hheld hf.last place reason

/-- What a search answers with: the packages of the directory, unless the path of a manifest that it
asks for is too long. -/
theorem searchAt_answers (hg : t.Ground root base) (hs : Sound t) (hn : Named t) (hl : NoLinks t)
    (hm : IsEntryName s.manifestName) (o : SearchOptions) (includeRoot : Bool) :
    match searchAt t s o includeRoot root with
    | .ok found => (∀ way, Asks t s o includeRoot base way → Fits s root way) ∧
      Exact t s o includeRoot root base found
    | .error f => ∃ way, Asks t s o includeRoot base way ∧ ¬ Fits s root way ∧
      f = tooLong s root way := by
  have hbelow : Answers t s o (o.maxDepth.toNat + 1) root base
    (visit t s o o.maxDepth.toNat root) := answers_visit hs hn hl hm hg
  rw [searchAt_eq hg hl hm]
  by_cases hroot : includeRoot = true ∧ ¬ Fits s root []
  · rw [if_pos hroot]
    exact ⟨[], .inl ⟨rfl, hroot.1⟩, hroot.2, rfl⟩
  · rw [if_neg hroot]
    cases hv : visit t s o o.maxDepth.toNat root with
    | error f =>
      rw [hv] at hbelow
      obtain ⟨way, hc, hnot, rfl⟩ := hbelow
      exact ⟨way, .inr hc, hnot, rfl⟩
    | ok below =>
      rw [hv] at hbelow
      obtain ⟨hall, rfl⟩ := hbelow
      have hfits : ∀ way, Asks t s o includeRoot base way → Fits s root way := by
        rintro way (⟨rfl, hinclude⟩ | hc)
        · exact Classical.not_not.mp fun hf => hroot ⟨hinclude, hf⟩
        · exact hall way hc
      exact ⟨hfits, exact_gathered hg hs hn hl hm hfits⟩

theorem fits_of_searchAt (hg : t.Ground root base) (hs : Sound t) (hn : Named t) (hl : NoLinks t)
    (hm : IsEntryName s.manifestName) {found : List Path}
    (h : searchAt t s o includeRoot root = .ok found) (hasks : Asks t s o includeRoot base way) :
    Fits s root way := by
  have hanswer := searchAt_answers hg hs hn hl hm o includeRoot
  rw [h] at hanswer
  exact hanswer.1 way hasks

theorem search_of_resolve (h : t.resolve (.ofText path) = .ok root) :
    search t s path o includeRoot = liftFile (searchAt t s o includeRoot root) := by
  unfold search
  rw [h]
  rfl

/-- **A search answers with exactly the packages of the directory**: those below it that can be reached
past directories that are no packages themselves, not ignored, not hidden unless those are asked for
and not too deep, and the root if it is to be included. It fails only for the path of a manifest that
is too long. -/
theorem search_exact (hs : Sound t) (hn : Named t) (hl : NoLinks t)
    (hm : IsEntryName s.manifestName) (hroot : t.resolve (.ofText path) = .ok root)
    (hbase : t.status root = .ok (base, .folder)) (o : SearchOptions) (includeRoot : Bool) :
    match search t s path o includeRoot with
    | .ok found => (∀ way, Asks t s o includeRoot base way → Fits s root way) ∧
      Exact t s o includeRoot root base found
    | .error f => ∃ way, Asks t s o includeRoot base way ∧ ¬ Fits s root way ∧
      f = .file (tooLong s root way) := by
  have hanswer := searchAt_answers (Tree.ground_of_resolve hs hl hroot hbase) hs hn hl hm o includeRoot
  rw [search_of_resolve hroot]
  cases hfound : searchAt t s o includeRoot root with
  | ok found =>
    rw [hfound] at hanswer
    exact hanswer
  | error f =>
    rw [hfound] at hanswer
    obtain ⟨way, hasks, hnot, rfl⟩ := hanswer
    exact ⟨way, hasks, hnot, rfl⟩

end

/-! ## A search one level deep -/

namespace Monorepo

/-- Packages beside and below each other, one too deep, and directories that are passed over. -/
def tree : Tree where
  entries := [(["repo"], .folder), (["repo", "package.json"], .file []),
    (["repo", ".cache"], .folder), (["repo", ".cache", "package.json"], .file []),
    (["repo", "apps"], .folder), (["repo", "apps", "package.json"], .folder),
    (["repo", "apps", "web"], .folder), (["repo", "apps", "web", "package.json"], .file []),
    (["repo", "apps", "web", "demo"], .folder),
    (["repo", "apps", "web", "demo", "package.json"], .file []),
    (["repo", "libs"], .folder), (["repo", "libs", "a"], .folder),
    (["repo", "libs", "a", "b"], .folder), (["repo", "libs", "a", "b", "package.json"], .file []),
    (["repo", "node_modules"], .folder), (["repo", "node_modules", "package.json"], .file [])]
  here := ["repo"]

def options : SearchOptions := ⟨false, false, 1, true⟩

def root : Path := ⟨.root, ["repo"]⟩

theorem fits {way : Location} (h : Asks tree .default options true ["repo"] way) :
    Fits .default root way := by
  have hall : ∀ x ∈ tree.entries, Fits .default root (x.1.drop 1) := by decide
  exact hall _ (Tree.mem_entries_of_get? (by simp) (h.folder (by decide)))

/-- All that is asked for fits, so the search answers. -/
theorem search_exact_monorepo : Sound tree ∧ Tree.Named tree ∧ NoLinks tree ∧
    IsEntryName Settings.default.manifestName ∧ tree.resolve (.ofText ".") = .ok root ∧
    tree.status root = .ok (["repo"], .folder) ∧
    ∃ found, search tree .default "." options true = .ok found ∧
      Exact tree .default options true root ["repo"] found ∧
      root.append ["apps", "web"] ∈ found := by
  have hs : Sound tree := Tree.sound_of_entries (by decide) (by decide) (by decide)
  have hn : Tree.Named tree := ⟨by decide, by decide, by decide, by decide⟩
  have hl : NoLinks tree := Tree.noLinks_of_entries (by simp [tree])
  have hm : IsEntryName Settings.default.manifestName := by decide
  have hroot : tree.resolve (.ofText ".") = .ok root := by rfl
  have hbase : tree.status root = .ok (["repo"], .folder) := by rfl
  refine ⟨hs, hn, hl, hm, hroot, hbase, ?_⟩
  have h := search_exact hs hn hl hm hroot hbase options true
  cases hfound : search tree .default "." options true with
  | ok found =>
    rw [hfound] at h
    have hweb : Candidate tree .default options 2 ["repo"] ["apps", "web"] :=
      (candidate_cons hs).mpr ⟨by decide, .inr ⟨by decide, candidate_singleton (by decide)⟩⟩
    exact ⟨found, rfl, h.2, (h.2.mem_iff _).mpr ⟨_, .inr hweb, by decide, rfl⟩⟩
  | error f =>
    rw [hfound] at h
    obtain ⟨way, hasks, hnot, -⟩ := h
    exact absurd (fits hasks) hnot

end Monorepo

/-! ## Paths beyond the limit -/

namespace Deep

/-- The longest name that a file system takes. -/
def name : Text := List.replicate 255 (CodePoint.ofChar 'd')

/-- So many directories below each other. -/
def way (levels : Nat) : Location := List.replicate levels name

/-- Sixteen directories below each other, and nothing else. -/
def tree : Tree where
  entries := (List.range 16).map fun k => (way (k + 1), .folder)
  here := []

/-- The last but one of the directories. Its path can be asked for, those below it cannot. -/
def root : Path := Path.ofLocation (way 15)

theorem isEntryName_name : IsEntryName name := by decide +kernel

theorem get?_way : ∀ k ≤ 16, tree.get? (way k) = some .folder := by decide +kernel

theorem named : Tree.Named tree := by
  have hnames : ∀ x ∈ tree.entries, ∀ y ∈ x.1, y = name := by
    intro x hx y hy
    obtain ⟨k, -, rfl⟩ := List.mem_map.mp hx
    exact List.eq_of_mem_replicate hy
  refine ⟨?_, ?_, ?_, by decide +kernel⟩
  · exact fun x hx y hy => hnames x hx y hy ▸ isEntryName_name.1
  · exact fun x hx y hy => hnames x hx y hy ▸ isEntryName_name.2.1
  · exact fun x hx y hy => hnames x hx y hy ▸ isEntryName_name.2.2

theorem fits_root : Fits .default ⟨.root, []⟩ (way 15) := by decide +kernel

theorem not_fits : ¬ Fits .default root [name] := by decide +kernel

theorem sound : Sound tree := by
  refine Tree.sound_of_entries rfl nofun fun x hx => ?_
  obtain ⟨k, hk, rfl⟩ := List.mem_map.mp hx
  have hlast : (way (k + 1)).dropLast = way k := by
    rw [way, List.dropLast_replicate, Nat.add_sub_cancel, ← way]
  rw [hlast]
  exact get?_way k (Nat.le_of_lt (List.mem_range.mp hk))

theorem noLinks : NoLinks tree := by
  refine Tree.noLinks_of_entries fun x hx target => ?_
  obtain ⟨k, -, rfl⟩ := List.mem_map.mp hx
  exact nofun

theorem ground : tree.Ground root (way 15) := by
  have htop : tree.Ground ⟨.root, []⟩ [] := ⟨rfl, nofun, noLinks.clearWay [] [], rfl, rfl⟩
  exact Fits.ground sound named noLinks htop (get?_way 15 (by decide)) fits_root

/-- Although no directory holds a manifest, a search does not answer that there are none. -/
theorem search_beyond_limit : Sound tree ∧ Tree.Named tree ∧ NoLinks tree ∧
    tree.resolve (.ofText root.toText) = .ok root ∧ tree.status root = .ok (way 15, .folder) ∧
    (∀ l, ¬ Holds tree .default l) ∧
    ∀ found, search tree .default root.toText .default false ≠ .ok found := by
  have hresolve := ground.resolve_toText sound named
  refine ⟨sound, named, noLinks, hresolve, ground.folder, ?_, ?_⟩
  · rintro l ⟨bytes, hk⟩
    obtain ⟨k, -, he⟩ := List.mem_map.mp (Tree.mem_entries_of_get? (by simp) hk)
    exact nomatch (Prod.mk.inj he).2
  · intro found hfound
    have hm : IsEntryName Settings.default.manifestName := by decide
    have hasks : Asks tree .default .default false (way 15) [name] :=
      .inr (candidate_singleton ⟨get?_way 16 (by decide), by decide +kernel⟩)
    rw [search_of_resolve hresolve] at hfound
    cases hat : searchAt tree .default .default false root with
    | error f => rw [hat] at hfound; cases hfound
    | ok paths => exact not_fits (fits_of_searchAt ground sound named noLinks hm hat hasks)

end Deep

end Search

end PackageAudit
