import PackageAudit.Proofs.Package.Found

/-! # Links to packages

A search that does not follow links goes through directories only, whatever links are in the tree
(`Passes`), but a link to a package that it meets there is a package to it (`Meets`, `mem_visit`). So it
finds a package twice, or past a link, only by way of such a link (`not_eachOnce_iff`): what is no link
leads to a directory of its own.
-/

namespace PackageAudit

open PackageAudit.Tree (Sound Named ClearWay)

namespace Search

/-! ## Rows of questions that were all answered -/

section
variable {t : Tree} {s : Settings} {o : SearchOptions} {d : Descent} {p q : Path} {l : Location}
  {name : Text} {found : List Path}

/-- The packages that come of a name in a directory, none if a question fails there. -/
def packagesBy (t : Tree) (s : Settings) (o : SearchOptions) (d : Descent) (p : Path) (l : Location)
    (name : Text) : List Path :=
  match look t s o p l name with
  | .ok sight => (packagesOf d sight).toOption.getD []
  | .error _ => []

theorem visitFolder_of_no_folder (h : ¬ ∃ l, t.status p = .ok (l, .folder)) :
    visitFolder t s o d p = .ok [] := by
  unfold visitFolder
  split
  · next l hp => exact absurd ⟨l, hp⟩ h
  · rfl

theorem visitFolder_eq_ok (hp : t.status p = .ok (l, .folder))
    (h : visitFolder t s o d p = .ok found) :
    (∀ name ∈ t.names l, ∃ sight, look t s o p l name = .ok sight ∧
      packagesOf d sight = .ok (packagesBy t s o d p l name)) ∧
    found = (t.names l).flatMap (packagesBy t s o d p l) := by
  have hsome {ε α : Type} {x : Except ε α} {a b : α} (hx : x = .ok a) : a = x.toOption.getD b := by
    rw [hx]
    rfl
  unfold visitFolder at h
  rw [hp] at h
  simp only at h
  cases hsights : (t.names l).mapM (look t s o p l) with
  | error f => rw [hsights] at h; cases h
  | ok sights =>
    rw [hsights] at h
    obtain ⟨hlook, rfl⟩ := of_mapM_eq_ok (fun name => (look t s o p l name).toOption.getD .nothing)
      (fun name => look t s o p l name = .ok ((look t s o p l name).toOption.getD .nothing))
      (fun name _ sight hsight => ⟨hsome hsight ▸ hsight, hsome hsight⟩) hsights
    simp only [bind, Except.bind] at h
    rw [List.mapM_map] at h
    split at h
    · cases h
    · next ps hps =>
      cases h
      obtain ⟨hof, rfl⟩ := of_mapM_eq_ok (packagesBy t s o d p l)
        (fun name => ∃ sight, look t s o p l name = .ok sight ∧
          packagesOf d sight = .ok (packagesBy t s o d p l name))
        (fun name hname ps hps => by
          have hby : ps = packagesBy t s o d p l name := by
            unfold packagesBy
            rw [hlook name hname]
            exact hsome hps
          exact ⟨⟨_, hlook name hname, hby ▸ hps⟩, hby⟩) hps
      exact ⟨hof, List.flatMap_def.symm⟩

end

/-! ## The way of a search -/

section
variable (t : Tree) (s : Settings) (o : SearchOptions)

/-- A path leads to a directory that holds a manifest. -/
abbrev IsPackage (p : Path) : Prop := holdsManifest t s p = .ok true

/-- The way from a directory to one, at most so many levels down, whose names are looked at. Its
directories lie where their paths lead, so none of them is a link. -/
structure Passes (levels : Nat) (p : Path) (l way : Location) : Prop where
  length_le : way.length ≤ levels
  place : ∀ part, part <+: way → t.status (p.append part) = .ok (l ++ part, .folder)
  searched : ∀ name ∈ way, isSearched o name = true
  free : ∀ part, part <+: way → part ≠ [] → ¬ IsPackage t s (p.append part)

/-- A name in a directory is that of a package, or of a link to one. -/
structure Meets (p : Path) (l : Location) (name : Text) : Prop where
  folder : isFolder t (l ++ [name]) (p.append [name]) = true
  searched : isSearched o name = true
  package : IsPackage t s (p.append [name])

end

section
variable {t : Tree} {s : Settings} {o : SearchOptions} {d : Descent} {p q : Path} {l way : Location}
  {name : Text} {levels : Nat} {found : List Path}

theorem isFolder_of_get? (h : t.get? (l ++ [name]) = some .folder) (p : Path) :
    isFolder t (l ++ [name]) p = true := by
  unfold isFolder
  rw [h]

theorem get?_of_isFolder (h : isFolder t (l ++ [name]) p = true) : t.get? (l ++ [name]) ≠ none := by
  unfold isFolder at h
  intro hnone
  rw [hnone] at h
  cases h

theorem link_of_isFolder (h : isFolder t (l ++ [name]) p = true)
    (hno : t.get? (l ++ [name]) ≠ some .folder) :
    (∃ target, t.get? (l ++ [name]) = some (.link target)) ∧ ∃ k, t.status p = .ok (k, .folder) := by
  unfold isFolder at h
  split at h
  · next hk => exact absurd hk hno
  · next target hk =>
    split at h
    · next k hst => exact ⟨⟨target, hk⟩, k, hst⟩
    · cases h
  · cases h

/-- A directory in a directory lies where its path leads. -/
theorem status_folder_child (hn : Named t) (hp : t.status p = .ok (l, .folder))
    (hk : t.get? (l ++ [name]) = some .folder) {k : Location} {e : Entry}
    (h : t.status (p.append [name]) = .ok (k, e)) : k = l ++ [name] ∧ e = .folder := by
  obtain ⟨hstep, hplain, -⟩ := hn.of_get? (by rw [hk]; exact nofun) name (by simp)
  have hst := Tree.status_child hp hstep (by rw [hplain, hk]; exact nofun)
  rw [hplain, h] at hst
  split at hst
  · cases hst
  · rw [Tree.occupied, hk] at hst
    cases hst
    exact ⟨rfl, rfl⟩

theorem passes_nil (hp : t.status p = .ok (l, .folder)) : Passes t s o levels p l [] where
  length_le := Nat.zero_le _
  place part h := by rwa [List.prefix_nil.mp h, Path.append_nil, List.append_nil]
  searched := nofun
  free part h hne := absurd (List.prefix_nil.mp h) hne

theorem Passes.status (h : Passes t s o levels p l way) : t.status p = .ok (l, .folder) := by
  have hplace := h.place [] List.nil_prefix
  rwa [Path.append_nil, List.append_nil] at hplace

theorem passes_cons : Passes t s o (levels + 1) p l (name :: way) ↔
    t.status p = .ok (l, .folder) ∧ isSearched o name = true ∧ ¬ IsPackage t s (p.append [name]) ∧
      Passes t s o levels (p.append [name]) (l ++ [name]) way := by
  constructor
  · intro h
    refine ⟨h.status, h.searched name List.mem_cons_self, h.free [name] (by simp) (by simp), ?_⟩
    refine ⟨Nat.le_of_succ_le_succ h.length_le, fun part hpart => ?_,
      fun x hx => h.searched x (List.mem_cons_of_mem name hx), fun part hpart _ => ?_⟩
    · have hst := h.place (name :: part) (by simpa using hpart)
      rwa [List.append_cons, ← List.singleton_append, ← Path.append_append] at hst
    · have hfree := h.free (name :: part) (by simpa using hpart) (by simp)
      rwa [← List.singleton_append, ← Path.append_append] at hfree
  · rintro ⟨hp, hname, hno, h⟩
    refine ⟨Nat.succ_le_succ h.length_le, fun part hpart => ?_,
      List.forall_mem_cons.mpr ⟨hname, h.searched⟩, fun part hpart hne => ?_⟩
    · rcases List.prefix_cons_iff.mp hpart with rfl | ⟨rest, rfl, hrest⟩
      · rwa [Path.append_nil, List.append_nil]
      · rw [List.append_cons, ← List.singleton_append, ← Path.append_append]
        exact h.place rest hrest
    · rcases List.prefix_cons_iff.mp hpart with rfl | ⟨rest, rfl, hrest⟩
      · exact absurd rfl hne
      · rw [← List.singleton_append, ← Path.append_append]
        by_cases hr : rest = []
        · rwa [hr, Path.append_nil]
        · exact h.free rest hrest hr

theorem mem_of_look (ho : o.followLinks = false) {below : Prop} {sight : Sight} {ps : List Path}
    (hlook : look t s o p l name = .ok sight) (hps : packagesOf d sight = .ok ps)
    (hbelow : t.get? (l ++ [name]) = some .folder → ∀ found,
      packagesOf d (.container (p.append [name])) = .ok found → (q ∈ found ↔ below)) :
    q ∈ ps ↔ Meets t s o p l name ∧ q = p.append [name] ∨
      t.get? (l ++ [name]) = some .folder ∧ isSearched o name = true ∧
        ¬ IsPackage t s (p.append [name]) ∧ below := by
  unfold look at hlook
  by_cases hlooks : isFolder t (l ++ [name]) (p.append [name]) = true ∧ isSearched o name = true
  · obtain ⟨hfolder, hname⟩ := hlooks
    simp only [hfolder, hname, Bool.not_true, Bool.or_self, Bool.false_eq_true, if_false] at hlook
    cases hm : holdsManifest t s (p.append [name]) with
    | error f => rw [hm] at hlook; cases hlook
    | ok held =>
      rw [hm] at hlook
      cases held with
      | true =>
        cases hlook
        cases hps
        have hmeets : Meets t s o p l name := ⟨hfolder, hname, hm⟩
        simp [hmeets, hm]
      | false =>
        have hnot : ¬ Meets t s o p l name := fun h => nomatch hm.symm.trans h.package
        by_cases hk : t.get? (l ++ [name]) = some .folder
        · simp only [hk, ho, decide_true, Bool.true_or, if_true, Except.ok.injEq] at hlook
          rw [← hlook] at hps
          simp [hnot, hk, hname, hm, hbelow hk ps hps]
        · simp only [hk, ho, decide_false, Bool.or_self, Bool.false_eq_true, if_false,
            Except.ok.injEq] at hlook
          rw [← hlook] at hps
          cases hps
          simp [hnot, hk]
  · have hskip : (!isFolder t (l ++ [name]) (p.append [name]) || !isSearched o name) = true := by
      rwa [← Bool.not_and, Bool.not_eq_true', ← Bool.not_eq_true, Bool.and_eq_true]
    rw [if_pos hskip] at hlook
    cases hlook
    cases hps
    have hnot : ¬ Meets t s o p l name := fun h => hlooks ⟨h.folder, h.searched⟩
    have hno : t.get? (l ++ [name]) = some .folder → isSearched o name ≠ true :=
      fun hk hname => hlooks ⟨isFolder_of_get? hk _, hname⟩
    simp only [List.not_mem_nil, hnot, false_and, false_or, false_iff]
    exact fun ⟨hk, hname, _⟩ => hno hk hname

theorem mem_visitFolder (ho : o.followLinks = false) (hp : t.status p = .ok (l, .folder))
    {below : Text → Prop} (hbelow : ∀ name, t.get? (l ++ [name]) = some .folder → ∀ found,
      packagesOf d (.container (p.append [name])) = .ok found → (q ∈ found ↔ below name))
    (h : visitFolder t s o d p = .ok found) : q ∈ found ↔ ∃ name,
      Meets t s o p l name ∧ q = p.append [name] ∨
        t.get? (l ++ [name]) = some .folder ∧ isSearched o name = true ∧
          ¬ IsPackage t s (p.append [name]) ∧ below name := by
  obtain ⟨hok, rfl⟩ := visitFolder_eq_ok hp h
  rw [List.mem_flatMap]
  refine exists_congr fun name => ⟨fun ⟨hname, hq⟩ => ?_, fun hname => ?_⟩
  · obtain ⟨sight, hlook, hps⟩ := hok name hname
    exact (mem_of_look ho hlook hps (hbelow name)).mp hq
  · have hentry : name ∈ t.names l := Tree.mem_names.mpr (by
      rcases hname with ⟨hmeets, -⟩ | ⟨hk, -⟩
      · exact get?_of_isFolder hmeets.folder
      · rw [hk]
        exact nofun)
    obtain ⟨sight, hlook, hps⟩ := hok name hentry
    exact ⟨hentry, (mem_of_look ho hlook hps (hbelow name)).mpr hname⟩

/-- **What a search finds without following links**, by induction on the levels. -/
theorem mem_visit (hn : Named t) (ho : o.followLinks = false) : ∀ {levels : Nat} {p : Path}
    {l : Location} {found : List Path}, t.status p = .ok (l, .folder) →
      visit t s o levels p = .ok found → (q ∈ found ↔ ∃ way name, Passes t s o levels p l way ∧
        Meets t s o (p.append way) (l ++ way) name ∧ q = p.append (way ++ [name]))
  | 0, p, l, found, hp, h => by
    have hbelow (name : Text) (_ : t.get? (l ++ [name]) = some .folder) (found : List Path)
        (hf : packagesOf none (.container (p.append [name])) = .ok found) :
        q ∈ found ↔ False := by
      cases hf
      simp
    rw [mem_visitFolder ho hp hbelow h]
    constructor
    · rintro ⟨name, ⟨hmeets, hq⟩ | ⟨-, -, -, hf⟩⟩
      · exact ⟨[], name, passes_nil hp, by rwa [Path.append_nil, List.append_nil], hq⟩
      · exact hf.elim
    · rintro ⟨way, name, hpass, hmeets, hq⟩
      obtain rfl := List.length_eq_zero_iff.mp (Nat.le_zero.mp hpass.length_le)
      rw [Path.append_nil, List.append_nil] at hmeets
      exact ⟨name, .inl ⟨hmeets, hq⟩⟩
  | levels + 1, p, l, found, hp, h => by
    have hbelow (name : Text) (hk : t.get? (l ++ [name]) = some .folder) (found : List Path)
        (hf : packagesOf (some (visit t s o levels)) (.container (p.append [name])) = .ok found) :
        q ∈ found ↔ ∃ way last, Passes t s o levels (p.append [name]) (l ++ [name]) way ∧
          Meets t s o ((p.append [name]).append way) (l ++ [name] ++ way) last ∧
            q = (p.append [name]).append (way ++ [last]) := by
      change visit t s o levels (p.append [name]) = .ok found at hf
      cases hst : t.status (p.append [name]) with
      | ok x =>
        obtain ⟨k, e⟩ := x
        obtain ⟨rfl, rfl⟩ := status_folder_child hn hp hk hst
        exact mem_visit hn ho hst hf
      | error cause =>
        have hno : ¬ ∃ k, t.status (p.append [name]) = .ok (k, .folder) :=
          fun ⟨k, hk⟩ => nomatch hst.symm.trans hk
        have hnil : found = [] := by
          cases levels <;> exact Except.ok.inj (hf.symm.trans (visitFolder_of_no_folder hno))
        rw [hnil]
        refine ⟨fun hq => absurd hq List.not_mem_nil, fun ⟨way, last, hpass, _⟩ => ?_⟩
        cases hst.symm.trans hpass.status
    rw [mem_visitFolder ho hp hbelow h]
    constructor
    · rintro ⟨name, ⟨hmeets, hq⟩ | ⟨-, hname, hno, way, last, hpass, hmeets, hq⟩⟩
      · exact ⟨[], name, passes_nil hp, by rwa [Path.append_nil, List.append_nil], hq⟩
      · rw [Path.append_append, List.append_assoc, List.singleton_append] at hmeets
        rw [Path.append_append, List.singleton_append, ← List.cons_append] at hq
        exact ⟨name :: way, last, passes_cons.mpr ⟨hp, hname, hno, hpass⟩, hmeets, hq⟩
    · rintro ⟨_ | ⟨name, way⟩, last, hpass, hmeets, hq⟩
      · rw [Path.append_nil, List.append_nil] at hmeets
        exact ⟨last, .inl ⟨hmeets, hq⟩⟩
      · obtain ⟨-, hname, hno, hrest⟩ := passes_cons.mp hpass
        have hk : t.get? (l ++ [name]) = some .folder := (Tree.status_eq_ok.mp hrest.status).2
        refine ⟨name, .inr ⟨hk, hname, hno, way, last, hrest, ?_, ?_⟩⟩
        · rwa [Path.append_append, List.append_assoc, List.singleton_append]
        · rw [hq, Path.append_append, List.singleton_append, List.cons_append]

/-! ## Nothing is found by the same path twice -/

theorem exists_of_mem_packagesBy (hd : ∀ {p found}, packagesOf d (.container p) = .ok found →
      ∀ q ∈ found, ∃ more, q = p.append more) (hq : q ∈ packagesBy t s o d p l name) :
    ∃ more, q = p.append (name :: more) := by
  unfold packagesBy look at hq
  split at hq
  · next sight hlook =>
    simp only at hlook
    split at hlook
    · cases hlook
      cases hq
    · split at hlook
      · cases hlook
      · cases hlook
        exact ⟨[], List.mem_singleton.mp hq⟩
      · cases hlook
        split at hq
        · cases hof : packagesOf d (.container (p.append [name])) with
          | error f => rw [hof] at hq; cases hq
          | ok found =>
            rw [hof] at hq
            obtain ⟨more, rfl⟩ := hd hof q hq
            exact ⟨more, by rw [Path.append_append, List.singleton_append]⟩
        · cases hq
  · cases hq

theorem nodup_packagesBy (hd : ∀ {p found}, packagesOf d (.container p) = .ok found → found.Nodup) :
    (packagesBy t s o d p l name).Nodup := by
  unfold packagesBy
  split
  · next sight _ =>
    cases hof : packagesOf d sight with
    | error f => exact List.nodup_nil
    | ok found =>
      cases sight with
      | nothing =>
        cases hof
        exact List.nodup_nil
      | package q =>
        cases hof
        exact List.nodup_singleton q
      | container q => exact hd hof
  · exact List.nodup_nil

theorem nodup_visitFolder (hn : Named t)
    (hd : ∀ {p found}, packagesOf d (.container p) = .ok found →
      found.Nodup ∧ ∀ q ∈ found, ∃ more, q = p.append more)
    (h : visitFolder t s o d p = .ok found) :
    found.Nodup ∧ ∀ q ∈ found, ∃ more, q = p.append more ∧ more ≠ [] := by
  by_cases hfolder : ∃ l, t.status p = .ok (l, .folder)
  · obtain ⟨l, hp⟩ := hfolder
    obtain ⟨-, rfl⟩ := visitFolder_eq_ok hp h
    refine ⟨List.nodup_flatMap.mpr ⟨fun name _ => nodup_packagesBy fun hof => (hd hof).1, ?_⟩, ?_⟩
    · refine (Tree.nodup_names hn.once l).imp fun {a b} hab q ha hb => hab ?_
      obtain ⟨more, rfl⟩ := exists_of_mem_packagesBy (fun hof => (hd hof).2) ha
      obtain ⟨more', he⟩ := exists_of_mem_packagesBy (fun hof => (hd hof).2) hb
      exact (List.cons.inj (Path.append_inj he)).1
    · intro q hq
      obtain ⟨name, -, hq⟩ := List.mem_flatMap.mp hq
      obtain ⟨more, rfl⟩ := exists_of_mem_packagesBy (fun hof => (hd hof).2) hq
      exact ⟨name :: more, rfl, by simp⟩
  · obtain rfl : found = [] := Except.ok.inj (h.symm.trans (visitFolder_of_no_folder hfolder))
    exact ⟨List.nodup_nil, nofun⟩

theorem nodup_visit (hn : Named t) : ∀ {levels : Nat} {p : Path} {found : List Path},
    visit t s o levels p = .ok found →
      found.Nodup ∧ ∀ q ∈ found, ∃ more, q = p.append more ∧ more ≠ []
  | 0, _, _, h => nodup_visitFolder hn (d := none) (fun hof => by
      cases hof
      exact ⟨List.nodup_nil, nofun⟩) h
  | levels + 1, _, _, h => nodup_visitFolder hn (d := some (visit t s o levels)) (fun hof =>
      let hvisit := nodup_visit hn hof
      ⟨hvisit.1, fun q hq => (hvisit.2 q hq).imp fun _ hmore => hmore.1⟩) h

end

/-! ## What is found twice -/

section
variable (t : Tree) (s : Settings) (o : SearchOptions) (root : Path)

/-- Two paths lead to one directory, whatever links they go through. -/
def SameFolder (p q : Path) : Prop :=
  ∃ l, t.status p = .ok (l, .folder) ∧ t.status q = .ok (l, .folder)

/-- A path goes on from the root through a link. -/
def PastLink (q : Path) : Prop :=
  ∃ base way, t.status root = .ok (base, .folder) ∧ q = root.append way ∧ ¬ ClearWay t base way

/-- No two of the paths lead to one directory, and none goes through a link below the root. -/
structure EachOnce (found : List Path) : Prop where
  apart : found.Pairwise fun p q => ¬ SameFolder t p q
  direct : ∀ q ∈ found, ¬ PastLink t root q

/-- A search meets a link to a package. -/
structure MeetsLink (base way : Location) (name : Text) : Prop where
  passes : Passes t s o o.maxDepth.toNat root base way
  meets : Meets t s o (root.append way) (base ++ way) name
  link : ∃ target, t.get? (base ++ way ++ [name]) = some (.link target)

end

section
variable {t : Tree} {s : Settings} {o : SearchOptions} {path : Text} {root : Path}
  {base way : Location} {name : Text} {includeRoot : Bool} {found : List Path}

theorem searchAt_eq_ok (hbase : t.isFolder root = .ok true)
    (h : searchAt t s o includeRoot root = .ok found) :
    ∃ own below, visit t s o o.maxDepth.toNat root = .ok below ∧
      found = (own ++ below).mergeSort (fun p q => !Location.before q.parts p.parts) ∧
        (own = [] ∨ own = [root]) := by
  unfold searchAt at h
  rw [hbase] at h
  have hrest (own : Bool) (h : (do
      let below ← visit t s o o.maxDepth.toNat root
      return ((if own then [root] else []) ++ below).mergeSort
        fun p q => !Location.before q.parts p.parts) = Except.ok found) :
      ∃ own below, visit t s o o.maxDepth.toNat root = .ok below ∧
        found = (own ++ below).mergeSort (fun p q => !Location.before q.parts p.parts) ∧
          (own = [] ∨ own = [root]) := by
    cases hbelow : visit t s o o.maxDepth.toNat root with
    | error f => rw [hbelow] at h; cases h
    | ok below =>
      rw [hbelow] at h
      refine ⟨_, below, rfl, (Except.ok.inj h).symm, ?_⟩
      cases own
      · exact .inl rfl
      · exact .inr rfl
  cases includeRoot with
  | false => exact hrest false h
  | true =>
    cases hown : holdsManifest t s root with
    | error f => simp [hown, bind, Except.bind] at h
    | ok own =>
      simp only [hown] at h
      exact hrest own h

theorem searchAt_of_not_folder (hbase : t.isFolder root ≠ .ok true)
    (h : searchAt t s o includeRoot root = .ok found) : found = [] := by
  unfold searchAt at h
  cases hf : t.isFolder root with
  | error f => simp [hf, bind, Except.bind] at h
  | ok folder =>
    cases folder with
    | true => exact absurd hf hbase
    | false =>
      rw [hf] at h
      exact (Except.ok.inj h).symm

/-- A path past no link, which leads where its names say. -/
def Direct (t : Tree) (root : Path) (base : Location) (q : Path) : Prop :=
  ∃ way, q = root.append way ∧ ClearWay t base way ∧
    ∀ l, t.status q = .ok (l, .folder) → l = base ++ way

theorem direct_root (hbase : t.status root = .ok (base, .folder)) : Direct t root base root := by
  refine ⟨[], (Path.append_nil root).symm, fun part hpart hne => ?_, fun l hl => ?_⟩
  · exact absurd (List.prefix_nil.mp hpart) hne
  · rw [List.append_nil]
    exact (Prod.mk.inj (Except.ok.inj (hl.symm.trans hbase))).1

theorem eachOnce_of_direct (hbase : t.status root = .ok (base, .folder)) (hnodup : found.Nodup)
    (h : ∀ q ∈ found, Direct t root base q) : EachOnce t root found where
  apart := by
    refine List.Pairwise.imp_of_mem (fun {p q} hp hq hpq hsame => hpq ?_) hnodup
    obtain ⟨l, hlp, hlq⟩ := hsame
    obtain ⟨wayp, rfl, -, hp⟩ := h p hp
    obtain ⟨wayq, rfl, -, hq⟩ := h q hq
    rw [List.append_cancel_left ((hp l hlp).symm.trans (hq l hlq))]
  direct q hq hpast := by
    obtain ⟨base', way', hbase', rfl, hnot⟩ := hpast
    obtain ⟨way, hway, hclear, -⟩ := h _ hq
    cases hbase.symm.trans hbase'
    rw [Path.append_inj hway] at hnot
    exact hnot hclear

theorem plain_of_get? (hn : Named t) (h : t.get? (base ++ way) ≠ none) :
    way.map Name.plain = way :=
  Tree.map_plain fun x hx => hn.of_get? h x (List.mem_append_right base hx)

theorem direct_of_meets (hn : Named t) (hpass : Passes t s o o.maxDepth.toNat root base way)
    (hmeets : Meets t s o (root.append way) (base ++ way) name)
    (hno : ∀ target, t.get? (base ++ way ++ [name]) ≠ some (.link target)) :
    Direct t root base (root.append (way ++ [name])) := by
  have hk : t.get? (base ++ way ++ [name]) = some .folder := Classical.byContradiction fun hk =>
    (link_of_isFolder hmeets.folder hk).1.elim hno
  have hfolder : ∀ part, part <+: way ++ [name] → t.get? (base ++ part) = some .folder := by
    intro part hpart
    rcases List.prefix_concat_iff.mp hpart with rfl | hpart
    · rwa [← List.append_assoc]
    · exact (Tree.status_eq_ok.mp (hpass.place part hpart)).2
  refine ⟨way ++ [name], rfl, fun part hpart _ target hl => ?_, fun l hl => ?_⟩
  · have hpart := hfolder part hpart
    rw [plain_of_get? hn (by rw [hpart]; exact nofun), hpart] at hl
    cases hl
  · rw [← Path.append_append] at hl
    rw [(status_folder_child hn (hpass.place way List.prefix_rfl) hk hl).1, List.append_assoc]

theorem pastLink_of_meetsLink (hn : Named t) (hbase : t.status root = .ok (base, .folder))
    (h : MeetsLink t s o root base way name) : PastLink t root (root.append (way ++ [name])) := by
  obtain ⟨target, hl⟩ := h.link
  rw [List.append_assoc] at hl
  refine ⟨base, way ++ [name], hbase, rfl, fun hclear => ?_⟩
  have hno := hclear (way ++ [name]) List.prefix_rfl (by simp) target
  rw [plain_of_get? hn (by rw [hl]; exact nofun)] at hno
  exact hno hl

theorem searchAt_of_search (hroot : t.resolve (.ofText path) = .ok root)
    (h : search t s path o includeRoot = .ok found) :
    searchAt t s o includeRoot root = .ok found := by
  rw [search_of_resolve hroot] at h
  cases hs : searchAt t s o includeRoot root with
  | error f => rw [hs] at h; cases h
  | ok found' =>
    rw [hs] at h
    rw [Except.ok.inj h]

/-- **When a search that follows no links finds a package twice, or past a link**: if and only if it
meets a link to a package. -/
theorem not_eachOnce_iff (hn : Named t) (ho : o.followLinks = false)
    (hroot : t.resolve (.ofText path) = .ok root)
    (h : search t s path o includeRoot = .ok found) :
    ¬ EachOnce t root found ↔ ∃ base way name, t.status root = .ok (base, .folder) ∧
      MeetsLink t s o root base way name := by
  have hat := searchAt_of_search hroot h
  by_cases hfolder : t.isFolder root = .ok true
  · obtain ⟨-, base, hbase⟩ := Tree.isFolder_eq_true.mp hfolder
    obtain ⟨own, below, hvisit, rfl, hown⟩ := searchAt_eq_ok hfolder hat
    obtain ⟨hnodup, hbelow⟩ := nodup_visit hn hvisit
    have hall : (own ++ below).Nodup := by
      rcases hown with rfl | rfl
      · exact hnodup
      · refine List.nodup_cons.mpr ⟨fun hr => ?_, hnodup⟩
        obtain ⟨more, hmore, hne⟩ := hbelow root hr
        exact hne (Path.append_inj (hmore.symm.trans (Path.append_nil root).symm))
    constructor
    · refine fun hnot => Classical.byContradiction fun hno => hnot ?_
      refine eachOnce_of_direct hbase ((List.mergeSort_perm _ _).nodup_iff.mpr hall) fun q hq => ?_
      rcases List.mem_append.mp (List.mem_mergeSort.mp hq) with hq | hq
      · rcases hown with rfl | rfl
        · cases hq
        · rw [List.mem_singleton.mp hq]
          exact direct_root hbase
      · obtain ⟨way, name, hpass, hmeets, rfl⟩ := (mem_visit hn ho hbase hvisit).mp hq
        exact direct_of_meets hn hpass hmeets fun target hl =>
          hno ⟨base, way, name, hbase, hpass, hmeets, target, hl⟩
    · rintro ⟨base', way, name, hbase', hlink⟩ honce
      cases hbase.symm.trans hbase'
      have hq := (mem_visit hn ho hbase hvisit).mpr ⟨way, name, hlink.passes, hlink.meets, rfl⟩
      exact honce.direct _ (List.mem_mergeSort.mpr (List.mem_append_right own hq))
        (pastLink_of_meetsLink hn hbase hlink)
  · rw [searchAt_of_not_folder hfolder hat]
    refine ⟨fun hnot => absurd ⟨.nil, nofun⟩ hnot, fun ⟨base, _, _, hbase, _⟩ => ?_⟩
    exact absurd (Tree.isFolder_eq_true.mpr ⟨(Tree.resolve_eq_ok hroot).1, base, hbase⟩) hfolder

end

/-! ### A package and a link to it -/

namespace Linked

/-- A package and, beside it, a link to it. -/
def tree : Tree :=
  ⟨[(["a"], .folder), (["a", "package.json"], .file [123, 125]), (["b"], .link "a")], []⟩

def root : Path := ⟨.root, []⟩

/-- What a search finds there. -/
def found : List Path := [⟨.root, ["a"]⟩, ⟨.root, ["b"]⟩]

theorem search_eq : search tree .default "." .default false = .ok found := by
  have hroot : tree.resolve (.ofText ".") = .ok root := by rfl
  have hst : tree.status root = .ok ([], .folder) := by rfl
  have hnames : tree.names [] = [Text.ofString "a", Text.ofString "b"] :=
    Tree.names_of_ordered (by decide) (by decide)
  have hvisit : visit tree .default .default 10 root = .ok found := by
    unfold visit visitFolder
    rw [hst]
    simp only
    rw [hnames]
    rfl
  have hsorted : found.mergeSort (fun p q => !Location.before q.parts p.parts) = found :=
    List.mergeSort_of_pairwise (by decide)
  have hat : searchAt tree .default .default false root = .ok found := by
    show (do
      let below ← visit tree .default .default 10 root
      return below.mergeSort fun p q => !Location.before q.parts p.parts) = _
    rw [hvisit]
    exact congrArg Except.ok hsorted
  rw [search_of_resolve hroot, hat]
  rfl

end Linked

/-- Both the package and the link to it are found. -/
theorem not_eachOnce_linked : Tree.Named Linked.tree ∧ SearchOptions.default.followLinks = false ∧
    Linked.tree.resolve (.ofText ".") = .ok Linked.root ∧
    search Linked.tree .default "." .default false = .ok Linked.found ∧
    ¬ EachOnce Linked.tree Linked.root Linked.found := by
  have hn : Tree.Named Linked.tree := ⟨by decide, by decide, by decide, by decide⟩
  have hroot : Linked.tree.resolve (.ofText ".") = .ok Linked.root := by rfl
  refine ⟨hn, rfl, hroot, Linked.search_eq, ?_⟩
  have hbase : Linked.tree.status Linked.root = .ok ([], .folder) := by rfl
  refine (not_eachOnce_iff hn rfl hroot Linked.search_eq).mpr ⟨[], [], "b", hbase, ?_⟩
  exact ⟨passes_nil hbase, ⟨by rfl, by decide, by rfl⟩, "a", by rfl⟩

end Search

end PackageAudit
