import PackageAudit.Proofs.Tree.Path
import PackageAudit.Proofs.Tree.Walk

/-! # The shape of trees

A tree that comes of making directories and writing files is `Sound`: what it holds lies in a
directory, and relative paths start at one. In a sound tree a walk ends at a directory or right
below one, and never at a link when a file is to be written (`walk_site`); putting a file or a
directory there keeps the tree sound (`Sound.put`). Names that are no double dots (`IsStep`) lead
straight down as long as no link is met (`walk_straight`). The names of a way and of the links on it
make up what it reaches (`walk_names`). Without links what is there could be reached before the tree
has grown, too (`walk_of_grown`).
-/

namespace PackageAudit.Tree

/-- A name that leads down. -/
def IsStep (name : Text) : Prop := Path.IsPart name ∧ name ≠ ".."

instance (name : Text) : Decidable (IsStep name) := inferInstanceAs (Decidable (_ ∧ _))

instance (path : Text) : Decidable (vet path = .ok ()) :=
  match vet path with
  | .ok () => isTrue rfl
  | .error _ => isFalse nofun

/-- What is there lies in a directory, and relative paths start at one. -/
structure Sound (t : Tree) : Prop where
  here : t.get? t.here = some .folder
  hereSteps : ∀ name ∈ t.here, IsStep name
  parent : ∀ {l name}, t.get? (l ++ [name]) ≠ none → t.get? l = some .folder

/-- A name as a file system gives it. -/
def IsEntryName (name : Text) : Prop := IsStep name ∧ Name.plain name = name ∧ vet name = .ok ()

instance (name : Text) : Decidable (IsEntryName name) :=
  inferInstanceAs (Decidable (_ ∧ _ ∧ _))

theorem map_plain {names : List Text} (h : ∀ name ∈ names, IsEntryName name) :
    names.map Name.plain = names :=
  (List.map_congr_left fun name hn => (h name hn).2.1).trans (List.map_id names)

/-- Names are as a file system gives them, and nothing is there twice. -/
structure Named (t : Tree) : Prop where
  step : ∀ x ∈ t.entries, ∀ name ∈ x.1, IsStep name
  plain : ∀ x ∈ t.entries, ∀ name ∈ x.1, Name.plain name = name
  vetted : ∀ x ∈ t.entries, ∀ name ∈ x.1, vet name = .ok ()
  once : (t.entries.map (·.1)).Nodup

/-- Files and directories only. -/
def NoLinks (t : Tree) : Prop := ∀ k target, t.get? k ≠ some (.link target)

section
variable {t : Tree}

theorem Sound.folder_of_append (h : Sound t) {l : Location} {name : Text} {rest : List Text}
    (hk : t.get? (l ++ name :: rest) ≠ none) : t.get? l = some .folder := by
  induction rest generalizing l name with
  | nil => exact h.parent hk
  | cons next rest ih =>
    have hl : t.get? (l ++ [name]) = some .folder := ih (by simpa using hk)
    exact h.parent (by rw [hl]; exact nofun)

theorem Sound.dropLast (h : Sound t) {l : Location} (hl : t.get? l = some .folder) :
    t.get? l.dropLast = some .folder := by
  rcases List.eq_nil_or_concat l with rfl | ⟨init, last, rfl⟩
  · exact hl
  · rw [List.concat_eq_append, List.dropLast_concat]
    rw [List.concat_eq_append] at hl
    exact h.parent (by rw [hl]; exact nofun)

theorem Sound.start (h : Sound t) (p : Path) : t.get? (t.start p) = some .folder := by
  unfold Tree.start
  split
  · exact get?_root t
  · exact h.here

theorem mem_entries_of_get? {l : Location} {e : Entry} (hl : l ≠ []) (h : t.get? l = some e) :
    (l, e) ∈ t.entries := by
  unfold get? at h
  rw [if_neg hl] at h
  obtain ⟨x, hx, rfl⟩ := Option.map_eq_some_iff.mp h
  have hk := List.find?_some hx
  simp only [beq_iff_eq] at hk
  exact hk ▸ List.mem_of_find?_eq_some hx

/-- A tree is sound if each of its entries lies in a directory. -/
theorem sound_of_entries (here : t.get? t.here = some .folder)
    (hereSteps : ∀ name ∈ t.here, IsStep name)
    (h : ∀ x ∈ t.entries, t.get? x.1.dropLast = some .folder) : Sound t where
  here := here
  hereSteps := hereSteps
  parent {l name} hk := by
    obtain ⟨e, he⟩ := Option.ne_none_iff_exists'.mp hk
    have hp := h _ (mem_entries_of_get? (by simp) he)
    rwa [List.dropLast_concat] at hp

theorem noLinks_of_entries (h : ∀ x ∈ t.entries, ∀ target, x.2 ≠ .link target) : NoLinks t := by
  intro k target hk
  have hne : k ≠ [] := ne_nil_of_get? (by rw [hk]; exact nofun)
  exact h _ (mem_entries_of_get? hne hk) target rfl

/-! ## Where walks end -/

/-- A directory, or a place for an entry in one. -/
def Site (t : Tree) (l : Location) : Prop :=
  t.get? l = some .folder ∨ ∃ folder name, t.get? folder = some .folder ∧ l = folder ++ [name]

theorem advance_site (h : Sound t) (purpose : Purpose) (names : List Text) {folder : Location}
    (hf : t.get? folder = some .folder) :
    match advance t purpose folder names with
    | .reached l => Site t l ∧ (purpose ≠ .entry → ∀ target, t.get? l ≠ some (.link target))
    | .link g _ _ => t.get? g = some .folder
    | .blocked _ => True := by
  fun_induction advance t purpose folder names
  case case1 folder => exact ⟨.inl hf, fun _ target => by simp [hf]⟩
  case case2 ih => exact ih hf
  case case3 ih => exact ih (h.dropLast hf)
  case case6 l hnone _ =>
    exact ⟨.inr ⟨_, _, hf, rfl⟩, fun _ target => by simp [hnone]⟩
  case case8 hfolder ih => exact ih hfolder
  case case9 hfile _ =>
    exact ⟨.inr ⟨_, _, hf, rfl⟩, fun _ target => by simp [hfile]⟩
  case case11 hend => exact ⟨.inr ⟨_, _, hf, rfl⟩, fun hp => absurd hend.2 hp⟩
  case case12 => exact hf
  all_goals trivial

/-- **A walk ends at a directory or right below one**, and at no link unless it asks for it. -/
theorem walk_site (h : Sound t) {purpose : Purpose} {budget : Nat} {folder l : Location}
    {names : List Text} (hf : t.get? folder = some .folder)
    (hw : walk t purpose budget folder names = .ok l) :
    Site t l ∧ (purpose ≠ .entry → ∀ target, t.get? l ≠ some (.link target)) := by
  refine walk_keeps
    (Q := fun l => Site t l ∧ (purpose ≠ .entry → ∀ target, t.get? l ≠ some (.link target)))
    (motive := fun folder _ => t.get? folder = some .folder) (fun _ names _ hf ha => ?_)
    (fun _ names _ _ _ hf ha => ?_) hw hf
  · have hs := advance_site h purpose names hf
    rwa [ha] at hs
  · have hs := advance_site h purpose names hf
    rw [ha] at hs
    split
    · exact get?_root t
    · exact hs

theorem locate_site (h : Sound t) {purpose : Purpose} {p : Path} {l : Location}
    (hl : t.locate purpose p = .ok l) :
    Site t l ∧ (purpose ≠ .entry → ∀ target, t.get? l ≠ some (.link target)) :=
  walk_site h (h.start p) (locate_eq_ok.mp hl).2

/-- What is put at the end of a walk keeps the tree sound, unless it takes the place of a
directory. -/
theorem Sound.put (h : Sound t) {l : Location} {e : Entry} (hs : Site t l)
    (hl : t.get? l ≠ some .folder) : Sound (t.put l e) := by
  have hne (k : Location) (hk : t.get? k = some .folder) : k ≠ l := fun he => hl (he ▸ hk)
  obtain ⟨folder, name, hf, rfl⟩ := hs.resolve_left hl
  refine ⟨?_, h.hereSteps, fun {k last} hk => ?_⟩
  · exact (get?_put_of_ne (hne _ h.here) t e).trans h.here
  · have hkf : t.get? k = some .folder := by
      by_cases he : k ++ [last] = folder ++ [name]
      · exact (List.append_inj_left' he rfl) ▸ hf
      · rw [get?_put_of_ne he] at hk
        exact h.parent hk
    rw [get?_put_of_ne (hne k hkf), hkf]

end

/-! ## Straight walks -/

section
variable {t : Tree}

/-- No link lies on the way down from a directory. -/
def ClearWay (t : Tree) (folder : Location) (names : List Text) : Prop :=
  ∀ way, way <+: names → way ≠ [] → ∀ target, t.get? (folder ++ way.map Name.plain) ≠
    some (.link target)

theorem NoLinks.clearWay (h : NoLinks t) (folder : Location) (names : List Text) :
    ClearWay t folder names := fun _ _ _ => h _

theorem ClearWay.tail {folder : Location} {name : Text} {rest : List Text}
    (h : ClearWay t folder (name :: rest)) : ClearWay t (folder ++ [Name.plain name]) rest := by
  intro way hw _ target
  have hk := h (name :: way) (by simpa using hw) (List.cons_ne_nil name way) target
  simpa using hk

theorem advance_straight {names : List Text} (hs : ∀ name ∈ names, IsStep name) {folder : Location}
    (hc : ClearWay t folder names) (purpose : Purpose) :
    match advance t purpose folder names with
    | .reached l =>
      l = folder ++ names.map Name.plain ∧ ∀ name ∈ names, Name.size name ≤ maxNameBytes
    | .link _ _ _ => False
    | .blocked _ => True := by
  have hlast : ∀ {name : Text} {rest : List Text}, ¬ maxNameBytes < Name.size name → rest = [] →
      ∀ x ∈ name :: rest, Name.size x ≤ maxNameBytes := by
    rintro name _ hsize rfl x hx
    exact List.mem_singleton.mp hx ▸ Nat.le_of_not_lt hsize
  fun_induction advance t purpose folder names
  case case1 => simp
  case case2 name rest hdot ih =>
    obtain ⟨⟨hne, hdot', -⟩, -⟩ := hs name List.mem_cons_self
    exact (hdot.elim hne hdot').elim
  case case3 => exact absurd rfl (hs ".." List.mem_cons_self).2
  case case6 hsize l _ _ => exact ⟨by simp [l], hlast hsize rfl⟩
  case case8 name rest _ _ _ hsize l hfolder ih =>
    have hrest := ih (fun x hx => hs x (List.mem_cons_of_mem name hx)) hc.tail
    split at hrest
    · exact ⟨by simp [hrest.1, l], List.forall_mem_cons.mpr ⟨Nat.le_of_not_lt hsize, hrest.2⟩⟩
    · exact hrest
    · trivial
  case case9 hsize l _ _ _ => exact ⟨by simp [l], hlast hsize rfl⟩
  case case11 hsize l _ _ hend => exact ⟨by simp [l, hend.1], hlast hsize hend.1⟩
  case case12 folder name rest _ _ _ _ l target hlink _ =>
    exact hc [name] (by simp) (List.cons_ne_nil name []) target (by simpa [l] using hlink)
  all_goals trivial

/-- **A walk that goes down and meets no link ends where its names say**, and none of them is too
long. -/
theorem walk_straight {purpose : Purpose} {budget : Nat} {folder l : Location} {names : List Text}
    (hs : ∀ name ∈ names, IsStep name) (hc : ClearWay t folder names)
    (hw : walk t purpose budget folder names = .ok l) :
    l = folder ++ names.map Name.plain ∧ ∀ name ∈ names, Name.size name ≤ maxNameBytes := by
  have ha := advance_straight hs hc purpose
  rcases walk_eq_ok.mp hw with he | ⟨_, _, _, _, he, -⟩
  · rwa [he] at ha
  · rw [he] at ha
    exact ha.elim

theorem advance_folder (hs : Sound t) : ∀ {names : List Text} {folder : Location},
    (∀ name ∈ names, IsStep name) → (∀ name ∈ names, Name.size name ≤ maxNameBytes) →
    t.get? (folder ++ names.map Name.plain) = some .folder →
    advance t .target folder names = .reached (folder ++ names.map Name.plain)
  | [], folder, _, _, _ => by rw [List.map_nil, List.append_nil, advance]
  | name :: rest, folder, hn, hsize, hk => by
    obtain ⟨hfirst, hrest⟩ := List.forall_mem_cons.mp hn
    obtain ⟨hfirstSize, hrestSize⟩ := List.forall_mem_cons.mp hsize
    obtain ⟨⟨hne, hdot, -⟩, hup⟩ := hfirst
    rw [List.map_cons] at hk ⊢
    have hk' : t.get? (folder ++ [Name.plain name] ++ rest.map Name.plain) = some .folder := by
      simpa using hk
    have hfolder : t.get? (folder ++ [Name.plain name]) = some .folder := by
      cases rest with
      | nil => simpa using hk'
      | cons next rest =>
        rw [List.map_cons] at hk'
        exact hs.folder_of_append (by rw [hk']; exact Option.some_ne_none _)
    have hwalk := advance_folder hs hrest hrestSize hk'
    rw [advance, if_neg (by simp [hne, hdot]), if_neg hup, if_neg (by simp),
      if_neg (Nat.not_lt.mpr hfirstSize)]
    simp only [hfolder, hwalk, List.append_assoc, List.singleton_append]

end

/-! ## Walks without links -/

section
variable {t : Tree}

/-- What holds of every name that a link leads through. -/
def LinkNames (t : Tree) (q : Text → Prop) : Prop :=
  ∀ k target, t.get? k = some (.link target) → ∀ name ∈ Path.steps target, q (Name.plain name)

theorem NoLinks.linkNames (h : NoLinks t) (q : Text → Prop) : LinkNames t q :=
  fun k target hk => absurd hk (h k target)

theorem advance_names {q : Text → Prop} (h : LinkNames t q) (purpose : Purpose)
    {names : List Text} {folder : Location} (hf : ∀ x ∈ folder, q x)
    (hn : ∀ name ∈ names, q (Name.plain name)) :
    match advance t purpose folder names with
    | .reached l => ∀ x ∈ l, q x
    | .link g target left => (∀ x ∈ g, q x) ∧ (∀ name ∈ Path.steps target, q (Name.plain name)) ∧
      ∀ name ∈ left, q (Name.plain name)
    | .blocked _ => True := by
  have hsnoc : ∀ {folder : Location} {name : Text}, (∀ x ∈ folder, q x) → q (Name.plain name) →
      ∀ x ∈ folder ++ [Name.plain name], q x := by
    intro folder name hf hn x hx
    rcases List.mem_append.mp hx with hx | hx
    · exact hf x hx
    · exact List.mem_singleton.mp hx ▸ hn
  fun_induction advance t purpose folder names
  case case1 => exact hf
  case case2 ih => exact ih hf fun x hx => hn x (List.mem_cons_of_mem _ hx)
  case case3 ih =>
    exact ih (fun x hx => hf x (List.dropLast_subset _ hx)) fun x hx =>
      hn x (List.mem_cons_of_mem _ hx)
  case case6 => exact hsnoc hf (hn _ List.mem_cons_self)
  case case8 ih =>
    exact ih (hsnoc hf (hn _ List.mem_cons_self)) fun x hx => hn x (List.mem_cons_of_mem _ hx)
  case case9 => exact hsnoc hf (hn _ List.mem_cons_self)
  case case11 => exact hsnoc hf (hn _ List.mem_cons_self)
  case case12 hlink _ => exact ⟨hf, h _ _ hlink, fun x hx => hn x (List.mem_cons_of_mem _ hx)⟩
  all_goals trivial

/-- The names of its way, and of the links on it, make up what a walk reaches. -/
theorem walk_names {q : Text → Prop} (h : LinkNames t q) {purpose : Purpose} {budget : Nat}
    {names : List Text} {folder l : Location} (hf : ∀ x ∈ folder, q x)
    (hn : ∀ name ∈ names, q (Name.plain name)) (hw : walk t purpose budget folder names = .ok l) :
    ∀ x ∈ l, q x := by
  refine walk_keeps (Q := fun l => ∀ x ∈ l, q x)
    (motive := fun folder names => (∀ x ∈ folder, q x) ∧ ∀ name ∈ names, q (Name.plain name))
    (fun _ _ _ hboth ha => ?_) (fun _ _ _ _ _ hboth ha => ?_) hw ⟨hf, hn⟩
  · have hadvance := advance_names h purpose hboth.1 hboth.2
    rwa [ha] at hadvance
  · have hadvance := advance_names h purpose hboth.1 hboth.2
    rw [ha] at hadvance
    obtain ⟨hg, htarget, hrest⟩ := hadvance
    refine ⟨?_, fun name hname => (List.mem_append.mp hname).elim (htarget name) (hrest name)⟩
    split
    · exact fun x hx => absurd hx List.not_mem_nil
    · exact hg

/-- The entry of an earlier tree is of the kind that it has later. -/
theorem Grows.folder_of_folder {t' : Tree} (hg : Grows t t') {k : Location}
    (hk : t.get? k ≠ none) (hk' : t'.get? k = some .folder) : t.get? k = some .folder := by
  cases he : t.get? k with
  | none => exact absurd he hk
  | some e =>
    cases e with
    | folder => rfl
    | file bytes =>
      obtain ⟨bytes', hf⟩ := hg.file he
      rw [hf] at hk'
      cases hk'
    | link target =>
      rw [hg.link.mp he] at hk'
      cases hk'

theorem Grows.file_of_file {t' : Tree} (hg : Grows t t') {k : Location} {bytes : List UInt8}
    (hk : t.get? k ≠ none) (hk' : t'.get? k = some (.file bytes)) :
    ∃ bytes', t.get? k = some (.file bytes') := by
  cases he : t.get? k with
  | none => exact absurd he hk
  | some e =>
    cases e with
    | folder =>
      rw [hg.folder he] at hk'
      cases hk'
    | file bytes' => exact ⟨bytes', rfl⟩
    | link target =>
      rw [hg.link.mp he] at hk'
      cases hk'

theorem advance_of_grown {t' : Tree} (hs : Sound t) (h : NoLinks t') (hg : Grows t t')
    (purpose : Purpose) {names : List Text} (hn : ∀ name ∈ names, IsStep name) {folder : Location}
    (hk : t.get? (folder ++ names.map Name.plain) ≠ none) :
    match advance t' purpose folder names with
    | .reached l => advance t purpose folder names = .reached l
    | _ => True := by
  have hfirst : ∀ {folder : Location} {name : Text} {rest : List Text},
      t.get? (folder ++ (name :: rest).map Name.plain) ≠ none →
      t.get? (folder ++ [Name.plain name]) ≠ none := by
    intro folder name rest hk
    cases rest with
    | nil => simpa using hk
    | cons next rest =>
      have hf : t.get? (folder ++ [Name.plain name]) = some .folder :=
        hs.folder_of_append (by simpa using hk)
      rw [hf]
      exact nofun
  fun_induction advance t' purpose folder names
  case case1 => rfl
  case case2 name rest hdot ih =>
    obtain ⟨⟨hne, hdot', -⟩, -⟩ := hn name List.mem_cons_self
    exact (hdot.elim hne hdot').elim
  case case3 => exact absurd rfl (hn ".." List.mem_cons_self).2
  case case6 hnone _ => exact absurd (hg.none_of hnone) (hfirst hk)
  case case8 folder name rest hdot hup hdemand hsize l hfolder ih =>
    have hl : t.get? (folder ++ [Name.plain name]) = some .folder :=
      hg.folder_of_folder (hfirst hk) hfolder
    have hrest := ih (fun x hx => hn x (List.mem_cons_of_mem name hx)) (by simpa [l] using hk)
    simpa [advance, hdot, hup, hdemand, hsize, l, hl] using hrest
  case case9 folder name hdot hup hsize l bytes hfile hdemand =>
    obtain ⟨bytes', hl⟩ := hg.file_of_file (hfirst hk) hfile
    simp [advance, hdot, hup, hsize, l, hl]
  case case11 hlink _ => exact absurd hlink (h _ _)
  all_goals trivial

/-- **The way to what is there was open before the tree has grown.** -/
theorem walk_of_grown {t' : Tree} (hs : Sound t) (h : NoLinks t') (hg : Grows t t')
    {purpose : Purpose} {budget : Nat} {names : List Text} (hn : ∀ name ∈ names, IsStep name)
    {folder l : Location} (hw : walk t' purpose budget folder names = .ok l)
    (hk : t.get? l ≠ none) : walk t purpose budget folder names = .ok l := by
  have hl := (walk_straight hn (h.clearWay folder names) hw).1
  have ha := advance_of_grown hs h hg purpose hn (hl ▸ hk)
  rcases walk_eq_ok.mp hw with he | ⟨_, _, _, _, he, -⟩
  · rw [he] at ha
    exact walk_eq_ok.mpr (.inl ha)
  · have hstraight := advance_straight hn (h.clearWay folder names) purpose
    rw [he] at hstraight
    exact hstraight.elim

end

end PackageAudit.Tree
