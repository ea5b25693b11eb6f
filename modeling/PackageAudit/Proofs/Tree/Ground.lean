import PackageAudit.Proofs.Tree.Resolve

/-! # Directories of packages

A `Ground` is a directory by a path from the root that no link is on, which is how the root of a
package is given. It stays one when the tree grows (`Ground.grows`), and what is below it is resolved
to itself (`Ground.resolve_append`).
-/

namespace PackageAudit.Tree

/-- A directory by a path from the root without links on its way. -/
structure Ground (t : Tree) (root : Path) (base : Location) : Prop where
  anchor : root.anchor = .root
  steps : ∀ name ∈ root.parts, IsStep name
  clear : ClearWay t [] root.parts
  vetted : vet root.toText = .ok ()
  folder : t.status root = .ok (base, .folder)

section
variable {t : Tree} {root : Path} {base : Location}

theorem Ground.isAbsolute (h : Ground t root base) : root.isAbsolute = true := by
  simp [Path.isAbsolute, h.anchor]

theorem Ground.base_eq (h : Ground t root base) : base = root.parts.map Name.plain := by
  obtain ⟨hl, -⟩ := status_eq_ok.mp h.folder
  obtain ⟨-, hw⟩ := locate_eq_ok.mp hl
  rw [start, if_pos h.isAbsolute] at hw
  simpa using (walk_straight h.steps h.clear hw).1

theorem Ground.grows {t' : Tree} (h : Ground t root base) (hg : Grows t t') :
    t'.Ground root base where
  anchor := h.anchor
  steps := h.steps
  clear way hw hne target hk := h.clear way hw hne target (hg.link.mpr hk)
  vetted := h.vetted
  folder := status_folder_grows hg h.folder

/-- Without links the directory that a path is resolved to is one. -/
theorem ground_of_resolve (hs : Sound t) (hl : NoLinks t) {p : Path}
    (h : t.resolve p = .ok root) (hf : t.status root = .ok (base, .folder)) : t.Ground root base where
  anchor := resolve_anchor hl h
  steps := (resolve_steps hs h).2
  clear := hl.clearWay [] root.parts
  vetted := (resolve_eq_ok h).1
  folder := hf

/-- A path is no longer than one that goes on from it. -/
theorem size_toText_append : ∀ (root : Path) (names : List Text), root.isAbsolute = true →
    Name.size root.toText ≤ Name.size (root.append names).toText
  | root, [], _ => by simp
  | root, name :: names, ha => by
    have hprefix : root.toText <+: (root.append [name]).toText := by
      rw [Path.toText_of_absolute ha, Path.toText_of_absolute (by simpa using ha)]
      refine (List.prefix_append_right_inj _).mpr ?_
      cases hparts : root.parts with
      | nil => exact List.nil_prefix
      | cons first rest =>
        rw [Path.append, hparts, Text.join_concat _ _ (List.cons_ne_nil first rest)]
        exact List.prefix_append _ _
    obtain ⟨more, hmore⟩ := hprefix
    have hstep : Name.size root.toText ≤ Name.size (root.append [name]).toText := by
      rw [← hmore, Name.size, Name.size, Name.bytes_append, List.length_append]
      exact Nat.le_add_right _ _
    have hrest := size_toText_append (root.append [name]) names ha
    rw [Path.append_append] at hrest
    exact Nat.le_trans hstep hrest

theorem status_parent (hs : Sound t) (hl : NoLinks t) (ha : root.isAbsolute = true)
    (hn : ∀ name ∈ root.parts, IsStep name) {name : Text} (hname : IsStep name) {l : Location}
    {e : Entry} (h : t.status (root.append [name]) = .ok (l, e)) :
    ∃ base, t.status root = .ok (base, .folder) := by
  obtain ⟨hloc, hk⟩ := status_eq_ok.mp h
  obtain ⟨hsize, hw⟩ := locate_eq_ok.mp hloc
  have hstart : t.start (root.append [name]) = [] := if_pos ha
  have hsteps : ∀ x ∈ (root.append [name]).parts, IsStep x := by
    intro x hx
    rcases List.mem_append.mp hx with hx | hx
    · exact hn x hx
    · exact List.mem_singleton.mp hx ▸ hname
  rw [hstart] at hw
  obtain ⟨rfl, hsizes⟩ := walk_straight hsteps (hl.clearWay [] _) hw
  rw [Path.append, List.map_append, List.map_cons, List.map_nil, List.nil_append] at hk
  have hfolder : t.get? (root.parts.map Name.plain) = some .folder :=
    hs.parent (by rw [hk]; exact Option.some_ne_none e)
  have hadvance := @advance_folder t hs root.parts [] hn
    (fun x hx => hsizes x (List.mem_append_left _ hx)) hfolder
  refine ⟨root.parts.map Name.plain, status_eq_ok.mpr ⟨locate_eq_ok.mpr ⟨?_, ?_⟩, hfolder⟩⟩
  · exact Nat.le_trans (size_toText_append root [name] ha) hsize
  · rw [start, if_pos ha]
    exact walk_eq_ok.mpr (.inl hadvance)

theorem Ground.proper (h : t.Ground root base) : root.Proper := fun name hn => (h.steps name hn).1

/-- The root is what its text is read as. -/
theorem Ground.ofText_toText (h : t.Ground root base) : Path.ofText root.toText = root :=
  Path.ofText_toText h.proper h.isAbsolute

theorem Named.of_get? (h : Named t) {l : Location} (hl : t.get? l ≠ none) :
    ∀ name ∈ l, IsEntryName name := by
  intro name hn
  obtain ⟨e, he⟩ := Option.ne_none_iff_exists'.mp hl
  have hm := mem_entries_of_get? (List.ne_nil_of_mem hn) he
  exact ⟨h.step _ hm name hn, h.plain _ hm name hn, h.vetted _ hm name hn⟩

/-- No link is on the way to a directory by its own names. -/
theorem Sound.clearWay (hs : Sound t) {names : List Text}
    (h : t.get? (names.map Name.plain) = some .folder) : ClearWay t [] names := by
  rintro way ⟨rest, rfl⟩ - target hl
  rw [List.nil_append] at hl
  rw [List.map_append] at h
  cases rest with
  | nil => simp [hl] at h
  | cons next rest =>
    have hfolder : t.get? (way.map Name.plain) = some .folder :=
      hs.folder_of_append (by rw [List.map_cons] at h; rw [h]; exact nofun)
    rw [hl] at hfolder
    cases hfolder

/-- Every directory is one by its own path, unless that is too long. -/
theorem ground_ofLocation (hs : Sound t) (hn : Named t)
    (h : t.status (.ofLocation base) = .ok (base, .folder)) : t.Ground (.ofLocation base) base := by
  have hk : t.get? base = some .folder := (status_eq_ok.mp h).2
  have hnames := hn.of_get? (by rw [hk]; exact nofun)
  have hplain : base.map Name.plain = base := map_plain hnames
  exact ⟨rfl, fun name hm => (hnames name hm).1, hs.clearWay (by rw [Path.ofLocation, hplain, hk]),
    (vet_toText (p := .ofLocation base) rfl).mpr fun name hm => (hnames name hm).2.2, h⟩

/-- A path below a directory can be asked for if its names can. -/
theorem Ground.vet_append (h : t.Ground root base) {names : List Text}
    (hn : ∀ name ∈ names, vet name = .ok ()) : vet (root.append names).toText = .ok () := by
  refine (vet_toText (p := root.append names) h.isAbsolute).mpr fun name hm => ?_
  rcases List.mem_append.mp hm with hm | hm
  · exact (vet_toText h.isAbsolute).mp h.vetted name hm
  · exact hn name hm

/-- What the file system says of a name in a directory. -/
theorem Ground.status_append (h : t.Ground root base) (hl : NoLinks t) {name : Text}
    (hn : IsEntryName name) : t.status (root.append [name]) =
      if maxPathBytes < Name.size (root.append [name]).toText ∨ maxNameBytes < Name.size name then
        .error .nameTooLong
      else t.occupied (base ++ [name]) := by
  obtain ⟨hstep, hplain, -⟩ := hn
  have hst := status_child h.folder hstep (hl _)
  rwa [hplain] at hst

/-- A directory in a directory is one, unless its path or its name is too long. -/
theorem Ground.append (h : t.Ground root base) (hl : NoLinks t) {name : Text}
    (hn : IsEntryName name) (hk : t.get? (base ++ [name]) = some .folder)
    (hpath : Name.size (root.append [name]).toText ≤ maxPathBytes)
    (hname : Name.size name ≤ maxNameBytes) : t.Ground (root.append [name]) (base ++ [name]) where
  anchor := h.anchor
  steps x hx := by
    rcases List.mem_append.mp hx with hx | hx
    · exact h.steps x hx
    · exact List.mem_singleton.mp hx ▸ hn.1
  clear := hl.clearWay [] _
  vetted := h.vet_append (List.forall_mem_singleton.mpr hn.2.2)
  folder := by
    rw [h.status_append hl hn, if_neg (not_or.mpr ⟨Nat.not_lt.mpr hpath, Nat.not_lt.mpr hname⟩),
      occupied, hk]

/-- What is reached below the root without links has the names of the way, and neither the path nor
a name of it is too long. -/
theorem Ground.of_locate (h : Ground t root base) (hl : NoLinks t) {names way : List Text}
    {l : Location} (hn : ∀ name ∈ names, IsStep name) (hw : way <+: (root.append names).parts)
    {purpose : Purpose} (hloc : t.locate purpose ⟨root.anchor, way⟩ = .ok (base ++ l)) :
    ∃ rest, rest <+: names ∧ l = rest.map Name.plain ∧
      Name.size (root.append rest).toText ≤ maxPathBytes ∧
      ∀ name ∈ rest, Name.size name ≤ maxNameBytes := by
  obtain ⟨hsize, hwalk⟩ := locate_eq_ok.mp hloc
  have hsteps : ∀ name ∈ way, IsStep name := by
    intro name hm
    rcases List.mem_append.mp (hw.subset hm) with hm | hm
    · exact h.steps name hm
    · exact hn name hm
  have hstart : t.start ⟨root.anchor, way⟩ = [] := if_pos h.isAbsolute
  rw [hstart] at hwalk
  obtain ⟨heq, hnames⟩ := walk_straight hsteps (hl.clearWay [] way) hwalk
  rw [h.base_eq, List.nil_append] at heq
  have hroot : root.parts <+: way := by
    refine List.prefix_of_prefix_length_le (List.prefix_append root.parts names) hw ?_
    have hlen := congrArg List.length heq
    simp only [List.length_append, List.length_map] at hlen
    omega
  obtain ⟨rest, rfl⟩ := hroot
  rw [List.map_append] at heq
  exact ⟨rest, (List.prefix_append_right_inj root.parts).mp hw, List.append_cancel_left heq,
    hsize, fun name hm => hnames name (List.mem_append_right _ hm)⟩

theorem Ground.resolve_append (h : Ground t root base) (hs : Sound t) (hn : Named t)
    {way : Location} (hw : t.get? (base ++ way) = some .folder) :
    t.resolve (root.append way) = .ok (root.append way) := by
  have hnames := hn.of_get? (by rw [hw]; exact nofun)
  have hway : ∀ name ∈ way, IsEntryName name := fun name hm => hnames name (List.mem_append_right base hm)
  have hplain : way.map Name.plain = way := map_plain hway
  have hclear : ClearWay t [] (root.parts ++ way) :=
    hs.clearWay (by rw [List.map_append, ← h.base_eq, hplain, hw])
  refine resolve_clear h.anchor ?_ hclear ?_
  · intro name hm
    rcases List.mem_append.mp hm with hm | hm
    · exact h.steps name hm
    · exact (hway name hm).1
  · exact h.vet_append fun name hm => (hway name hm).2.2

theorem Ground.resolve_toText (h : Ground t root base) (hs : Sound t) (hn : Named t) :
    t.resolve (.ofText root.toText) = .ok root := by
  have hk : t.get? (base ++ []) = some .folder := by
    rw [List.append_nil]
    exact (status_eq_ok.mp h.folder).2
  have hself := h.resolve_append hs hn hk
  rw [Path.append_nil] at hself
  rw [h.ofText_toText, hself]

end

end PackageAudit.Tree
