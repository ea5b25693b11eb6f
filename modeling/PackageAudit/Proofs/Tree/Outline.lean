import PackageAudit.Proofs.Tree.Access

/-! # Trees that differ in what their files hold

Two trees with the same outline have the same files, directories and links (`Tree.SameOutline`).
Every path leads to the same location in both (`SameOutline.locate_eq`) and is resolved to the same
path (`SameOutline.resolve_eq`). Writing a file anew keeps the outline (`sameOutline_put`).
-/

namespace PackageAudit.Tree

/-- Each tree has what the other one has, apart from the bytes of files. -/
structure SameOutline (t t' : Tree) : Prop where
  grows : Grows t t'
  shrinks : Grows t' t
  names : ∀ l, t'.names l = t.names l

section
variable {t t' : Tree} {l : Location}

namespace SameOutline

theorem get?_eq_none (h : SameOutline t t') (hl : t.get? l = none) : t'.get? l = none :=
  h.shrinks.none_of hl

/-- A location holds the same thing in both trees, or a file in both. -/
theorem get?_cases (h : SameOutline t t') (l : Location) : t'.get? l = t.get? l ∨
    ∃ bytes bytes', t.get? l = some (.file bytes) ∧ t'.get? l = some (.file bytes') := by
  cases hl : t.get? l with
  | none => exact .inl (h.get?_eq_none hl)
  | some e =>
    cases e with
    | folder => exact .inl (h.grows.folder hl)
    | link target => exact .inl (h.grows.link.mp hl)
    | file bytes =>
      obtain ⟨bytes', hl'⟩ := h.grows.file hl
      exact .inr ⟨bytes, bytes', rfl, hl'⟩

/-! ## The way of the file system -/

theorem advance_eq (h : SameOutline t t') (purpose : Purpose) (folder : Location)
    (names : List Text) : t'.advance purpose folder names = t.advance purpose folder names := by
  induction names generalizing folder with
  | nil => rfl
  | cons name rest ih =>
    unfold advance
    simp only [ih]
    rcases h.get?_cases (folder ++ [Name.plain name]) with heq | ⟨bytes, bytes', hl, hl'⟩
    · rw [heq]
    · rw [hl, hl']

theorem walk_eq (h : SameOutline t t') (purpose : Purpose) (budget : Nat) (folder : Location)
    (names : List Text) :
    t'.walk purpose budget folder names = t.walk purpose budget folder names := by
  induction budget generalizing folder names with
  | zero =>
    unfold walk
    rw [h.advance_eq]
  | succ budget ih =>
    unfold walk
    simp only [h.advance_eq, ih]

/-- **Every path leads to the same location.** -/
theorem locate_eq (h : SameOutline t t') (purpose : Purpose) (p : Path) :
    t'.locate purpose p = t.locate purpose p := by
  unfold locate start
  rw [h.walk_eq, h.grows.here]

theorem status_cases (h : SameOutline t t') (p : Path) : t'.status p = t.status p ∨
    ∃ l bytes bytes', t.status p = .ok (l, .file bytes) ∧ t'.status p = .ok (l, .file bytes') := by
  unfold status
  rw [h.locate_eq]
  cases t.locate .target p with
  | error cause => exact .inl rfl
  | ok l =>
    unfold occupied
    rcases h.get?_cases l with heq | ⟨bytes, bytes', hl, hl'⟩
    · exact .inl (by simp only [heq])
    · exact .inr ⟨l, bytes, bytes', by simp only [hl], by simp only [hl']⟩

theorem status_folder_iff (h : SameOutline t t') {p : Path} :
    t'.status p = .ok (l, .folder) ↔ t.status p = .ok (l, .folder) := by
  rcases h.status_cases p with heq | ⟨k, bytes, bytes', hst, hst'⟩
  · rw [heq]
  · rw [hst, hst']
    exact ⟨nofun, nofun⟩

/-! ## Paths without links -/

theorem linkAt?_eq (h : SameOutline t t') (p : Place) : t'.linkAt? p = t.linkAt? p := by
  unfold linkAt?
  rw [h.grows.here]
  rcases h.get?_cases (p.location t.here) with heq | ⟨bytes, bytes', hl, hl'⟩
  · rw [heq]
  · rw [hl, hl']

theorem settleNames_eq (h : SameOutline t t')
    (enter : Seen → Place → Text → Except FileFault Settled) (seen : Seen) (place : Place)
    (names : List Text) :
    settleNames t' enter seen place names = settleNames t enter seen place names := by
  induction names generalizing seen place with
  | nil => rfl
  | cons name rest ih =>
    unfold settleNames
    simp only [h.linkAt?_eq, ih]

theorem settle_eq (h : SameOutline t t') (depth : Nat) : settle t' depth = settle t depth := by
  induction depth with
  | zero => rfl
  | succ depth ih =>
    funext seen place path
    unfold settle
    rw [ih, h.settleNames_eq, h.settleNames_eq]

/-- **Every path stands for the same path without links.** -/
theorem resolve_eq (h : SameOutline t t') (p : Path) : t'.resolve p = t.resolve p := by
  unfold resolve absolute
  rw [h.settle_eq, h.grows.here]
  refine bind_congr fun r => ?_
  cases r with
  | done seen place =>
    refine bind_congr fun _ => ?_
    rcases h.status_cases (Path.ofLocation (place.written t.here)) with heq | ⟨l, _, _, hst, hst'⟩
    · simp only [heq]
    · simp only [hst, hst']
  | looped path =>
    refine bind_congr fun _ => ?_
    rcases h.status_cases (t.absolute (.ofText path)) with heq | ⟨l, _, _, hst, hst'⟩
    · simp only [absolute] at heq
      simp only [heq]
    · simp only [absolute] at hst hst'
      simp only [hst, hst']

end SameOutline

/-! ## Writing a file anew -/

theorem map_fst_putIn {e : Entry} : ∀ {entries : List (Location × Entry)}, l ∈ entries.map (·.1) →
    (putIn l e entries).map (·.1) = entries.map (·.1)
  | x :: rest, h => by
    unfold putIn
    split
    · next hx => rw [List.map_cons, List.map_cons, hx]
    · next hx =>
      have hrest : l ∈ rest.map (·.1) := (List.mem_cons.mp h).resolve_left (Ne.symm hx)
      rw [List.map_cons, List.map_cons, map_fst_putIn hrest]

theorem names_put (hl : t.get? l ≠ none) (hroot : l ≠ []) (e : Entry) (folder : Location) :
    (t.put l e).names folder = t.names folder := by
  have hmem : l ∈ t.entries.map (·.1) := by
    unfold get? at hl
    rw [if_neg hroot, Ne, Option.map_eq_none_iff, List.find?_eq_none] at hl
    simpa using hl
  have hnames (entries : List (Location × Entry)) :
      entries.filterMap (fun x => nameIn? folder x.1) =
        (entries.map (·.1)).filterMap (nameIn? folder) := by
    rw [List.filterMap_map]
    rfl
  unfold names put
  rw [hnames, hnames, map_fst_putIn hmem]

theorem sameOutline_put {old : List UInt8} (hl : t.get? l = some (.file old)) (new : List UInt8) :
    SameOutline t (t.put l (.file new)) := by
  have hfolder : t.get? l ≠ some .folder := by rw [hl]; exact nofun
  have hroot : l ≠ [] := ne_nil_of_get? hfolder
  have hself : (t.put l (.file new)).get? l = some (.file new) := get?_put_self hroot t _
  refine ⟨grows_put_file new hfolder (by rw [hl]; exact fun _ => nofun), ⟨rfl, fun {k} hk => ?_,
    fun {k bytes} hk => ?_, fun {k target} => ?_⟩, names_put (by rw [hl]; exact nofun) hroot _⟩
  all_goals by_cases hkl : k = l
  · rw [hkl, hself] at hk
    cases hk
  · rwa [get?_put_of_ne hkl] at hk
  · exact ⟨old, hkl ▸ hl⟩
  · exact ⟨bytes, by rwa [get?_put_of_ne hkl] at hk⟩
  · rw [hkl, hself, hl]
    exact ⟨nofun, nofun⟩
  · rw [get?_put_of_ne hkl]

end

end PackageAudit.Tree
