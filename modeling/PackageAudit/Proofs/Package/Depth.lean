import PackageAudit.Proofs.Package.Walk

/-! # How deep a walk goes

A walk goes no deeper than what was entered allows: once the levels that are left are as many as its
bound (`Bounds`), more of them make no difference (`visit_eq_of_bounds`). One bound holds on every tree,
because no path is longer than the file system takes: `listing_eq_of_long`.
-/

namespace PackageAudit

namespace Listing

section
variable {t : Tree} {s : Settings} {o : SearchOptions} {root : Path} {way folder place : Location}
  {name : Text} {w w' : Walk} {descend descend' : Descent}

/-! ## Levels -/

/-- What is done below a directory that is so many levels above the last one. -/
def deeper (t : Tree) (s : Settings) (o : SearchOptions) (root : Path) : Nat → Descent
  | 0 => none
  | levels + 1 => some (visit t s o root levels)

theorem visit_eq (levels : Nat) :
    visit t s o root levels = visitFolder t s o root (deeper t s o root levels) := by
  cases levels <;> rfl

theorem visit_maxDepth (depth : Int) (levels : Nat) :
    visit t s { o with maxDepth := depth } root levels = visit t s o root levels := by
  induction levels with
  | zero => rfl
  | succ levels ih =>
    show visitFolder t s o root (some (visit t s { o with maxDepth := depth } root levels)) = _
    rw [ih]
    rfl

theorem listing_maxDepth (depth : Int) : listing t s { o with maxDepth := depth } root =
    (visit t s o root depth.toNat [] ⟨[], [root]⟩).map (·.listed.reverse) := by
  unfold listing
  rw [visit_maxDepth]

/-! ## What was entered stays entered -/

/-- What is done below a directory forgets nothing that was entered. -/
def Keeps (descend : Descent) : Prop :=
  ∀ below, descend = some below → ∀ way w w', below way w = .ok w' → w.entered ⊆ w'.entered

theorem entered_visitEntry (hd : Keeps descend)
    (hst : t.status (root.append folder) = .ok (place, .folder)) (hname : name ∈ t.names place)
    (h : visitEntry t s o root descend folder place w name = .ok w') : w.entered ⊆ w'.entered := by
  rcases visitEntry_cases hst hname h with ⟨rfl, -⟩ | ⟨f, -, ⟨-, rfl⟩ | ⟨-, henter⟩⟩
  · exact fun _ => id
  · exact fun _ => id
  · rcases enter_cases henter with ⟨rfl, -⟩ | ⟨below, x, rfl, -, -, hbelow⟩
    · exact fun _ => id
    · exact fun y hy => hd below rfl _ _ _ hbelow (List.mem_cons_of_mem x hy)

theorem entered_visitEntries (hd : Keeps descend)
    (hst : t.status (root.append folder) = .ok (place, .folder)) {names : List Text}
    (hnames : ∀ name ∈ names, name ∈ t.names place)
    (h : names.foldlM (visitEntry t s o root descend folder place) w = .ok w') :
    w.entered ⊆ w'.entered := by
  induction names generalizing w with
  | nil =>
    cases h
    exact fun _ => id
  | cons name rest ih =>
    obtain ⟨v, hv, h⟩ := foldlM_cons_eq_ok.mp h
    have hfirst := entered_visitEntry hd hst (hnames name List.mem_cons_self) hv
    exact List.Subset.trans hfirst (ih (fun x hx => hnames x (List.mem_cons_of_mem name hx)) h)

theorem keeps_deeper (levels : Nat) : Keeps (deeper t s o root levels) := by
  induction levels with
  | zero => exact nofun
  | succ levels ih =>
    rintro _ ⟨⟩ way w w' h
    rw [visit_eq] at h
    unfold visitFolder at h
    split at h
    · next hst => exact entered_visitEntries ih hst (fun _ => id) h
    · cases h
      exact fun _ => id

/-! ## How deep a walk goes -/

/-- A bound on how deep a walk goes below the directories of some ways, from what was entered: it does
not grow with that, and a directory that is entered anew has a smaller one. -/
structure Bounds (t : Tree) (root : Path) (on : Location → Prop)
    (bound : Location → List Path → Nat) : Prop where
  anti : ∀ way entered entered', entered ⊆ entered' → bound way entered' ≤ bound way entered
  step : ∀ way place name l entered, on way → t.status (root.append way) = .ok (place, .folder) →
    name ∈ t.names place →
    Name.size (root.append (way ++ [name])).toText ≤ Tree.maxPathBytes →
    t.status (root.append (way ++ [name])) = .ok (l, .folder) →
    (∃ x ∈ entered, t.resolve (root.append (way ++ [name])) = .ok x) ∨
      0 < bound way entered ∧ ∀ x, t.resolve (root.append (way ++ [name])) = .ok x → x ∉ entered →
        on (way ++ [name]) ∧ bound (way ++ [name]) (x :: entered) < bound way entered

/-- Entries are visited in the same way if the directories among them are entered in the same way. -/
theorem visitEntry_congr (hst : t.status (root.append folder) = .ok (place, .folder))
    (hname : name ∈ t.names place)
    (h : ∀ l w', w'.entered = w.entered →
      Name.size (root.append (folder ++ [name])).toText ≤ Tree.maxPathBytes →
      t.status (root.append (folder ++ [name])) = .ok (l, .folder) →
      enter t descend (folder ++ [name]) (root.append (folder ++ [name])) w' =
        enter t descend' (folder ++ [name]) (root.append (folder ++ [name])) w') :
    visitEntry t s o root descend folder place w name =
      visitEntry t s o root descend' folder place w name := by
  by_cases hlook : LooksAt t s o root folder name
  · rw [visitEntry_of_looked hlook hst, visitEntry_of_looked hlook hst]
    split
    · rfl
    · next hsize =>
      split
      · rfl
      · rfl
      · rfl
      · rfl
      · next hfolder =>
        split
        · rfl
        · exact h _ _ rfl (Nat.le_of_not_lt hsize) hfolder
  · rw [visitEntry_of_skipped hst hname hlook, visitEntry_of_skipped hst hname hlook]

theorem visitEntries_congr (hd : Keeps descend)
    (hst : t.status (root.append folder) = .ok (place, .folder)) {names : List Text}
    (hnames : ∀ name ∈ names, name ∈ t.names place)
    (h : ∀ name ∈ names, ∀ w', w.entered ⊆ w'.entered →
      visitEntry t s o root descend folder place w' name =
        visitEntry t s o root descend' folder place w' name) :
    names.foldlM (visitEntry t s o root descend folder place) w =
      names.foldlM (visitEntry t s o root descend' folder place) w := by
  induction names generalizing w with
  | nil => rfl
  | cons name rest ih =>
    rw [List.foldlM_cons, List.foldlM_cons, ← h name List.mem_cons_self w fun _ => id]
    cases hv : visitEntry t s o root descend folder place w name with
    | error f => rfl
    | ok v =>
      have hkept := entered_visitEntry hd hst (hnames name List.mem_cons_self) hv
      exact ih (fun x hx => hnames x (List.mem_cons_of_mem name hx)) fun x hx w' hw' =>
        h x (List.mem_cons_of_mem name hx) w' (List.Subset.trans hkept hw')

theorem enter_of_entered {p x : Path} (hres : t.resolve p = .ok x) (hx : x ∈ w.entered) :
    enter t descend way p w = .ok w := by
  unfold enter
  cases descend with
  | none => rfl
  | some below => simp [hres, hx]

theorem enter_congr {p : Path} {below below' : Location → Walk → Except FileFault Walk}
    (h : ∀ x, t.resolve p = .ok x → x ∉ w.entered →
      below way { w with entered := x :: w.entered } =
        below' way { w with entered := x :: w.entered }) :
    enter t (some below) way p w = enter t (some below') way p w := by
  unfold enter
  cases hres : t.resolve p with
  | error f => rfl
  | ok x =>
    by_cases hx : x ∈ w.entered
    · simp [hx]
    · simp [hx, h x hres hx]

/-- **Beyond its bound a walk does not depend on the number of levels.** -/
theorem visit_eq_of_bounds {on : Location → Prop} {bound : Location → List Path → Nat}
    (hb : Bounds t root on bound) {n m : Nat} (hway : on way) (hn : bound way w.entered ≤ n)
    (hm : bound way w.entered ≤ m) : visit t s o root n way w = visit t s o root m way w := by
  induction n using Nat.strongRecOn generalizing m way w with
  | _ n ih =>
    rw [visit_eq, visit_eq]
    unfold visitFolder
    split
    · next place hst =>
      refine visitEntries_congr (keeps_deeper n) hst (fun _ => id) fun name hname w₁ hw₁ => ?_
      refine visitEntry_congr hst hname fun l w₂ hw₂ hsize hfolder => ?_
      have hle : bound way w₂.entered ≤ bound way w.entered := hb.anti _ _ _ (hw₂ ▸ hw₁)
      rcases hb.step way place name l w₂.entered hway hst hname hsize hfolder with
        ⟨x, hx, hres⟩ | ⟨hpos, hnew⟩
      · rw [enter_of_entered hres hx, enter_of_entered hres hx]
      -- both walks have a level left, and go on alike if the directory is new
      · obtain ⟨n, rfl⟩ : ∃ k, n = k + 1 := ⟨n - 1, by omega⟩
        obtain ⟨m, rfl⟩ : ∃ k, m = k + 1 := ⟨m - 1, by omega⟩
        refine enter_congr fun x hres hx => ?_
        obtain ⟨hon, hlt⟩ := hnew x hres hx
        exact ih n (Nat.lt_succ_self n) hon (by simp only; omega) (by simp only; omega)
    · rfl

/-! ## Paths that are too long -/

theorem length_le_size_join : ∀ parts : List Text,
    parts.length ≤ Name.size (Text.join [Path.slash] parts) + 1
  | [] => Nat.zero_le _
  | [_] => Nat.le_add_left 1 _
  | name :: next :: rest => by
    have ih := length_le_size_join (next :: rest)
    have hslash : (Name.bytes [Path.slash]).length = 1 := by decide
    rw [Text.join_cons_cons, Name.size, Name.bytes_append, Name.bytes_append, List.length_append,
      List.length_append, hslash]
    simp only [List.length_cons, Name.size] at ih ⊢
    omega

theorem length_le_size (p : Path) : p.parts.length ≤ Name.size p.toText + 1 := by
  have hjoin := length_le_size_join p.parts
  unfold Path.toText
  split
  · next h => simp [h.2]
  · rw [Name.size, Name.bytes_append, List.length_append]
    exact Nat.le_trans hjoin (Nat.succ_le_succ (Nat.le_add_left _ _))

/-- Whatever the links, a walk goes no deeper than a path can be long. -/
theorem bounds_size (t : Tree) (root : Path) :
    Bounds t root (fun _ => True) fun way _ => Tree.maxPathBytes + 1 - way.length where
  anti _ _ _ _ := Nat.le_refl _
  step way place name l entered _ _ _ hsize _ := by
    have hlength := length_le_size (root.append (way ++ [name]))
    have hparts : (root.append (way ++ [name])).parts.length =
        root.parts.length + (way.length + 1) := by simp [Path.append]
    have hway : (way ++ [name]).length = way.length + 1 := by simp
    exact .inr ⟨by omega, fun _ _ _ => ⟨trivial, by omega⟩⟩

/-- A walk to any depth beyond the length of paths lists the same. -/
theorem listing_eq_of_long {depth : Int} (h : (Tree.maxPathBytes : Int) < depth) :
    listing t s { o with maxDepth := depth } root =
      listing t s { o with maxDepth := (Tree.maxPathBytes + 1 : Nat) } root := by
  rw [listing_maxDepth, listing_maxDepth]
  rw [visit_eq_of_bounds (bounds_size t root) (n := depth.toNat)
    (m := ((Tree.maxPathBytes + 1 : Nat) : Int).toNat) trivial] <;>
  simp only [List.length_nil, Int.toNat_natCast] <;> omega

end

end Listing

end PackageAudit
