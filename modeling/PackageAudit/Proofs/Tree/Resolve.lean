import PackageAudit.Proofs.Tree.Change

/-! # Resolved paths

What `Tree.resolve` answers is a path from the root through names that lead down (`resolve_steps`),
whatever links it went through. A path from the root that leads down past no link is answered as it
is (`resolve_clear`), if its names are such that a file system call takes them (`vet_toText`).
-/

namespace PackageAudit.Tree

section
variable {t : Tree}

/-! ## The names of what is resolved -/

/-- The names of a place lead down. -/
def Place.Down (p : Place) : Prop := ∀ name ∈ p.names, IsStep name

/-- The places that links were resolved to lead down. -/
def Seen.Down (seen : Seen) : Prop := ∀ x ∈ seen, ∀ p ∈ x.2, Place.Down p

theorem Place.Down.above {p : Place} (h : p.Down) : p.above.Down := by
  unfold Place.above
  split
  · exact h
  · exact fun name hn => h name (List.dropLast_subset p.names hn)

theorem Place.Down.below {p : Place} (h : p.Down) {name : Text} (hn : IsStep name) :
    (p.below name).Down := by
  intro x hx
  rcases List.mem_append.mp hx with hx | hx
  · exact h x hx
  · obtain rfl := List.mem_singleton.mp hx
    exact hn

theorem Seen.Down.cons {seen : Seen} (h : Seen.Down seen) {spot : Place} {found : Option Place}
    (hf : ∀ p ∈ found, p.Down) : Seen.Down ((spot, found) :: seen) := by
  intro x hx
  rcases List.mem_cons.mp hx with rfl | hx
  · exact hf
  · exact h x hx

/-- An answer whose place leads down. -/
def Settled.Down : Settled → Prop
  | .done seen place => Seen.Down seen ∧ place.Down
  | .looped _ => True

theorem settleNames_down {enter : Seen → Place → Text → Except FileFault Settled}
    (henter : ∀ {seen place target r}, Seen.Down seen → place.Down →
      enter seen place target = .ok r → r.Down) {names : List Text}
    (hnames : ∀ name ∈ names, Path.slash ∉ name) {seen : Seen} {place : Place} {r : Settled}
    (hseen : Seen.Down seen) (hplace : place.Down)
    (h : settleNames t enter seen place names = .ok r) : r.Down := by
  induction names generalizing seen place with
  | nil =>
    cases h
    exact ⟨hseen, hplace⟩
  | cons name rest ih =>
    have hrest : ∀ x ∈ rest, Path.slash ∉ x := fun x hx => hnames x (List.mem_cons_of_mem name hx)
    unfold settleNames at h
    split at h
    · exact ih hrest hseen hplace h
    · next hdot =>
      rw [not_or] at hdot
      split at h
      · exact ih hrest hseen hplace.above h
      · next hup =>
        have hspot : (place.below name).Down :=
          hplace.below ⟨⟨hdot.1, hdot.2, hnames name List.mem_cons_self⟩, hup⟩
        simp only at h
        split at h
        · cases h
        · split at h
          · exact ih hrest hseen hspot h
          · split at h
            · next found hl =>
              obtain ⟨front, back, hsplit, -⟩ := List.lookup_eq_some_iff.mp hl
              have hm : (place.below name, some found) ∈ seen := by simp [hsplit]
              exact ih hrest hseen (hseen _ hm found rfl) h
            · cases h
              trivial
            · split at h
              · next he =>
                have hd := henter (hseen.cons fun _ hp => by cases hp) hplace he
                exact ih hrest (hd.1.cons fun p hp => Option.mem_some_iff.mp hp ▸ hd.2) hd.2 h
              · cases h
                trivial
              · cases h

theorem settle_down :
    ∀ {depth : Nat} {seen : Seen} {place : Place} {path : Text} {r : Settled}, Seen.Down seen →
      place.Down → settle t depth seen place path = .ok r → r.Down
  | 0, _, _, _, _, _, _, h => by cases h
  | depth + 1, seen, place, path, r, hseen, hplace, h => by
    unfold settle at h
    split at h
    · exact settleNames_down settle_down (fun _ => Text.notMem_of_mem_split) hseen
        (fun _ hn => by cases hn) h
    · exact settleNames_down settle_down (fun _ => Text.notMem_of_mem_split) hseen hplace h

theorem collapse_steps {names : List Text} (h : ∀ name ∈ names, Path.IsPart name) :
    ∀ name ∈ collapse names, IsStep name := by
  have hfold : ∀ (names : List Text) (l : Location), (∀ name ∈ names, Path.IsPart name) →
      (∀ name ∈ l, IsStep name) →
      ∀ name ∈ names.foldl (fun (l : Location) (name : Text) => if name = ".." then l.dropLast else l ++ [name]) l,
        IsStep name := by
    intro names
    induction names with
    | nil => exact fun l _ hl => hl
    | cons x rest ih =>
      intro l hx hl
      refine ih _ (fun y hy => hx y (List.mem_cons_of_mem x hy)) ?_
      show ∀ name ∈ (if x = ".." then l.dropLast else l ++ [x]), IsStep name
      split
      · exact fun y hy => hl y (List.dropLast_subset l hy)
      · next hup =>
        intro y hy
        rcases List.mem_append.mp hy with hy | hy
        · exact hl y hy
        · obtain rfl := List.mem_singleton.mp hy
          exact ⟨hx y List.mem_cons_self, hup⟩
  exact hfold names [] h nofun

theorem resolve_eq_ok {p root : Path} (h : t.resolve p = .ok root) :
    vet root.toText = .ok () ∧ ∃ r, settle t maxNesting [] .here p.toText = .ok r ∧
      root = match r with
        | .done _ place => Path.ofLocation (place.written t.here)
        | .looped path => t.absolute (.ofText path) := by
  unfold resolve at h
  cases hr : settle t maxNesting [] .here p.toText with
  | error f => simp [hr, bind, Except.bind] at h
  | ok r =>
    simp only [hr, bind, Except.bind] at h
    split at h
    · cases h
    · next hv =>
      split at h
      · cases h
      · cases h
        exact ⟨hv, r, rfl, rfl⟩

/-- **What is resolved goes down from the root.** -/
theorem resolve_steps (hs : Sound t) {p root : Path} (h : t.resolve p = .ok root) :
    root.isAbsolute = true ∧ ∀ name ∈ root.parts, IsStep name := by
  obtain ⟨-, r, hr, hroot⟩ := resolve_eq_ok h
  have hdown : r.Down := settle_down (fun _ hx => by cases hx) (fun _ hn => by cases hn) hr
  cases r with
  | done seen place =>
    refine ⟨hroot ▸ rfl, fun name hn => ?_⟩
    have hw : name ∈ place.written t.here := by rwa [hroot] at hn
    unfold Place.written at hw
    split at hw
    · exact hdown.2 name hw
    · rcases List.mem_append.mp hw with hw | hw
      · exact hs.hereSteps name (List.take_subset _ _ hw)
      · exact hdown.2 name hw
  | looped path =>
    have habs : root = t.absolute (.ofText path) := hroot
    have hjoin : ∀ name ∈ ((Path.ofLocation t.here).join (.ofText path)).parts,
        Path.IsPart name :=
      Path.Proper.join (fun name hn => (hs.hereSteps name hn).1) (Path.proper_ofText path)
    refine ⟨?_, habs ▸ collapse_steps hjoin⟩
    rw [habs]
    exact Path.isAbsolute_join (p := Path.ofLocation t.here) (.ofText path) rfl

/-! ## Texts that file system calls take -/

theorem vet_eq_ok {path : Text} :
    vet path = .ok () ↔ (∀ c ∈ path, (c.isSurrogate && !Name.standsForByte c) = false) ∧
      CodePoint.ofNat 0 ∉ path := by
  unfold vet
  cases hi : path.findIdx? fun c => c.isSurrogate && !Name.standsForByte c with
  | some i =>
    simp only [reduceCtorEq, false_iff, not_and]
    intro hall
    rw [List.findIdx?_eq_none_iff.mpr hall] at hi
    cases hi
  | none =>
    have hall := List.findIdx?_eq_none_iff.mp hi
    by_cases hz : CodePoint.ofNat 0 ∈ path
    · simp [hz]
    · simp only [List.contains_eq_mem, hz, decide_false, Bool.false_eq_true, if_false, true_iff]
      exact ⟨hall, not_false⟩

theorem vet_append {a b : Text} : vet (a ++ b) = .ok () ↔ vet a = .ok () ∧ vet b = .ok () := by
  simp only [vet_eq_ok, List.mem_append, not_or]
  constructor
  · rintro ⟨h, ha, hb⟩
    exact ⟨⟨fun c hc => h c (.inl hc), ha⟩, fun c hc => h c (.inr hc), hb⟩
  · rintro ⟨⟨h, ha⟩, h', hb⟩
    exact ⟨fun c hc => hc.elim (h c) (h' c), ha, hb⟩

theorem vet_join : ∀ (parts : List Text),
    vet (Text.join [Path.slash] parts) = .ok () ↔ ∀ name ∈ parts, vet name = .ok ()
  | [] => ⟨fun _ _ h => (List.not_mem_nil h).elim, fun _ => rfl⟩
  | [name] => by simp
  | name :: next :: parts => by
    have hslash : vet [Path.slash] = .ok () := by rfl
    rw [Text.join_cons_cons, vet_append, vet_append, vet_join (next :: parts)]
    simp [hslash]

/-- A path from the root can be asked for if all its names can. -/
theorem vet_toText {p : Path} (ha : p.isAbsolute = true) :
    vet p.toText = .ok () ↔ ∀ name ∈ p.parts, vet name = .ok () := by
  have hanchor : vet (Path.anchorText p.anchor) = .ok () := by
    cases p.anchor <;> rfl
  rw [Path.toText_of_absolute ha, vet_append]
  exact (and_iff_right hanchor).trans (vet_join p.parts)

/-! ## Paths without links -/

/-- Names that lead down past no link are settled as they are. -/
theorem settleNames_clear (enter : Seen → Place → Text → Except FileFault Settled) (seen : Seen) :
    ∀ (names done : List Text), (∀ name ∈ names, IsStep name) →
      ClearWay t (done.map Name.plain) names →
      (∀ name ∈ done ++ names, vet name = .ok ()) →
      settleNames t enter seen ⟨none, done⟩ names = .ok (.done seen ⟨none, done ++ names⟩)
  | [], done, _, _, _ => by simp [settleNames]
  | name :: rest, done, hn, hc, hv => by
    obtain ⟨⟨hne, hdot, -⟩, hup⟩ := hn name List.mem_cons_self
    have hvet : vet (Place.toText ⟨none, done ++ [name]⟩) = .ok () :=
      (vet_toText (p := ⟨.root, done ++ [name]⟩) rfl).mpr fun x hx => hv x (by
        rcases List.mem_append.mp hx with hx | hx
        · exact List.mem_append_left _ hx
        · exact List.mem_append_right _ (List.mem_singleton.mp hx ▸ List.mem_cons_self))
    have hlink : t.linkAt? ⟨none, done ++ [name]⟩ = none := by
      have hget := hc [name] (by simp) (List.cons_ne_nil name [])
      unfold linkAt? Place.location Place.written
      simp only [List.map_append, List.map_cons, List.map_nil] at hget ⊢
      split
      · next target he => exact absurd he (hget target)
      · rfl
    have ih := settleNames_clear enter seen rest (done ++ [name])
      (fun x hx => hn x (List.mem_cons_of_mem name hx)) (by simpa using hc.tail)
      (by simpa using hv)
    unfold settleNames
    simp only [hne, hdot, or_self, if_false, hup, Place.below, hvet, hlink]
    rw [ih, List.append_assoc, List.singleton_append]

theorem advance_ne_tooManyLinks (purpose : Purpose) (names : List Text) (folder : Location) :
    advance t purpose folder names ≠ .blocked .tooManyLinks := by
  fun_induction advance t purpose folder names <;> simp_all

/-- On the way down past no link the file system does not get lost in links. -/
theorem status_clear_ne {p : Path} (ha : p.isAbsolute = true) (hn : ∀ name ∈ p.parts, IsStep name)
    (hc : ClearWay t [] p.parts) : t.status p ≠ .error .tooManyLinks := by
  have hs := advance_straight hn hc .target
  have hb := advance_ne_tooManyLinks (t := t) .target p.parts []
  unfold status locate start
  rw [if_pos ha]
  split
  · next cause hl =>
    split at hl
    · cases hl
      simp
    · unfold walk at hl
      split at hl
      · cases hl
      · next he =>
        cases hl
        rw [he] at hb
        simpa using hb
      · next he => rw [he] at hs; exact hs.elim
  · unfold occupied
    split
    · simp
    · simp

/-- **A path from the root that leads down past no link is answered as it is.** -/
theorem resolve_clear {p : Path} (ha : p.anchor = .root) (hn : ∀ name ∈ p.parts, IsStep name)
    (hc : ClearWay t [] p.parts) (hv : vet p.toText = .ok ()) : t.resolve p = .ok p := by
  have habs : p.isAbsolute = true := by simp [Path.isAbsolute, ha]
  have hnames := (vet_toText habs).mp hv
  have htext : p.toText = Path.slash :: Text.join [Path.slash] p.parts := by
    rw [Path.toText_of_absolute habs, ha]
    rfl
  have hsettle : settle t maxNesting [] .here p.toText = .ok (.done [] ⟨none, p.parts⟩) := by
    rw [htext]
    unfold maxNesting settle
    rw [if_pos (by rfl), List.drop_one, List.tail_cons]
    cases hp : p.parts with
    | nil => rfl
    | cons name rest =>
      rw [← hp, Text.split_join (by simp [hp]) fun x hx => (hn x hx).1.2.2]
      exact settleNames_clear _ _ _ [] hn hc hnames
  have hfound : Path.ofLocation (Place.written ⟨none, p.parts⟩ t.here) = p := by
    obtain ⟨anchor, parts⟩ := p
    simp only at ha
    subst ha
    rfl
  unfold resolve
  rw [hsettle]
  simp only [bind, Except.bind, hfound, hv]
  split
  · next hst => exact absurd hst (status_clear_ne habs hn hc)
  · rfl

theorem NoLinks.linkAt? (hl : NoLinks t) (p : Place) : t.linkAt? p = none := by
  unfold Tree.linkAt?
  split
  · next target he => exact absurd he (hl _ target)
  · rfl

/-- Without links there is no loop. -/
theorem settleNames_noLinks (hl : NoLinks t)
    (enter : Seen → Place → Text → Except FileFault Settled) (seen : Seen) :
    ∀ (names : List Text) (place : Place) {r : Settled},
      settleNames t enter seen place names = .ok r → ∃ place', r = .done seen place'
  | [], place, r, h => by
    cases h
    exact ⟨place, rfl⟩
  | name :: rest, place, r, h => by
    unfold settleNames at h
    split at h
    · exact settleNames_noLinks hl enter seen rest place h
    · split at h
      · exact settleNames_noLinks hl enter seen rest place.above h
      · simp only [hl.linkAt?] at h
        split at h
        · cases h
        · exact settleNames_noLinks hl enter seen rest (place.below name) h

theorem settle_noLinks (hl : NoLinks t) {path : Text} {r : Settled}
    (h : settle t maxNesting [] .here path = .ok r) : ∃ place, r = .done [] place := by
  unfold maxNesting settle at h
  split at h
  · exact settleNames_noLinks hl _ _ _ _ h
  · exact settleNames_noLinks hl _ _ _ _ h

/-- Without links a way is settled by its names alone. -/
theorem settleNames_congr {t' : Tree} (hl : NoLinks t) (hl' : NoLinks t')
    (enter enter' : Seen → Place → Text → Except FileFault Settled) (seen : Seen) :
    ∀ (names : List Text) (place : Place),
      settleNames t enter seen place names = settleNames t' enter' seen place names
  | [], _ => rfl
  | name :: rest, place => by
    unfold settleNames
    simp only [hl.linkAt?, hl'.linkAt?, settleNames_congr hl hl' enter enter' seen rest]

/-- Without links what is resolved starts at the root, written with one slash. -/
theorem resolve_anchor (hl : NoLinks t) {p root : Path} (h : t.resolve p = .ok root) :
    root.anchor = .root := by
  obtain ⟨-, r, hr, hroot⟩ := resolve_eq_ok h
  obtain ⟨place, rfl⟩ := settle_noLinks hl hr
  rw [hroot]
  rfl

/-- Without links a path is resolved in a tree that has grown as it was before. -/
theorem resolve_grows {t' : Tree} (hs : Sound t) (hl : NoLinks t) (hg : Grows t t') {p root : Path}
    (h : t.resolve p = .ok root) : t'.resolve p = .ok root := by
  have hl' : NoLinks t' := hl.grows hg
  obtain ⟨habs, hsteps⟩ := resolve_steps hs h
  obtain ⟨hv, r, hr, hroot⟩ := resolve_eq_ok h
  have hsettle : settle t' maxNesting [] .here p.toText = .ok r := by
    unfold maxNesting settle at *
    simp only [settleNames_congr hl' hl _ (settle t 979) []]
    exact hr
  obtain ⟨place, rfl⟩ := settle_noLinks hl hr
  subst hroot
  unfold resolve
  rw [hsettle]
  simp only [bind, Except.bind, hg.here, hv]
  split
  · next hst => exact absurd hst (status_clear_ne habs hsteps (hl'.clearWay [] _))
  · rfl

end

end PackageAudit.Tree
