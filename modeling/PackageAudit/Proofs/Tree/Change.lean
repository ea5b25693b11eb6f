import PackageAudit.Proofs.Tree.Shape
import PackageAudit.Tree.Access

/-! # What operations do to a tree

A list of `Change`s accounts for a tree that came of another one (`Account`) if the tree has only
grown, every file that was written or copied lies where its path leads, what a location holds is
what the last file that went there left (`replay`), and all else that is new are directories on the
way to a path that was asked for. Paths are followed in the later tree; what they lead to has not
moved since (`walk_grows`).

* `Account.trans`: accounts of operations in a row make one of them all.
* `account_write`, `account_makeFolders`, `account_copy`: the operations that a repair uses.
-/

namespace PackageAudit.Tree

/-! ## Paths in trees that have grown -/

section
variable {t t' : Tree}

theorem start_grows (hg : Grows t t') (p : Path) : t'.start p = t.start p := by
  simp only [start, hg.here]

theorem locate_grows (hg : Grows t t') {purpose : Purpose} {p : Path} {l : Location}
    (h : t.locate purpose p = .ok l) : t'.locate purpose p = .ok l := by
  obtain ⟨hsize, hw⟩ := locate_eq_ok.mp h
  refine locate_eq_ok.mpr ⟨hsize, ?_⟩
  rw [start_grows hg]
  exact walk_grows hg hw

/-- Where a path leads for any purpose a question about it is answered, unless it is an entry that is a
link. -/
theorem locate_target {purpose : Purpose} {p : Path} {l : Location} (h : t.locate purpose p = .ok l)
    (hl : purpose = .entry → ∀ target, t.get? l ≠ some (.link target)) :
    t.locate .target p = .ok l := by
  obtain ⟨hsize, hw⟩ := locate_eq_ok.mp h
  exact locate_eq_ok.mpr ⟨hsize, walk_target hw hl⟩

theorem status_eq_ok {p : Path} {l : Location} {e : Entry} :
    t.status p = .ok (l, e) ↔ t.locate .target p = .ok l ∧ t.get? l = some e := by
  unfold status occupied
  cases t.locate .target p with
  | error cause => simp
  | ok k =>
    simp only [Except.ok.injEq]
    cases hk : t.get? k with
    | none =>
      refine ⟨nofun, fun ⟨hkl, he⟩ => ?_⟩
      rw [hkl, he] at hk
      cases hk
    | some e' =>
      simp only [Except.ok.injEq, Prod.mk.injEq]
      constructor
      · rintro ⟨rfl, rfl⟩
        exact ⟨rfl, hk⟩
      · rintro ⟨rfl, he⟩
        exact ⟨rfl, Option.some.inj (hk.symm.trans he)⟩

theorem status_folder_grows (hg : Grows t t') {p : Path} {l : Location}
    (h : t.status p = .ok (l, .folder)) : t'.status p = .ok (l, .folder) := by
  rw [status_eq_ok] at *
  exact ⟨locate_grows hg h.1, hg.folder h.2⟩

/-- What is below a directory is walked to from there. -/
theorem exists_locate_append {p : Path} {folder : Location}
    (hf : t.status p = .ok (folder, .folder)) : ∃ left, ∀ purpose names, GoesOn names →
      t.locate purpose (p.append names) =
        if maxPathBytes < Name.size (p.append names).toText then .error .nameTooLong
        else walk t purpose left folder names := by
  obtain ⟨hlp, hget⟩ := status_eq_ok.mp hf
  obtain ⟨left, -, hw⟩ := walk_append hget (locate_eq_ok.mp hlp).2
  refine ⟨left, fun purpose names hgo => ?_⟩
  have hstart : t.start (p.append names) = t.start p := rfl
  rw [locate, hstart, Path.append, hw purpose names hgo]

/-- A path that goes on from a directory, with no link on the way, leads to what its names say. -/
theorem locate_append {p : Path} {folder l : Location} {purpose : Purpose} {names : List Text}
    (hf : t.status p = .ok (folder, .folder)) (hne : names ≠ []) (hn : ∀ name ∈ names, IsStep name)
    (hc : ClearWay t folder names) (hl : t.locate purpose (p.append names) = .ok l) :
    l = folder ++ names.map Name.plain := by
  have hgo : GoesOn names := by
    refine ⟨hne, ?_⟩
    rintro rfl
    exact (hn [] List.mem_cons_self).1.1 rfl
  obtain ⟨left, hlocate⟩ := exists_locate_append hf
  rw [hlocate purpose names hgo] at hl
  split at hl
  · cases hl
  · exact (walk_straight hn hc hl).1

/-- What is at the end of a name in a directory, unless it is a link. -/
theorem status_child {p : Path} {folder : Location} (hf : t.status p = .ok (folder, .folder))
    {name : Text} (hn : IsStep name)
    (hl : ∀ target, t.get? (folder ++ [Name.plain name]) ≠ some (.link target)) :
    t.status (p.append [name]) =
      if maxPathBytes < Name.size (p.append [name]).toText ∨ maxNameBytes < Name.size name then
        .error .nameTooLong
      else t.occupied (folder ++ [Name.plain name]) := by
  obtain ⟨⟨hne, hdot, -⟩, hup⟩ := hn
  obtain ⟨left, hlocate⟩ := exists_locate_append hf
  have hwalk : walk t .target left folder [name] =
      if maxNameBytes < Name.size name then .error .nameTooLong
      else .ok (folder ++ [Name.plain name]) := by
    unfold walk
    by_cases hs : maxNameBytes < Name.size name
    · simp [advance, hne, hdot, hup, hs]
    · cases he : t.get? (folder ++ [Name.plain name]) with
      | none => simp [advance, hne, hdot, hup, hs, he]
      | some e =>
        cases e with
        | link target => exact absurd he (hl target)
        | folder => simp [advance, hne, hdot, hup, hs, he]
        | file bytes => simp [advance, hne, hdot, hup, hs, he]
  rw [status, hlocate .target [name] (goesOn_cons hne []), hwalk]
  by_cases hp : maxPathBytes < Name.size (p.append [name]).toText
  · rw [if_pos hp, if_pos (Or.inl hp)]
  · by_cases hs : maxNameBytes < Name.size name
    · rw [if_neg hp, if_pos hs, if_pos (Or.inr hs)]
    · rw [if_neg hp, if_neg hs, if_neg (not_or.mpr ⟨hp, hs⟩)]

theorem status_of_long {p : Path} {folder : Location} (hf : t.status p = .ok (folder, .folder))
    {name : Text} (hn : IsStep name) (hlong : maxNameBytes < Name.size name) (rest : List Text) :
    t.status (p.append (name :: rest)) = .error .nameTooLong := by
  obtain ⟨⟨hne, hdot, -⟩, hup⟩ := hn
  obtain ⟨left, hlocate⟩ := exists_locate_append hf
  have hwalk : walk t .target left folder (name :: rest) = .error .nameTooLong := by
    unfold walk
    simp [advance, hne, hdot, hup, hlong]
  rw [status, hlocate .target (name :: rest) (goesOn_cons hne rest), hwalk, ite_self]

/-- The names of a path from the root, and of the links on its way, make up what it leads to. -/
theorem locate_names {q : Text → Prop} (h : LinkNames t q) {purpose : Purpose} {p : Path}
    (ha : p.isAbsolute = true) (hn : ∀ name ∈ p.parts, q (Name.plain name)) {l : Location}
    (hl : t.locate purpose p = .ok l) : ∀ x ∈ l, q x := by
  obtain ⟨-, hw⟩ := locate_eq_ok.mp hl
  rw [start, if_pos ha] at hw
  exact walk_names h (fun x hx => by cases hx) hn hw

theorem locate_of_grown (hs : Sound t) (h : NoLinks t') (hg : Grows t t') {purpose : Purpose}
    {p : Path} (hn : ∀ name ∈ p.parts, IsStep name) {l : Location}
    (hl : t'.locate purpose p = .ok l) (hk : t.get? l ≠ none) : t.locate purpose p = .ok l := by
  obtain ⟨hsize, hw⟩ := locate_eq_ok.mp hl
  rw [start_grows hg] at hw
  exact locate_eq_ok.mpr ⟨hsize, walk_of_grown hs h hg hn hw hk⟩

theorem NoLinks.grows (hg : Grows t t') (h : NoLinks t) : NoLinks t' :=
  fun k target hk => h k target (hg.link.mpr hk)

/-- Where a file of a path would be written. -/
def landing (t : Tree) (p : Path) : Option Location := (t.locate .writing p).toOption

theorem landing_eq_some {p : Path} {k : Location} :
    t.landing p = some k ↔ t.locate .writing p = .ok k := by
  unfold landing
  cases t.locate .writing p <;> simp [Except.toOption]

theorem landing_grows (hg : Grows t t') {p : Path} (h : (t.landing p).isSome) :
    t'.landing p = t.landing p := by
  obtain ⟨k, hk⟩ := Option.isSome_iff_exists.mp h
  rw [hk, landing_eq_some]
  exact locate_grows hg (landing_eq_some.mp hk)

end

/-! ## Changes -/

/-- What an operation does to a tree. -/
inductive Change where
  /-- Directories are made on the way to a path, as far as they are missing. -/
  | made (p : Path)
  | written (p : Path) (bytes : List UInt8)
  /-- A file is copied to the path. -/
  | copied (p : Path) (bytes : List UInt8)

namespace Change

/-- The file that a change leaves, by its path and its content. -/
def file? : Change → Option (Path × List UInt8)
  | made _ => none
  | written p bytes => some (p, bytes)
  | copied p bytes => some (p, bytes)

/-- The path that a change is about. -/
def path : Change → Path
  | made p => p
  | written p _ => p
  | copied p _ => p

theorem path_of_file? {c : Change} {x : Path × List UInt8} (h : x ∈ c.file?) : c.path = x.1 := by
  cases c <;> cases h <;> rfl

/-- What a location of a tree holds after a change of what it held before. -/
def leave (t : Tree) (k : Location) (e : Option Entry) (c : Change) : Option Entry :=
  match c.file? with
  | none => e
  | some (p, bytes) => if t.landing p = some k then some (.file bytes) else e

/-- Does a change make the directory at a location of the tree, if it is missing? -/
def MakesAt (c : Change) (t : Tree) (k : Location) : Prop :=
  ∃ p, c = made p ∧ ∃ way, way <+: p.parts ∧ t.locate .target ⟨p.anchor, way⟩ = .ok k

/-- A change that leaves a file somewhere. -/
def Landed (t : Tree) (c : Change) : Prop := ∀ x ∈ c.file?, (t.landing x.1).isSome

end Change

/-- What a location holds after changes of what it held before. -/
def replay (t : Tree) (k : Location) (e : Option Entry) (cs : List Change) : Option Entry :=
  cs.foldl (Change.leave t k) e

/-- The changes are all that made the second tree of the first. -/
structure Account (t : Tree) (cs : List Change) (t' : Tree) : Prop where
  sound : Sound t'
  grows : Grows t t'
  /-- Nothing comes to be in the tree twice. -/
  once : (t.entries.map (·.1)).Nodup → (t'.entries.map (·.1)).Nodup
  landed : ∀ c ∈ cs, c.Landed t'
  entry : ∀ k, t'.get? k = replay t' k (t.get? k) cs ∨
    (t.get? k = none ∧ t'.get? k = some .folder ∧ ∃ c ∈ cs, c.MakesAt t' k)

section
variable {t t' t'' : Tree}

theorem Change.Landed.grows (hg : Grows t t') {c : Change} (h : c.Landed t) : c.Landed t' := by
  intro x hx
  rw [landing_grows hg (h x hx)]
  exact h x hx

theorem Change.MakesAt.grows (hg : Grows t t') {c : Change} {k : Location} (h : c.MakesAt t k) :
    c.MakesAt t' k := by
  obtain ⟨p, rfl, way, hw, hl⟩ := h
  exact ⟨p, rfl, way, hw, locate_grows hg hl⟩

theorem Change.leave_grows (hg : Grows t t') {c : Change} (hc : c.Landed t) (k : Location)
    (e : Option Entry) : c.leave t' k e = c.leave t k e := by
  unfold Change.leave
  split
  · rfl
  · next p bytes hf => rw [landing_grows hg (hc _ hf)]

theorem replay_nil (k : Location) (e : Option Entry) : replay t k e [] = e := rfl

theorem replay_cons (k : Location) (e : Option Entry) (c : Change) (cs : List Change) :
    replay t k e (c :: cs) = replay t k (c.leave t k e) cs := rfl

theorem replay_append (k : Location) (e : Option Entry) (cs cs' : List Change) :
    replay t k e (cs ++ cs') = replay t k (replay t k e cs) cs' := List.foldl_append

/-- What changes have left does not move when the tree grows. -/
theorem replay_grows (hg : Grows t t') (k : Location) :
    ∀ {cs : List Change} (e : Option Entry), (∀ c ∈ cs, c.Landed t) →
      replay t' k e cs = replay t k e cs
  | [], _, _ => rfl
  | c :: cs, e, h => by
    rw [replay_cons, replay_cons, Change.leave_grows hg (h c List.mem_cons_self)]
    exact replay_grows hg k _ fun x hx => h x (List.mem_cons_of_mem c hx)

theorem Change.leave_isSome (c : Change) (k : Location) {e : Option Entry} (h : e.isSome) :
    (c.leave t k e).isSome := by
  unfold Change.leave
  split
  · exact h
  · split
    · rfl
    · exact h

theorem replay_isSome (k : Location) :
    ∀ (cs : List Change) {e : Option Entry}, e.isSome → (replay t k e cs).isSome
  | [], _, h => h
  | c :: cs, _, h => replay_isSome k cs (c.leave_isSome k h)

/-- Where nothing is after changes, nothing was before. -/
theorem eq_none_of_replay {k : Location} {e : Option Entry} {cs : List Change}
    (h : replay t k e cs = none) : e = none := by
  cases e with
  | none => rfl
  | some e =>
    have := replay_isSome (t := t) k cs (e := some e) rfl
    rw [h] at this
    cases this

theorem replay_eq_self {k : Location} {e : Option Entry} {cs : List Change}
    (h : ∀ c ∈ cs, ∀ x ∈ c.file?, t.landing x.1 ≠ some k) : replay t k e cs = e := by
  induction cs with
  | nil => rfl
  | cons c cs ih =>
    have hc : c.leave t k e = e := by
      unfold Change.leave
      split
      · rfl
      · next p bytes hf => exact if_neg (h c List.mem_cons_self (p, bytes) hf)
    rw [replay_cons, hc]
    exact ih fun c' hc' => h c' (List.mem_cons_of_mem c hc')

/-- What is no longer as it was is where a file has landed, or a new directory. -/
theorem Account.landing_of_ne {cs : List Change} (h : Account t cs t') {k : Location}
    (hne : t'.get? k ≠ t.get? k) :
    (∃ c ∈ cs, ∃ x ∈ c.file?, t'.landing x.1 = some k) ∨
      (t.get? k = none ∧ t'.get? k = some .folder ∧ ∃ c ∈ cs, c.MakesAt t' k) := by
  refine (h.entry k).imp (fun he => Classical.byContradiction fun hno => ?_) id
  refine hne (he.trans (replay_eq_self fun c hc x hx hl => ?_))
  exact hno ⟨c, hc, x, hx, hl⟩

/-- What changes was reached on the way of a change. -/
theorem Account.locate_of_ne {cs : List Change} (h : Account t cs t') {k : Location}
    (hne : t'.get? k ≠ t.get? k) : ∃ c ∈ cs, ∃ purpose way, way <+: c.path.parts ∧
      t'.locate purpose ⟨c.path.anchor, way⟩ = .ok k := by
  rcases h.landing_of_ne hne with ⟨c, hc, x, hx, hland⟩ | ⟨-, -, c, hc, p, rfl, way, hw, hl⟩
  · rw [← Change.path_of_file? hx] at hland
    exact ⟨c, hc, .writing, c.path.parts, List.prefix_rfl, landing_eq_some.mp hland⟩
  · exact ⟨_, hc, .target, way, hw, hl⟩

/-- What is there and where nothing lands is left alone. -/
theorem Account.get?_of_not_landing {cs : List Change} (h : Account t cs t') {k : Location}
    (hk : t.get? k ≠ none) (hl : ∀ c ∈ cs, ∀ x ∈ c.file?, t'.landing x.1 ≠ some k) :
    t'.get? k = t.get? k := by
  apply Classical.byContradiction
  intro hne
  rcases h.landing_of_ne hne with ⟨c, hc, x, hx, hland⟩ | ⟨hn, -, -⟩
  · exact hl c hc x hx hland
  · exact hk hn

theorem Account.get?_of_made {p : Path} (h : Account t [.made p] t') {k : Location}
    (hk : t.get? k ≠ none) : t'.get? k = t.get? k :=
  h.get?_of_not_landing hk fun c hc x hx => by
    obtain rfl := List.mem_singleton.mp hc
    cases hx

/-- The change is the last one to leave a file at a location. -/
def Change.LastAt (t : Tree) (k : Location) (cs : List Change) (c : Change) : Prop :=
  ∃ earlier later, cs = earlier ++ c :: later ∧ (∃ x ∈ c.file?, t.landing x.1 = some k) ∧
    ∀ c' ∈ later, ∀ x ∈ c'.file?, t.landing x.1 ≠ some k

theorem Change.LastAt.mem {k : Location} {cs : List Change} {c : Change} (h : c.LastAt t k cs) :
    c ∈ cs := by
  obtain ⟨earlier, later, rfl, -, -⟩ := h
  simp

theorem Change.LastAt.exists_file {k : Location} {cs : List Change} {c : Change}
    (h : c.LastAt t k cs) : ∃ x ∈ c.file?, t.landing x.1 = some k := by
  obtain ⟨_, _, -, hx, -⟩ := h
  exact hx

theorem Change.LastAt.landing {k : Location} {cs : List Change} {c : Change} (h : c.LastAt t k cs)
    {x : Path × List UInt8} (hx : x ∈ c.file?) : t.landing x.1 = some k := by
  obtain ⟨y, hy, hl⟩ := h.exists_file
  exact Option.some.inj (hy.symm.trans hx) ▸ hl

theorem exists_lastAt (k : Location) (cs : List Change) :
    (∃ c, Change.LastAt t k cs c) ∨ ∀ c ∈ cs, ∀ x ∈ c.file?, t.landing x.1 ≠ some k := by
  induction cs with
  | nil => exact .inr nofun
  | cons c cs ih =>
    rcases ih with ⟨c', earlier, later, rfl, hx, hlater⟩ | hno
    · exact .inl ⟨c', c :: earlier, later, rfl, hx, hlater⟩
    · by_cases hc : ∃ x ∈ c.file?, t.landing x.1 = some k
      · exact .inl ⟨c, [], cs, rfl, hc, hno⟩
      · refine .inr fun c' hm x hx hl => ?_
        rcases List.mem_cons.mp hm with rfl | hm
        · exact hc ⟨x, hx, hl⟩
        · exact hno c' hm x hx hl

theorem Change.LastAt.replay_eq {k : Location} {cs : List Change} {c : Change}
    (h : c.LastAt t k cs) {x : Path × List UInt8} (hx : x ∈ c.file?) (e : Option Entry) :
    replay t k e cs = some (.file x.2) := by
  have hl := h.landing hx
  obtain ⟨earlier, later, rfl, -, hlater⟩ := h
  have hleave : ∀ e, c.leave t k e = some (.file x.2) := by
    intro e
    have hf : c.file? = some (x.1, x.2) := hx
    simp [Change.leave, hf, hl]
  rw [replay_append, replay_cons, hleave]
  exact replay_eq_self hlater

theorem Account.get?_eq_replay {cs : List Change} (h : Account t cs t') {k : Location}
    (hk : t.get? k ≠ none) : t'.get? k = replay t' k (t.get? k) cs := by
  rcases h.entry k with he | ⟨hn, -, -⟩
  · exact he
  · exact absurd hn hk

/-- **A file has lost its content if and only if the last change to land there left another one.** -/
theorem Account.get?_ne_iff {cs : List Change} (h : Account t cs t') {k : Location}
    {bytes : List UInt8} (hk : t.get? k = some (.file bytes)) :
    t'.get? k ≠ some (.file bytes) ↔
      ∃ c x, Change.LastAt t' k cs c ∧ x ∈ c.file? ∧ x.2 ≠ bytes := by
  have he := h.get?_eq_replay (by rw [hk]; exact nofun)
  constructor
  · intro hne
    rcases exists_lastAt (t := t') k cs with ⟨c, hc⟩ | hno
    · obtain ⟨x, hx, -⟩ := hc.exists_file
      refine ⟨c, x, hc, hx, fun hb => hne ?_⟩
      rw [he, hc.replay_eq hx, hb]
    · exact absurd (he.trans ((replay_eq_self hno).trans hk)) hne
  · rintro ⟨c, x, hc, hx, hb⟩ hsame
    rw [he, hc.replay_eq hx] at hsame
    exact hb (Entry.file.inj (Option.some.inj hsame))

theorem Account.nil (h : Sound t) : Account t [] t where
  sound := h
  grows := Grows.refl t
  once := id
  landed := nofun
  entry _ := .inl rfl

/-- **Accounts of operations in a row make one of them all.** -/
theorem Account.trans {cs cs' : List Change} (h : Account t cs t') (h' : Account t' cs' t'') :
    Account t (cs ++ cs') t'' where
  sound := h'.sound
  grows := h.grows.trans h'.grows
  once := h'.once ∘ h.once
  landed c hc := by
    rcases List.mem_append.mp hc with hc | hc
    · exact (h.landed c hc).grows h'.grows
    · exact h'.landed c hc
  entry k := by
    rw [replay_append, replay_grows h'.grows k _ h.landed]
    rcases h.entry k with he | ⟨hn, hf, c, hc, hm⟩
    · rcases h'.entry k with he' | ⟨hn', hf', c, hc, hm⟩
      · exact .inl (he ▸ he')
      · rw [he] at hn'
        exact .inr ⟨eq_none_of_replay hn', hf', c, List.mem_append_right cs hc, hm⟩
    · exact .inr ⟨hn, h'.grows.folder hf, c, List.mem_append_left cs' hc, hm.grows h'.grows⟩

end

end PackageAudit.Tree
