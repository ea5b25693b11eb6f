import PackageAudit.Proofs.Tree.Change

/-! # Accounts of reading and writing files

What the operations of `Tree.Access` change, for sound trees and whatever links are in them. A
refused operation changes nothing, except that `makeFolders` keeps the directories that it has made
before it was refused; if it is not refused there is a directory (`status_of_makeFolders`).
A path from the root that was read and its text lead to the same place (`trace_toText`).
-/

namespace PackageAudit.Tree

section
variable {t t' : Tree}

/-! ## Writing -/

theorem nodup_put (h : (t.entries.map (·.1)).Nodup) (l : Location) (e : Entry) :
    ((t.put l e).entries.map (·.1)).Nodup := by
  have hmem : ∀ xs : List (Location × Entry), ∀ k ∈ (putIn l e xs).map (·.1),
      k = l ∨ k ∈ xs.map (·.1) := by
    intro xs
    induction xs with
    | nil => simp [putIn]
    | cons x rest ih =>
      rw [putIn]
      split
      · next hx => simp [hx]
      · intro k hk
        rcases List.mem_cons.mp hk with rfl | hk
        · exact .inr List.mem_cons_self
        · exact (ih k hk).imp_right (List.mem_cons_of_mem _)
  show ((putIn l e t.entries).map (·.1)).Nodup
  generalize t.entries = entries at h
  induction entries with
  | nil => simp [putIn]
  | cons x rest ih =>
    rw [List.map_cons, List.nodup_cons] at h
    rw [putIn]
    split
    · next hx =>
      subst hx
      exact List.nodup_cons.mpr h
    · next hx =>
      refine List.nodup_cons.mpr ⟨fun hx' => ?_, ih h.2⟩
      exact (hmem rest x.1 hx').elim hx h.1

/-- A file that is put where a walk for writing ends. -/
theorem account_put (hs : Sound t) {p : Path} {l : Location} (hl : t.locate .writing p = .ok l)
    (hf : t.get? l ≠ some .folder) {c : Change} {bytes : List UInt8}
    (hc : c.file? = some (p, bytes)) : Account t [c] (t.put l (.file bytes)) := by
  obtain ⟨hsite, hlink⟩ := locate_site hs hl
  have hg := grows_put_file bytes hf (hlink nofun)
  have hl' : (t.put l (.file bytes)).landing p = some l :=
    landing_eq_some.mpr (locate_grows hg hl)
  refine ⟨hs.put hsite hf, hg, fun h => nodup_put h l _, fun c' hc' x hx => ?_, fun k => .inl ?_⟩
  · obtain rfl := List.mem_singleton.mp hc'
    rw [hc, Option.mem_some_iff] at hx
    rw [← hx, hl']
    rfl
  · rw [replay_cons, replay_nil]
    simp only [Change.leave, hc, hl', Option.some.injEq]
    split
    · next he => rw [← he, get?_put_self (ne_nil_of_get? hf)]
    · next hne => exact get?_put_of_ne (Ne.symm hne) t _

theorem write_eq_ok {p : Path} {bytes : List UInt8} :
    t.write p bytes = .ok t' ↔ vet p.toText = .ok () ∧ ∃ l, t.locate .writing p = .ok l ∧
      t.get? l ≠ some .folder ∧ t' = t.put l (.file bytes) := by
  unfold write
  cases vet p.toText with
  | error f => simp [bind, Except.bind]
  | ok _ =>
    cases t.locate .writing p with
    | error cause => simp [bind, Except.bind, refuse]
    | ok l =>
      simp only [bind, Except.bind, true_and, Except.ok.injEq, exists_eq_left']
      split
      · next hf => simp [refuse, hf]
      · next hf => simpa [pure, Except.pure, eq_comm] using fun _ => hf

theorem account_write (hs : Sound t) {p : Path} {bytes : List UInt8}
    (h : t.write p bytes = .ok t') : Account t [.written p bytes] t' := by
  obtain ⟨-, l, hl, hf, rfl⟩ := write_eq_ok.mp h
  exact account_put hs hl hf rfl

/-! ## Making directories -/

/-- Directories on the way to a path are on the way to one that goes on from it. -/
theorem Account.widen {p q : Path} (h : Account t [.made p, .made q] t')
    (ha : p.anchor = q.anchor) (hp : p.parts <+: q.parts) : Account t [.made q] t' where
  sound := h.sound
  grows := h.grows
  once := h.once
  landed c hc := h.landed c (List.mem_cons_of_mem _ hc)
  entry k := by
    refine (h.entry k).imp id fun ⟨hn, hf, c, hc, hm⟩ => ⟨hn, hf, .made q, by simp, ?_⟩
    obtain ⟨p', rfl, way, hw, hl⟩ := hm
    simp only [List.mem_cons, Change.made.injEq, List.not_mem_nil, or_false] at hc
    rcases hc with rfl | rfl
    · exact ⟨q, rfl, way, hw.trans hp, ha ▸ hl⟩
    · exact ⟨p', rfl, way, hw, hl⟩

/-- An operation that changes nothing may have asked for a directory. -/
theorem Account.made_refl (hs : Sound t) (p : Path) : Account t [.made p] t where
  sound := hs
  grows := Grows.refl t
  once := id
  landed c hc x hx := by
    obtain rfl := List.mem_singleton.mp hc
    cases hx
  entry _ := .inl rfl

theorem account_makeFolder (hs : Sound t) {p : Path} (h : t.makeFolder p = .ok t') :
    Account t [.made p] t' ∧ ∃ l, t'.status p = .ok (l, .folder) := by
  unfold makeFolder at h
  cases hl : t.locate .entry p with
  | error cause => simp [hl] at h
  | ok l =>
    simp only [hl] at h
    cases hn : t.get? l with
    | some e => simp [hn] at h
    | none =>
      simp only [hn, Except.ok.injEq] at h
      subst h
      have hg := grows_put_folder hn
      have hne : l ≠ [] := ne_nil_of_get? (by rw [hn]; exact nofun)
      have hl' := locate_grows hg (locate_target hl fun _ _ => by rw [hn]; exact nofun)
      have hself := get?_put_self hne t .folder
      refine ⟨⟨hs.put (locate_site hs hl).1 (by rw [hn]; exact nofun), hg,
        fun h => nodup_put h l _, ?_, fun k => ?_⟩, l, status_eq_ok.mpr ⟨hl', hself⟩⟩
      · intro c hc x hx
        obtain rfl := List.mem_singleton.mp hc
        cases hx
      · by_cases hk : k = l
        · subst hk
          exact .inr ⟨hn, hself, .made p, List.mem_singleton_self _, p, rfl, p.parts,
            List.prefix_rfl, hl'⟩
        · exact .inl (get?_put_of_ne hk t .folder)

theorem ask_eq_true {p : Path} {question : Entry → Bool} :
    t.ask p question = .ok true ↔
      vet p.toText = .ok () ∧ ∃ l e, t.status p = .ok (l, e) ∧ question e = true := by
  unfold ask
  cases vet p.toText with
  | error f => simp
  | ok _ =>
    cases t.status p with
    | error cause => cases cause <;> simp
    | ok x =>
      obtain ⟨l, e⟩ := x
      simp only [Except.ok.injEq, true_and]
      refine ⟨fun h => ⟨l, e, rfl, h⟩, ?_⟩
      rintro ⟨_, _, he, h⟩
      obtain ⟨rfl, rfl⟩ := Prod.mk.inj he
      exact h

theorem isFile_eq_true {p : Path} :
    t.isFile p = .ok true ↔ vet p.toText = .ok () ∧ ∃ l bytes, t.status p = .ok (l, .file bytes) := by
  unfold isFile
  rw [ask_eq_true]
  refine and_congr_right fun _ => ⟨fun ⟨l, e, hst, hq⟩ => ?_, fun ⟨l, bytes, hst⟩ => ?_⟩
  · cases e with
    | file bytes => exact ⟨l, bytes, hst⟩
    | folder => cases hq
    | link target => cases hq
  · exact ⟨l, .file bytes, hst, rfl⟩

theorem isFolder_eq_true {p : Path} :
    t.isFolder p = .ok true ↔ vet p.toText = .ok () ∧ ∃ l, t.status p = .ok (l, .folder) := by
  unfold isFolder
  rw [ask_eq_true]
  refine and_congr_right fun _ => ⟨fun ⟨l, e, hst, hq⟩ => ?_, fun ⟨l, hst⟩ => ⟨l, .folder, hst, rfl⟩⟩
  cases e with
  | file bytes => cases hq
  | folder => exact ⟨l, hst⟩
  | link target => cases hq

theorem isFile_grows (hg : Grows t t') {p : Path} (h : t.isFile p = .ok true) :
    t'.isFile p = .ok true := by
  obtain ⟨hv, l, bytes, hst⟩ := isFile_eq_true.mp h
  obtain ⟨hloc, hk⟩ := status_eq_ok.mp hst
  obtain ⟨bytes', hk'⟩ := hg.file hk
  exact isFile_eq_true.mpr ⟨hv, l, bytes', status_eq_ok.mpr ⟨locate_grows hg hloc, hk'⟩⟩

/-- A directory is there afterwards, unless the operation is refused. -/
theorem account_makeFolderOrKeep (hs : Sound t) (p : Path) {f : Option FileFault}
    (h : t.makeFolderOrKeep p = (t', f)) :
    Account t [.made p] t' ∧ (f = none → ∃ l, t'.status p = .ok (l, .folder)) := by
  unfold makeFolderOrKeep at h
  split at h
  · next hm =>
    obtain ⟨rfl, rfl⟩ := Prod.mk.inj h
    have ha := account_makeFolder hs hm
    exact ⟨ha.1, fun _ => ha.2⟩
  · obtain ⟨rfl, rfl⟩ := Prod.mk.inj h
    exact ⟨.made_refl hs p, nofun⟩
  · split at h
    · next hk =>
      obtain ⟨rfl, rfl⟩ := Prod.mk.inj h
      exact ⟨.made_refl hs p, fun _ => (isFolder_eq_true.mp hk).2⟩
    · obtain ⟨rfl, rfl⟩ := Prod.mk.inj h
      exact ⟨.made_refl hs p, nofun⟩
    · obtain ⟨rfl, rfl⟩ := Prod.mk.inj h
      exact ⟨.made_refl hs p, nofun⟩

theorem account_makeFoldersUp (anchor : Anchor) :
    ∀ (names : List Text) {t t' : Tree} {f : Option FileFault}, Sound t →
      t.makeFoldersUp anchor names = (t', f) →
      Account t [.made ⟨anchor, names.reverse⟩] t' ∧
        (f = none → ∃ l, t'.status ⟨anchor, names.reverse⟩ = .ok (l, .folder))
  | [], _, _, _, hs, h => account_makeFolderOrKeep hs _ h
  | name :: above, t, t', f, hs, h => by
    unfold makeFoldersUp at h
    simp only at h
    split at h
    · cases hu : t.makeFoldersUp anchor above with
      | mk t₁ f₁ =>
        have ha := account_makeFoldersUp anchor above hs hu
        have hpre : above.reverse <+: (name :: above).reverse := by simp
        rw [hu] at h
        cases f₁ with
        | none =>
          have hb := account_makeFolderOrKeep ha.1.sound _ h
          exact ⟨(ha.1.trans hb.1).widen rfl hpre, hb.2⟩
        | some f' =>
          obtain ⟨rfl, rfl⟩ := Prod.mk.inj h
          have hk := ha.1.trans (.made_refl ha.1.sound ⟨anchor, (name :: above).reverse⟩)
          exact ⟨hk.widen rfl hpre, nofun⟩
    · exact account_makeFolderOrKeep hs _ h

theorem account_makeFolders (hs : Sound t) {p : Path} {f : Option FileFault}
    (h : t.makeFolders p = (t', f)) : Account t [.made p] t' := by
  unfold makeFolders at h
  split at h
  · obtain ⟨rfl, -⟩ := Prod.mk.inj h
    exact .made_refl hs p
  · have ha := (account_makeFoldersUp p.anchor p.parts.reverse hs h).1
    rwa [List.reverse_reverse] at ha

theorem status_of_makeFolders (hs : Sound t) {p : Path} (h : t.makeFolders p = (t', none)) :
    ∃ l, t'.status p = .ok (l, .folder) := by
  unfold makeFolders at h
  split at h
  · cases h
  · have ha := (account_makeFoldersUp p.anchor p.parts.reverse hs h).2 rfl
    rwa [List.reverse_reverse] at ha

/-! ## The text of a path -/

theorem toText_ne_nil {p : Path} (ha : p.isAbsolute = true) : p.toText ≠ [] := by
  rw [Path.toText_of_absolute ha]
  cases hp : p.anchor with
  | here => simp [Path.isAbsolute, hp] at ha
  | root => exact List.cons_ne_nil _ _
  | doubleRoot => exact List.cons_ne_nil _ _

theorem trace_toText {p : Path} (hp : p.Proper) (ha : p.isAbsolute = true) (purpose : Purpose) :
    t.trace purpose p.toText = t.locate purpose p := by
  unfold trace locate
  rw [if_neg (toText_ne_nil ha), Path.ofText_toText hp ha, Path.steps_toText hp ha]

theorem statusOfText_toText {p : Path} (hp : p.Proper) (ha : p.isAbsolute = true) :
    t.statusOfText p.toText = t.status p := by
  unfold statusOfText status
  rw [trace_toText hp ha]

/-! ## Reading and copying -/

theorem read_eq_ok {p : Path} {bytes : List UInt8} :
    t.read p = .ok bytes ↔ vet p.toText = .ok () ∧ ∃ l, t.status p = .ok (l, .file bytes) := by
  unfold read
  cases vet p.toText with
  | error f => simp [bind, Except.bind]
  | ok _ =>
    cases t.status p with
    | error cause => simp [bind, Except.bind, refuse]
    | ok x =>
      obtain ⟨l, e⟩ := x
      cases e <;> simp [bind, Except.bind, refuse, pure, Except.pure]

theorem leadsToFolder_toText {p : Path} (hp : p.Proper) (ha : p.isAbsolute = true) :
    t.leadsToFolder p.toText = true ↔ ∃ l, t.status p = .ok (l, .folder) := by
  unfold leadsToFolder
  rw [statusOfText_toText hp ha]
  cases t.status p with
  | error cause => simp
  | ok x =>
    obtain ⟨l, e⟩ := x
    cases e <;> simp [isFolderEntry]

/-- Where the copy of a file goes: a directory receives it under its own name. -/
def copyPath (t : Tree) (source target : Path) : Path :=
  if t.leadsToFolder target.toText then target.append [source.name] else target

theorem overwrite_toText_eq_ok {p : Path} (hp : p.Proper) (ha : p.isAbsolute = true)
    {bytes : List UInt8} (h : t.overwrite p.toText bytes = .ok t') :
    ∃ l, t.locate .writing p = .ok l ∧ t.get? l ≠ some .folder ∧ t' = t.put l (.file bytes) := by
  unfold overwrite at h
  rw [trace_toText hp ha] at h
  cases hl : t.locate .writing p with
  | error cause =>
    rw [hl] at h
    cases cause <;> simp only [reduceCtorEq] at h
    split at h <;> cases h
  | ok l =>
    rw [hl] at h
    simp only at h
    split at h
    · cases h
    · next hf => exact ⟨l, rfl, hf, (Except.ok.inj h).symm⟩

/-- The name of a file that can be read is the name of something. -/
theorem isPart_name (hs : Sound t) {p : Path} (hp : p.Proper) {l : Location} {bytes : List UInt8}
    (h : t.status p = .ok (l, .file bytes)) : Path.IsPart p.name := by
  obtain ⟨hl, hf⟩ := status_eq_ok.mp h
  rcases List.eq_nil_or_concat p.parts with hnil | ⟨init, last, hc⟩
  · obtain ⟨-, hw⟩ := locate_eq_ok.mp hl
    rw [hnil, walk, advance, Except.ok.injEq] at hw
    rw [← hw, hs.start p] at hf
    cases hf
  · unfold Path.name
    rw [hc, List.concat_eq_append, List.getLast?_concat]
    exact hp last (by simp [hc])

theorem copyPath_proper {source target : Path} (hn : Path.IsPart source.name)
    (htp : target.Proper) : (t.copyPath source target).Proper := by
  unfold copyPath
  split
  · exact htp.append (by simpa using hn)
  · exact htp

theorem copyPath_absolute {source target : Path} (hta : target.isAbsolute = true) :
    (t.copyPath source target).isAbsolute = true := by
  unfold copyPath
  split
  · exact hta
  · exact hta

/-- The text that a copy goes to is that of its path. -/
theorem toText_copyPath {source target : Path} (hn : Path.IsPart source.name)
    (htp : target.Proper) (hta : target.isAbsolute = true) :
    (if t.leadsToFolder target.toText then Path.joinTexts target.toText source.name
      else target.toText) = (t.copyPath source target).toText := by
  unfold copyPath
  split
  · exact Path.joinTexts_toText htp hta hn
  · rfl

/-- **What a copy does**: the bytes of the source are put at another location. -/
theorem copy_eq_ok (hs : Sound t) {source target : Path} (hsp : source.Proper)
    (htp : target.Proper) (hta : target.isAbsolute = true)
    (h : t.copy source target.toText = .ok t') :
    ∃ a bytes l, t.read source = .ok bytes ∧ t.status source = .ok (a, .file bytes) ∧
      t.locate .writing (t.copyPath source target) = .ok l ∧ t.get? l ≠ some .folder ∧ a ≠ l ∧
      t' = t.put l (.file bytes) := by
  unfold copy at h
  cases hr : t.read source with
  | error f =>
    simp only [hr] at h
    split at h
    all_goals (simp only [bind, Except.bind] at h; split at h <;> cases h)
  | ok bytes =>
    obtain ⟨-, a, hsource⟩ := read_eq_ok.mp hr
    have hn := isPart_name hs hsp hsource
    have hpp := copyPath_proper (t := t) hn htp
    have hpa : (t.copyPath source target).isAbsolute = true := copyPath_absolute hta
    simp only [toText_copyPath hn htp hta, hr, hsource, statusOfText_toText hpp hpa, bind, Except.bind] at h
    split at h
    · cases h
    · cases hst : t.status (t.copyPath source target) with
      | error cause =>
        simp only [hst] at h
        obtain ⟨l, hl, hf, ht⟩ := overwrite_toText_eq_ok hpp hpa h
        refine ⟨a, bytes, l, rfl, hsource, hl, hf, ?_, ht⟩
        rintro rfl
        have := status_eq_ok.mpr ⟨locate_target hl nofun, (status_eq_ok.mp hsource).2⟩
        rw [hst] at this
        cases this
      | ok x =>
        obtain ⟨b, e⟩ := x
        simp only [hst] at h
        split at h
        · cases h
        · next hab =>
          obtain ⟨l, hl, hf, ht⟩ := overwrite_toText_eq_ok hpp hpa h
          have hb := (status_eq_ok.mp hst).1
          rw [locate_target hl nofun, Except.ok.injEq] at hb
          exact ⟨a, bytes, l, rfl, hsource, hl, hf, hb ▸ hab, ht⟩

theorem account_copy (hs : Sound t) {source target : Path} (hsp : source.Proper)
    (htp : target.Proper) (hta : target.isAbsolute = true)
    (h : t.copy source target.toText = .ok t') :
    ∃ bytes, t.read source = .ok bytes ∧
      Account t [.copied (t.copyPath source target) bytes] t' := by
  obtain ⟨-, bytes, l, hr, -, hl, hf, -, rfl⟩ := copy_eq_ok hs hsp htp hta h
  exact ⟨bytes, hr, account_put hs hl hf rfl⟩

end

end PackageAudit.Tree
