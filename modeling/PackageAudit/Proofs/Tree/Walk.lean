import PackageAudit.Tree.Resolve

/-! # Walks

What `Tree.walk` reaches, for all purposes, link budgets and trees:

* `walk_eq_ok`: a walk ends where its first part without links does, or goes on from the link there.
* `walk_keeps`, `walk_of_agrees`: what the parts without links keep, and where they agree, is what
  walks keep and where they agree.
* `walk_append`: a walk that goes on from a directory is a walk from that directory, with at most the
  links left that the first part did not use.
* `walk_target`: what is reached for any purpose is reached for asking, too.
* `walk_grows`: what a walk reaches it still reaches in a tree that has only grown (`Tree.Grows`:
  directories and links stay what they are, files stay files, and no link is new).
-/

namespace PackageAudit.Tree

/-! ## Trees that grow -/

/-- The second tree has what the first one has, apart from the bytes of files, and no new links. -/
structure Grows (t t' : Tree) : Prop where
  here : t'.here = t.here
  folder : ∀ {k}, t.get? k = some .folder → t'.get? k = some .folder
  file : ∀ {k bytes}, t.get? k = some (.file bytes) → ∃ bytes', t'.get? k = some (.file bytes')
  link : ∀ {k target}, t.get? k = some (.link target) ↔ t'.get? k = some (.link target)

theorem Grows.refl (t : Tree) : Grows t t := ⟨rfl, id, fun h => ⟨_, h⟩, Iff.rfl⟩

theorem Grows.trans {t₁ t₂ t₃ : Tree} (h₁ : Grows t₁ t₂) (h₂ : Grows t₂ t₃) : Grows t₁ t₃ where
  here := h₂.here.trans h₁.here
  folder h := h₂.folder (h₁.folder h)
  file h := by
    obtain ⟨_, h'⟩ := h₁.file h
    exact h₂.file h'
  link := h₁.link.trans h₂.link

theorem Grows.none_of {t t' : Tree} (h : Grows t t') {k : Location} (hk : t'.get? k = none) :
    t.get? k = none := by
  cases he : t.get? k with
  | none => rfl
  | some e =>
    cases e with
    | file bytes =>
      obtain ⟨_, h'⟩ := h.file he
      rw [h'] at hk; cases hk
    | folder => rw [h.folder he] at hk; cases hk
    | link target => rw [h.link.mp he] at hk; cases hk

theorem ne_nil_of_get? {t : Tree} {k : Location} (h : t.get? k ≠ some .folder) : k ≠ [] :=
  fun hk => h (hk ▸ get?_root t)

theorem grows_put_file {t : Tree} {l : Location} (bytes : List UInt8)
    (hf : t.get? l ≠ some .folder) (hl : ∀ target, t.get? l ≠ some (.link target)) :
    Grows t (t.put l (.file bytes)) := by
  have hself := get?_put_self (ne_nil_of_get? hf) t (.file bytes)
  refine ⟨rfl, fun {k} hk => ?_, fun {k bytes'} hk => ?_, fun {k target} => ?_⟩
  · rwa [get?_put_of_ne (fun he => by rw [he] at hk; exact hf hk)]
  · by_cases hkl : k = l
    · exact ⟨bytes, hkl ▸ hself⟩
    · exact ⟨bytes', by rwa [get?_put_of_ne hkl]⟩
  · by_cases hkl : k = l
    · subst hkl
      rw [hself]
      exact ⟨fun h => absurd h (hl target), fun h => by cases h⟩
    · rw [get?_put_of_ne hkl]

theorem grows_put_folder {t : Tree} {l : Location} (h : t.get? l = none) :
    Grows t (t.put l .folder) := by
  have hself := get?_put_self (ne_nil_of_get? (by rw [h]; exact nofun)) t .folder
  refine ⟨rfl, fun {k} hk => ?_, fun {k bytes} hk => ⟨bytes, ?_⟩, fun {k target} => ?_⟩
  · rwa [get?_put_of_ne (fun he => by rw [he, h] at hk; cases hk)]
  · rwa [get?_put_of_ne (fun he => by rw [he, h] at hk; cases hk)]
  · by_cases hkl : k = l
    · subst hkl
      rw [hself, h]
      exact ⟨nofun, nofun⟩
    · rw [get?_put_of_ne hkl]

/-! ## Part by part -/

section
variable {t t' : Tree} {purpose purpose' : Purpose} {budget : Nat} {folder l : Location}
  {names : List Text}

/-- A walk ends where its first part without links does, or goes on from the link that it met. -/
theorem walk_eq_ok : walk t purpose budget folder names = .ok l ↔
    advance t purpose folder names = .reached l ∨
      ∃ g target rest left, advance t purpose folder names = .link g target rest ∧
        budget = left + 1 ∧ walk t purpose left (if (Path.ofText target).isAbsolute then [] else g)
          (Path.steps target ++ rest) = .ok l := by
  conv => lhs; unfold walk
  cases ha : advance t purpose folder names with
  | reached l' => simp
  | blocked cause => simp
  | link g target rest => cases budget <;> simp [and_assoc]

theorem locate_eq_ok {p : Path} : t.locate purpose p = .ok l ↔
    Name.size p.toText ≤ maxPathBytes ∧ walk t purpose maxLinks (t.start p) p.parts = .ok l := by
  unfold locate
  split
  · next hsize => exact iff_of_false nofun fun h => absurd h.1 (Nat.not_le.mpr hsize)
  · next hsize => exact (and_iff_right (Nat.le_of_not_lt hsize)).symm

/-- **What every part without links keeps, a walk keeps.** -/
theorem walk_keeps {motive : Location → List Text → Prop} {Q : Location → Prop}
    (reached : ∀ folder names {l}, motive folder names →
      advance t purpose folder names = .reached l → Q l)
    (link : ∀ folder names {g target rest}, motive folder names →
      advance t purpose folder names = .link g target rest →
        motive (if (Path.ofText target).isAbsolute then [] else g) (Path.steps target ++ rest))
    (hw : walk t purpose budget folder names = .ok l) (h : motive folder names) : Q l := by
  fun_induction walk t purpose budget folder names with
  | case1 budget folder names l' ha =>
    cases hw
    exact reached folder names h ha
  | case2 | case3 => cases hw
  | case4 folder names g target rest ha budget start ih => exact ih hw (link folder names h ha)

/-- The second part without links ends like the first one, unless that is blocked. Where the first one
ends at a location, something may be asked of that. -/
def Arrival.Agrees (P : Location → Prop) : Arrival → Arrival → Prop
  | .reached l, a => P l → a = .reached l
  | .link g target rest, a => a = .link g target rest
  | .blocked _, _ => True

/-- **Walks agree if their parts without links do.** -/
theorem walk_of_agrees {P : Location → Prop} (ha : ∀ folder names,
      (advance t purpose folder names).Agrees P (advance t' purpose' folder names))
    (hw : walk t purpose budget folder names = .ok l) (hl : P l) :
    walk t' purpose' budget folder names = .ok l := by
  fun_induction walk t purpose budget folder names with
  | case1 budget folder names l' he =>
    cases hw
    have hagree := ha folder names
    rw [he] at hagree
    exact walk_eq_ok.mpr (.inl (hagree hl))
  | case2 | case3 => cases hw
  | case4 folder names g target rest he budget start ih =>
    have hagree := ha folder names
    rw [he] at hagree
    exact walk_eq_ok.mpr (.inr ⟨g, target, rest, budget, hagree, rfl, ih hw⟩)

end

/-! ## Walking on -/

section
variable {t : Tree}

/-- Names can be put behind a walk unless they are none or ask for a directory only. -/
def GoesOn (more : List Text) : Prop := more ≠ [] ∧ more ≠ [[]]

theorem goesOn_cons {name : Text} (h : name ≠ []) (rest : List Text) : GoesOn (name :: rest) :=
  ⟨List.cons_ne_nil name rest, fun he => h (List.cons.inj he).1⟩

theorem GoesOn.append_ne_nil {more : List Text} (h : GoesOn more) (rest : List Text) :
    rest ++ more ≠ [] := by
  simp [h.1]

theorem GoesOn.append_ne_demand {more : List Text} (h : GoesOn more) (rest : List Text) :
    rest ++ more ≠ [[]] := by
  intro he
  rcases List.append_eq_singleton_iff.mp he with ⟨-, hm⟩ | ⟨-, hm⟩
  · exact h.2 hm
  · exact h.1 hm

/-- Names behind a walk are walked from the directory that it reached, or go behind the link that it
met. -/
theorem advance_append {more : List Text} (hm : GoesOn more) (purpose : Purpose)
    (names : List Text) (folder : Location) :
    match advance t .target folder names with
    | .reached l => t.get? l = some .folder →
      advance t purpose folder (names ++ more) = advance t purpose l more
    | .link g target left => advance t purpose folder (names ++ more) = .link g target (left ++ more)
    | .blocked _ => True := by
  fun_induction advance t .target folder names
  case case8 folder name rest hdot hup hdemand hsize l hfolder ih =>
    simpa [advance, hdot, hup, hsize, hm.append_ne_demand, l, hfolder] using ih
  case case12 folder name rest hdot hup hdemand hsize l target hlink hend =>
    simp [advance, hdot, hup, hsize, hm.append_ne_nil, hm.append_ne_demand, l, hlink]
  all_goals simp_all [advance]

/-- **A walk goes on from the directory that it has reached**, with the links that are left. -/
theorem walk_append {l : Location} (hl : t.get? l = some .folder) {budget : Nat}
    {folder : Location} {names : List Text} (h : walk t .target budget folder names = .ok l) :
    ∃ left ≤ budget, ∀ purpose more, GoesOn more →
      walk t purpose budget folder (names ++ more) = walk t purpose left l more := by
  fun_induction walk t .target budget folder names with
  | case1 budget folder names l' ha =>
    cases h
    refine ⟨budget, Nat.le_refl _, fun purpose more hm => ?_⟩
    have hg := advance_append (t := t) hm purpose names folder
    rw [ha] at hg
    unfold walk
    rw [hg hl]
  | case2 => cases h
  | case3 => cases h
  | case4 folder names g target rest ha budget start ih =>
    obtain ⟨n, hn, hw⟩ := ih h
    refine ⟨n, Nat.le_succ_of_le hn, fun purpose more hm => ?_⟩
    have hg := advance_append (t := t) hm purpose names folder
    rw [ha] at hg
    rw [← hw purpose more hm]
    conv => lhs; unfold walk
    simp only [hg, List.append_assoc, start]

end

/-! ## Purposes -/

section
variable {t : Tree} {purpose : Purpose}

theorem advance_target (purpose : Purpose) (folder : Location) (names : List Text) :
    (advance t purpose folder names).Agrees
      (fun l => purpose = .entry → ∀ target, t.get? l ≠ some (.link target))
      (advance t .target folder names) := by
  fun_induction advance t purpose folder names
  case case1 folder => exact fun _ => advance.eq_1 t .target folder
  case case2 folder name rest hdot ih => rwa [advance, if_pos hdot]
  case case3 folder rest hdot ih => rwa [advance, if_neg hdot, if_pos rfl]
  case case6 folder name hdot hup hsize l hnone hdemand =>
    simp [Arrival.Agrees, advance, hdot, hup, hsize, l, hnone]
  case case8 folder name rest hdot hup hdemand hsize l hfolder ih =>
    simpa [advance, hdot, hup, hsize, l, hfolder] using ih
  case case9 folder name hdot hup hsize l bytes hfile hdemand =>
    simp [Arrival.Agrees, advance, hdot, hup, hsize, l, hfile]
  case case11 hlink hend => exact fun hl => absurd hlink (hl hend.2 _)
  case case12 folder name rest hdot hup hdemand hsize l target hlink hend =>
    simp [Arrival.Agrees, advance, hdot, hup, hsize, l, hlink]
  all_goals trivial

/-- **What is reached for any purpose is where a question is answered**, unless it is an entry that is
a link. -/
theorem walk_target {budget : Nat} {folder l : Location} {names : List Text}
    (h : walk t purpose budget folder names = .ok l)
    (hl : purpose = .entry → ∀ target, t.get? l ≠ some (.link target)) :
    walk t .target budget folder names = .ok l :=
  walk_of_agrees (advance_target purpose) h hl

end

/-! ## Walks in trees that have grown -/

section
variable {t t' : Tree}

/-- Where nothing was, there is nothing, a file or a directory. -/
theorem Grows.no_link_of_none (hg : Grows t t') {k : Location} (h : t.get? k = none)
    (target : Text) : t'.get? k ≠ some (.link target) := by
  rw [Ne, ← hg.link, h]
  exact nofun

theorem advance_grows (hg : Grows t t') (purpose : Purpose) (folder : Location)
    (names : List Text) : (advance t purpose folder names).Agrees (fun _ => True)
      (advance t' purpose folder names) := by
  fun_induction advance t purpose folder names
  case case1 folder => exact fun _ => advance.eq_1 t' purpose folder
  case case2 folder name rest hdot ih => rwa [advance, if_pos hdot]
  case case3 folder rest hdot ih => rwa [advance, if_neg hdot, if_pos rfl]
  case case6 folder name hdot hup hsize l hnone hdemand =>
    cases hn : t'.get? (folder ++ [Name.plain name]) with
    | none => simp [Arrival.Agrees, advance, hdot, hup, hsize, l, hn]
    | some e =>
      cases e with
      | file bytes => simp [Arrival.Agrees, advance, hdot, hup, hsize, l, hn]
      | folder => simp [Arrival.Agrees, advance, hdot, hup, hsize, l, hn]
      | link target => exact absurd hn (hg.no_link_of_none hnone target)
  case case8 folder name rest hdot hup hdemand hsize l hfolder ih =>
    simpa [advance, hdot, hup, hdemand, hsize, l, hg.folder hfolder] using ih
  case case9 folder name hdot hup hsize l bytes hfile hdemand =>
    obtain ⟨bytes', hfile'⟩ := hg.file hfile
    simp [Arrival.Agrees, advance, hdot, hup, hsize, l, hfile']
  case case11 folder name rest hdot hup hdemand hsize l target hlink hend =>
    simp [Arrival.Agrees, advance, hdot, hup, hsize, l, hg.link.mp hlink, hend]
  case case12 folder name rest hdot hup hdemand hsize l target hlink hend =>
    simp [Arrival.Agrees, advance, hdot, hup, hdemand, hsize, l, hg.link.mp hlink, hend]
  all_goals trivial

/-- **What a walk reaches it still reaches after the tree has grown.** -/
theorem walk_grows (hg : Grows t t') {purpose : Purpose} {budget : Nat} {folder l : Location}
    {names : List Text} (h : walk t purpose budget folder names = .ok l) :
    walk t' purpose budget folder names = .ok l :=
  walk_of_agrees (advance_grows hg purpose) h trivial

end

end PackageAudit.Tree
