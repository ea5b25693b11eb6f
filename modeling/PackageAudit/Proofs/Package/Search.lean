import PackageAudit.Proofs.Package.Candidates
import PackageAudit.Proofs.Package.Describe

/-! # What a search does in a directory

A search asks about the names in a directory and then goes into the directories among them that hold
no manifest. `holdsManifest_eq` and `holdsManifest_child` say what the file system tells it, which
is an answer unless a path or a name is too long, and `look_eq` what it makes of a name.
`answers_visit`: what comes of a directory are its `packages`, and the search fails only for a
candidate that does not fit.
-/

namespace PackageAudit

open PackageAudit.Tree (Sound Named NoLinks IsEntryName)

namespace Search

/-! ## Questions in a row -/

section
variable {ε α β : Type} {f : α → Except ε β} {xs : List α}

theorem of_mapM_eq_ok (g : α → β) (good : α → Prop) {ys : List β}
    (hf : ∀ x ∈ xs, ∀ y, f x = .ok y → good x ∧ y = g x) (h : xs.mapM f = .ok ys) :
    (∀ x ∈ xs, good x) ∧ ys = xs.map g := by
  induction xs generalizing ys with
  | nil =>
    cases h
    exact ⟨nofun, rfl⟩
  | cons x xs ih =>
    rw [List.mapM_cons] at h
    cases hx : f x with
    | error e => rw [hx] at h; cases h
    | ok y =>
      cases hxs : xs.mapM f with
      | error e => rw [hx, hxs] at h; cases h
      | ok ys' =>
        rw [hx, hxs] at h
        cases h
        obtain ⟨hgood, rfl⟩ := hf x List.mem_cons_self y hx
        obtain ⟨hall, rfl⟩ := ih (fun z hz => hf z (List.mem_cons_of_mem x hz)) hxs
        exact ⟨List.forall_mem_cons.mpr ⟨hgood, hall⟩, rfl⟩

theorem of_mapM_eq_error {e : ε} (h : xs.mapM f = .error e) : ∃ x ∈ xs, f x = .error e := by
  induction xs with
  | nil => cases h
  | cons x xs ih =>
    rw [List.mapM_cons] at h
    cases hx : f x with
    | error e' =>
      rw [hx] at h
      cases h
      exact ⟨x, List.mem_cons_self, hx⟩
    | ok y =>
      cases hxs : xs.mapM f with
      | error e' =>
        rw [hx, hxs] at h
        cases h
        obtain ⟨z, hz, he⟩ := ih hxs
        exact ⟨z, List.mem_cons_of_mem x hz, he⟩
      | ok ys => rw [hx, hxs] at h; cases h

theorem mapM_eq_ok (g : α → β) (good : α → Prop) {ys : List β}
    (hf : ∀ x ∈ xs, ∀ y, f x = .ok y ↔ good x ∧ y = g x) :
    xs.mapM f = .ok ys ↔ (∀ x ∈ xs, good x) ∧ ys = xs.map g := by
  have hall {ys : List β} (h : xs.mapM f = .ok ys) : (∀ x ∈ xs, good x) ∧ ys = xs.map g :=
    of_mapM_eq_ok g good (fun x hx y => (hf x hx y).mp) h
  refine ⟨hall, ?_⟩
  rintro ⟨hgood, rfl⟩
  cases h : xs.mapM f with
  | error e =>
    obtain ⟨x, hx, he⟩ := of_mapM_eq_error h
    rw [(hf x hx _).mpr ⟨hgood x hx, rfl⟩] at he
    cases he
  | ok ys => rw [(hall h).2]

end

/-! ## Asking for a manifest -/

section
variable {t : Tree} {s : Settings} {o : SearchOptions} {p : Path} {l way : Location}
  {name : Text} {depth : Nat}

/-- What the file system says about the path of a manifest that is too long. -/
def tooLong (s : Settings) (p : Path) (way : Location) : FileFault :=
  .refused .nameTooLong (p.append (way ++ [s.manifestName])).toText

theorem tooLong_cons : tooLong s p (name :: way) = tooLong s (p.append [name]) way := by
  rw [tooLong, tooLong, Path.append_append]
  rfl

theorem manifestPath_eq (hm : Path.IsPart s.manifestName) (p : Path) :
    manifestPath s p = p.append [s.manifestName] := by
  have h := Path.join_ofText_join p (List.forall_mem_singleton.mpr hm)
  rwa [Text.join_singleton] at h

/-- What a search is told about the manifest of a directory. -/
def told (t : Tree) (s : Settings) (p : Path) (l way : Location) : Except FileFault Bool :=
  if Fits s p way then .ok (decide (Holds t s (l ++ way))) else .error (tooLong s p way)

theorem told_cons (hname : Name.size name ≤ Tree.maxNameBytes) :
    told t s p l (name :: way) = told t s (p.append [name]) (l ++ [name]) way := by
  unfold told
  rw [tooLong_cons, List.append_cons]
  exact if_congr (fits_cons.trans (and_iff_right hname)) rfl rfl

theorem holdsManifest_of_long (hg : t.Ground p l) (hm : IsEntryName s.manifestName)
    (hway : ∀ x ∈ way, Tree.vet x = .ok ())
    (hst : t.status (p.append (way ++ [s.manifestName])) = .error .nameTooLong) :
    holdsManifest t s (p.append way) = .error (tooLong s p way) := by
  have hvet := hg.vet_append (List.forall_mem_append.mpr
    ⟨hway, List.forall_mem_singleton.mpr hm.2.2⟩)
  unfold holdsManifest Tree.isFile Tree.ask
  rw [manifestPath_eq hm.1.1, Path.append_append, hvet, hst]
  rfl

theorem holdsManifest_eq (hg : t.Ground p l) (hl : NoLinks t) (hm : IsEntryName s.manifestName) :
    holdsManifest t s p = told t s p l [] := by
  have hst := hg.status_append hl hm
  unfold told
  by_cases hf : Fits s p []
  · have hsmall : ¬ (Tree.maxPathBytes < Name.size (p.append [s.manifestName]).toText ∨
        Tree.maxNameBytes < Name.size s.manifestName) :=
      not_or.mpr ⟨Nat.not_lt.mpr hf.path, Nat.not_lt.mpr (hf.names _ (List.mem_singleton_self _))⟩
    rw [if_neg hsmall, Tree.occupied] at hst
    have hvet := hg.vet_append (List.forall_mem_singleton.mpr hm.2.2)
    have hholds : decide (Holds t s l) = (t.get? (l ++ [s.manifestName])).any Tree.isFileEntry :=
      Bool.eq_iff_iff.mpr (decide_eq_true_iff.trans (holds_iff t s l))
    unfold holdsManifest Tree.isFile Tree.ask
    rw [manifestPath_eq hm.1.1, hvet, hst, if_pos hf, List.append_nil, hholds]
    cases t.get? (l ++ [s.manifestName]) with
    | none => rfl
    | some e => rfl
  · have hlong : Tree.maxPathBytes < Name.size (p.append [s.manifestName]).toText ∨
        Tree.maxNameBytes < Name.size s.manifestName := by
      refine Classical.byContradiction fun hc => hf ?_
      rw [not_or, Nat.not_lt, Nat.not_lt] at hc
      exact ⟨hc.1, List.forall_mem_singleton.mpr hc.2⟩
    rw [if_pos hlong] at hst
    have hask : holdsManifest t s (p.append []) = .error (tooLong s p []) :=
      holdsManifest_of_long hg hm (fun _ hx => absurd hx List.not_mem_nil) hst
    rw [if_neg hf, ← hask, Path.append_nil]

theorem holdsManifest_child (hg : t.Ground p l) (hn : Named t) (hl : NoLinks t)
    (hm : IsEntryName s.manifestName) (hk : t.get? (l ++ [name]) = some .folder) :
    holdsManifest t s (p.append [name]) = told t s p l [name] := by
  have hname : IsEntryName name := hn.of_get? (by rw [hk]; exact nofun) name (by simp)
  have hvet : ∀ x ∈ [name], Tree.vet x = .ok () := List.forall_mem_singleton.mpr hname.2.2
  have hsize := Tree.size_toText_append (p.append [name]) [s.manifestName] hg.isAbsolute
  rw [Path.append_append] at hsize
  by_cases hlong : Tree.maxNameBytes < Name.size name
  · have hst := Tree.status_of_long hg.folder hname.1 hlong [s.manifestName]
    rw [holdsManifest_of_long hg hm hvet hst, told, if_neg]
    exact fun hf => Nat.not_le.mpr hlong (fits_cons.mp hf).1
  by_cases hpath : Name.size (p.append [name]).toText ≤ Tree.maxPathBytes
  · have hg' := hg.append hl hname hk hpath (Nat.not_lt.mp hlong)
    rw [holdsManifest_eq hg' hl hm, told_cons (Nat.not_lt.mp hlong)]
  · have hst : t.status (p.append ([name] ++ [s.manifestName])) = .error .nameTooLong := by
      unfold Tree.status Tree.locate
      rw [if_pos (Nat.lt_of_lt_of_le (Nat.not_le.mp hpath) hsize)]
    rw [holdsManifest_of_long hg hm hvet hst, told, if_neg]
    exact fun hf => hpath (Nat.le_trans hsize hf.path)

/-! ## The search of a directory -/

/-- What a name in a directory is to a search that does not fail there. -/
def sight (t : Tree) (s : Settings) (o : SearchOptions) (p : Path) (l : Location) (name : Text) :
    Sight :=
  if Looks t o l name then
    if Holds t s (l ++ [name]) then .package (p.append [name]) else .container (p.append [name])
  else .nothing

theorem look_eq (hg : t.Ground p l) (hn : Named t) (hl : NoLinks t)
    (hm : IsEntryName s.manifestName) : look t s o p l name =
      if Looks t o l name ∧ ¬ Fits s p [name] then .error (tooLong s p [name])
      else .ok (sight t s o p l name) := by
  have hfolder : isFolder t (l ++ [name]) (p.append [name]) =
      decide (t.get? (l ++ [name]) = some .folder) := by
    unfold isFolder
    cases hk : t.get? (l ++ [name]) with
    | none => simp
    | some e =>
      cases e with
      | link target => exact absurd hk (hl _ _)
      | file bytes => simp
      | folder => simp
  unfold look sight
  simp only [hfolder]
  by_cases hlooks : Looks t o l name
  · obtain ⟨hk, hsearched⟩ := hlooks
    rw [holdsManifest_child hg hn hl hm hk, told]
    by_cases hf : Fits s p [name]
    · by_cases hh : Holds t s (l ++ [name]) <;> simp [Looks, hk, hsearched, hf, hh]
    · simp [Looks, hk, hsearched, hf]
  · have hskip : (!decide (t.get? (l ++ [name]) = some .folder) || !isSearched o name) = true := by
      rw [← Bool.not_and, Bool.not_eq_true', ← Bool.not_eq_true, Bool.and_eq_true, decide_eq_true_iff]
      exact hlooks
    rw [if_pos hskip, if_neg fun h : Looks t o l name ∧ _ => hlooks h.1, if_neg hlooks]

/-- What a search has to answer about a directory: the packages if every path that it asks for fits,
else what the file system says of one that does not. -/
def Answers (t : Tree) (s : Settings) (o : SearchOptions) (depth : Nat) (p : Path) (l : Location) :
    Except FileFault (List Path) → Prop
  | .ok found => (∀ way, Candidate t s o depth l way → Fits s p way) ∧
    found = packages t s o depth p l
  | .error f => ∃ way, Candidate t s o depth l way ∧ ¬ Fits s p way ∧ f = tooLong s p way

/-- What a search has to answer about one name of a directory. -/
def AnswersAt (t : Tree) (s : Settings) (o : SearchOptions) (depth : Nat) (p : Path) (l : Location)
    (name : Text) : Except FileFault (List Path) → Prop
  | .ok found => (∀ way, Candidate t s o (depth + 1) l (name :: way) → Fits s p (name :: way)) ∧
    found = packagesAt t s o (packages t s o depth) p l name
  | .error f => ∃ way, Candidate t s o (depth + 1) l (name :: way) ∧ ¬ Fits s p (name :: way) ∧
    f = tooLong s p (name :: way)

/-- What comes of one name, if what comes of the directories below it is right. -/
theorem answersAt_packagesOf (hg : t.Ground p l) (hs : Sound t) (hn : Named t) (hl : NoLinks t)
    {d : Descent} (hd : ∀ {p l}, t.Ground p l →
      Answers t s o depth p l (packagesOf d (.container p)))
    (hfits : Looks t o l name → Fits s p [name]) :
    AnswersAt t s o depth p l name (packagesOf d (sight t s o p l name)) := by
  unfold sight
  split
  · next hlooks =>
    have hf := hfits hlooks
    obtain ⟨hname, hrest⟩ := fits_cons.mp hf
    split
    · next hh =>
      refine ⟨fun way hc => ?_, by simp [packagesAt, hlooks, hh]⟩
      obtain ⟨-, rfl | ⟨hno, -⟩⟩ := (candidate_cons hs).mp hc
      · exact hf
      · exact absurd hh hno
    · next hno =>
      have hentry : IsEntryName name :=
        hn.of_get? (by rw [hlooks.1]; exact nofun) name (by simp)
      have hpath := Nat.le_trans
        (Tree.size_toText_append (p.append [name]) [s.manifestName] hg.isAbsolute) hrest.path
      have hbelow := hd (hg.append hl hentry hlooks.1 hpath hname)
      cases hr : packagesOf d (.container (p.append [name])) with
      | ok found =>
        rw [hr] at hbelow
        obtain ⟨hall, rfl⟩ := hbelow
        refine ⟨fun way hc => ?_, by simp [packagesAt, hlooks, hno]⟩
        obtain ⟨-, rfl | ⟨-, hc⟩⟩ := (candidate_cons hs).mp hc
        · exact hf
        · exact fits_cons.mpr ⟨hname, hall way hc⟩
      | error f =>
        rw [hr] at hbelow
        obtain ⟨way, hc, hnot, rfl⟩ := hbelow
        exact ⟨way, (candidate_cons hs).mpr ⟨hlooks, .inr ⟨hno, hc⟩⟩,
          fun hf => hnot (fits_cons.mp hf).2, tooLong_cons.symm⟩
  · next hlooks =>
    exact ⟨fun way hc => absurd ((candidate_cons hs).mp hc).1 hlooks, by simp [packagesAt, hlooks]⟩

theorem answers_visitFolder (hg : t.Ground p l) (hs : Sound t) (hn : Named t) (hl : NoLinks t)
    (hm : IsEntryName s.manifestName) {d : Descent} (hd : ∀ {p l}, t.Ground p l →
      Answers t s o depth p l (packagesOf d (.container p))) :
    Answers t s o (depth + 1) p l (visitFolder t s o d p) := by
  unfold visitFolder
  rw [hg.folder]
  simp only
  cases hsights : (t.names l).mapM (look t s o p l) with
  | error f =>
    obtain ⟨name, -, he⟩ := of_mapM_eq_error hsights
    rw [look_eq hg hn hl hm] at he
    split at he
    · next hlooks =>
      cases he
      exact ⟨[name], candidate_singleton hlooks.1, hlooks.2, rfl⟩
    · cases he
  | ok sights =>
    obtain ⟨hfits, rfl⟩ := of_mapM_eq_ok (sight t s o p l)
      (fun name => Looks t o l name → Fits s p [name]) (fun name _ y hy => by
        rw [look_eq hg hn hl hm] at hy
        split at hy
        · cases hy
        · next hno =>
          cases hy
          exact ⟨fun hlooks => Classical.not_not.mp fun hf => hno ⟨hlooks, hf⟩, rfl⟩) hsights
    have hat : ∀ name ∈ t.names l, AnswersAt t s o depth p l name
        (packagesOf d (sight t s o p l name)) := fun name hname =>
      answersAt_packagesOf hg hs hn hl hd (hfits name hname)
    show Answers t s o (depth + 1) p l (do
      let found ← ((t.names l).map (sight t s o p l)).mapM (packagesOf d)
      return found.flatten)
    rw [List.mapM_map]
    cases hfound : (t.names l).mapM (packagesOf d ∘ sight t s o p l) with
    | error f =>
      obtain ⟨name, hname, he⟩ := of_mapM_eq_error hfound
      have hname := hat name hname
      rw [show packagesOf d (sight t s o p l name) = _ from he] at hname
      obtain ⟨way, hc, hnot, rfl⟩ := hname
      exact ⟨name :: way, hc, hnot, rfl⟩
    | ok found =>
      obtain ⟨hall, rfl⟩ := of_mapM_eq_ok (packagesAt t s o (packages t s o depth) p l)
        (fun name => ∀ way, Candidate t s o (depth + 1) l (name :: way) →
          Fits s p (name :: way)) (fun name hname y hy => by
            have h := hat name hname
            rw [show packagesOf d (sight t s o p l name) = _ from hy] at h
            exact h) hfound
      refine ⟨fun way hc => ?_, List.flatMap_def.symm⟩
      obtain ⟨name, way, rfl⟩ := List.exists_cons_of_ne_nil hc.below
      exact hall name ((candidate_cons hs).mp hc).1.mem_names way hc

/-- **A search answers about a directory what it has to**, by induction on the levels. -/
theorem answers_visit (hs : Sound t) (hn : Named t) (hl : NoLinks t)
    (hm : IsEntryName s.manifestName) : ∀ {levels : Nat} {p : Path} {l : Location}, t.Ground p l →
      Answers t s o (levels + 1) p l (visit t s o levels p)
  | 0, _, _, hg =>
    answers_visitFolder hg hs hn hl hm fun _ => ⟨fun _ hc => absurd hc not_candidate_zero, rfl⟩
  | _ + 1, _, _, hg =>
    answers_visitFolder hg hs hn hl hm fun {_ _} hg' => answers_visit hs hn hl hm hg'

end

end Search

end PackageAudit
