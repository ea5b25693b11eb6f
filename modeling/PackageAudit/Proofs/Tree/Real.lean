import PackageAudit.Proofs.Tree.Ground

/-! # The real path of a directory

The file system follows each link anew, and `Tree.resolve` remembers where links led. Where the file
system gets to a directory the two agree: what is answered is the path of the directory's location
(`resolve_of_status`). Both go the way that `Leads` tells name by name. The number of links on it says
that no link is met while it is being followed: what is left to do would have more links than the
target of which it is a part (`Knows`).

For a link whose path is too long to be asked for this fails, because that is not resolved at all.
-/

namespace PackageAudit

namespace Path

/-- Does a name lead anywhere? Empty names and single dots do not. -/
def counts (name : Text) : Bool := !name.isEmpty && name != CodePoint.ofChar '.' :: []

theorem counts_eq_true {name : Text} : counts name = true ↔ ¬ (name = [] ∨ name = ".") := by
  rw [counts, Bool.and_eq_true, bne_iff_ne, not_or, Bool.not_eq_true', List.isEmpty_eq_false_iff]
  rfl

theorem namesIn_eq (t : Text) : namesIn t = (t.split slash).filter counts := rfl

/-- A demand for a directory leads nowhere. -/
theorem filter_steps (t : Text) : (steps t).filter counts = namesIn t := by
  have hnames : (namesIn t).filter counts = namesIn t := by
    rw [namesIn_eq, List.filter_filter]
    simp only [Bool.and_self]
  unfold steps
  rw [List.filter_append, hnames]
  cases ending t <;> exact List.append_nil _

theorem isAbsolute_ofText {t : Text} : (ofText t).isAbsolute = true ↔ t.head? = some slash := by
  cases t with
  | nil => decide
  | cons c rest =>
    by_cases hc : c = slash
    · subst hc
      have hlength : ((slash :: rest).takeWhile (· == slash)).length ≠ 0 := by
        rw [List.takeWhile_cons_of_pos (by simp)]
        exact Nat.succ_ne_zero _
      have hanchor : (ofText (slash :: rest)).anchor ≠ .here := by
        rw [ofText, anchorOf, if_neg hlength]
        split <;> simp
      simpa [isAbsolute] using hanchor
    · have hnone : (c :: rest).takeWhile (· == slash) = [] :=
        List.takeWhile_cons_of_neg (by simpa using hc)
      have hhere : (ofText (c :: rest)).isAbsolute = false := by
        rw [isAbsolute, ofText, hnone]
        rfl
      simp [hhere, hc]

end Path

namespace Tree

/-- Links at paths that are short enough to be asked for, with targets as a file system gives them. -/
structure LinksFit (t : Tree) : Prop where
  size_le : ∀ {l target}, t.get? l = some (.link target) →
    Name.size (Path.ofLocation l).toText ≤ maxPathBytes
  plain : ∀ {l target}, t.get? l = some (.link target) →
    ∀ name ∈ Path.namesIn target, Name.plain name = name

/-- The directory from which the target of a link in a directory is followed. -/
def linkStart (folder : Location) (target : Text) : Location :=
  if (Path.ofText target).isAbsolute then [] else folder

/-- Names lead from a directory to another one, with so many links on the way, those in the targets of
links among them. -/
inductive Leads (t : Tree) : Location → List Text → Location → Nat → Prop
  | here {folder : Location} : Leads t folder [] folder 0
  | up {folder l : Location} {name : Text} {rest : List Text} {n : Nat} (hup : name = "..")
      (h : Leads t folder.dropLast rest l n) : Leads t folder (name :: rest) l n
  | down {folder l : Location} {name : Text} {rest : List Text} {n : Nat} (hup : name ≠ "..")
      (hk : t.get? (folder ++ [name]) = some .folder) (h : Leads t (folder ++ [name]) rest l n) :
      Leads t folder (name :: rest) l n
  | link {folder mid l : Location} {name target : Text} {rest : List Text} {m n : Nat}
      (hup : name ≠ "..") (hk : t.get? (folder ++ [name]) = some (.link target))
      (hto : Leads t (linkStart folder target) (Path.namesIn target) mid m)
      (h : Leads t mid rest l n) : Leads t folder (name :: rest) l (m + n + 1)

/-- The link at a location leads to a directory, with so many links on the way of its target. -/
def Follows (t : Tree) (g l : Location) (m : Nat) : Prop :=
  ∃ folder name target, g = folder ++ [name] ∧ t.get? g = some (.link target) ∧
    Leads t (linkStart folder target) (Path.namesIn target) l m

section
variable {t : Tree} {folder l g : Location} {names : List Text} {n m : Nat}

theorem get?_linkStart (hf : t.get? folder = some .folder) (target : Text) :
    t.get? (linkStart folder target) = some .folder := by
  unfold linkStart
  split
  · exact get?_root t
  · exact hf

/-! ## Where names lead -/

theorem Leads.get?_eq (hs : Sound t) (h : Leads t folder names l n)
    (hf : t.get? folder = some .folder) : t.get? l = some .folder := by
  induction h with
  | here => exact hf
  | up _ _ ih => exact ih (hs.dropLast hf)
  | down _ hk _ ih => exact ih hk
  | link _ _ _ _ ihto ih => exact ih (ihto (get?_linkStart hf _))

/-- Names lead to one directory, over one number of links. -/
theorem Leads.unique {l' : Location} {n' : Nat} (h : Leads t folder names l n)
    (h' : Leads t folder names l' n') : l = l' ∧ n = n' := by
  induction h generalizing l' n' with
  | here =>
    cases h'
    exact ⟨rfl, rfl⟩
  | up hup _ ih =>
    cases h' with
    | up _ h' => exact ih h'
    | down hnot => exact absurd hup hnot
    | link hnot => exact absurd hup hnot
  | down hup hk _ ih =>
    cases h' with
    | up hnot => exact absurd hnot hup
    | down _ _ h' => exact ih h'
    | link _ hk' => cases hk.symm.trans hk'
  | link hup hk _ _ ihto ih =>
    cases h' with
    | up hnot => exact absurd hnot hup
    | down _ hk' => cases hk.symm.trans hk'
    | link _ hk' hto' h' =>
      cases hk.symm.trans hk'
      obtain ⟨rfl, rfl⟩ := ihto hto'
      obtain ⟨rfl, rfl⟩ := ih h'
      exact ⟨rfl, rfl⟩

theorem Follows.unique {l' : Location} {m' : Nat} (h : Follows t g l m) (h' : Follows t g l' m') :
    l = l' ∧ m = m' := by
  obtain ⟨folder, name, target, rfl, hk, hto⟩ := h
  obtain ⟨folder', name', target', he, hk', hto'⟩ := h'
  obtain ⟨rfl, -⟩ := List.append_inj' he rfl
  cases hk.symm.trans hk'
  exact hto.unique hto'

/-! ## The way of the file system -/

/-- What a walk to a directory does at a name. -/
theorem walk_cons {budget : Nat} {name : Text} {rest : List Text}
    (h : walk t .target budget folder (name :: rest) = .ok l) (hl : t.get? l = some .folder) :
    Path.counts name = false ∧ walk t .target budget folder rest = .ok l ∨
      Path.counts name = true ∧ (name = ".." ∧ walk t .target budget folder.dropLast rest = .ok l ∨
        name ≠ ".." ∧ (t.get? (folder ++ [Name.plain name]) = some .folder ∧
            walk t .target budget (folder ++ [Name.plain name]) rest = .ok l ∨
          ∃ target left, t.get? (folder ++ [Name.plain name]) = some (.link target) ∧
            budget = left + 1 ∧
            walk t .target left (linkStart folder target) (Path.steps target ++ rest) = .ok l)) := by
  by_cases hdot : name = [] ∨ name = "."
  · refine .inl ⟨Bool.eq_false_iff.mpr fun hc => Path.counts_eq_true.mp hc hdot, ?_⟩
    unfold walk at h ⊢
    rwa [advance, if_pos hdot] at h
  refine .inr ⟨Path.counts_eq_true.mpr hdot, ?_⟩
  by_cases hup : name = ".."
  · refine .inl ⟨hup, ?_⟩
    unfold walk at h ⊢
    rwa [advance, if_neg hdot, if_pos hup] at h
  refine .inr ⟨hup, ?_⟩
  unfold walk at h
  rw [advance, if_neg hdot, if_neg hup, if_neg (by simp)] at h
  by_cases hsize : maxNameBytes < Name.size name
  · rw [if_pos hsize] at h
    cases h
  rw [if_neg hsize] at h
  cases hk : t.get? (folder ++ [Name.plain name]) with
  | none =>
    by_cases hr : rest = []
    · simp only [hk, hr, if_true, Except.ok.injEq] at h
      rw [h, hl] at hk
      cases hk
    · simp [hk, hr] at h
  | some e =>
    cases e with
    | folder =>
      refine .inl ⟨rfl, ?_⟩
      simp only [hk] at h
      unfold walk
      exact h
    | file bytes =>
      by_cases hr : rest = []
      · simp only [hk, hr, if_true, Except.ok.injEq] at h
        rw [h, hl] at hk
        cases hk
      · simp [hk, hr] at h
    | link target =>
      simp only [hk, reduceCtorEq, and_false, if_false] at h
      cases budget with
      | zero => cases h
      | succ left => exact .inr ⟨target, left, rfl, rfl, h⟩

/-- **The first part of a walk to a directory leads to one**, from where the rest goes on with the
links that are left. -/
theorem leads_of_walk (hs : Sound t) (hfit : LinksFit t) {budget : Nat} {names more : List Text}
    {folder l : Location} (hf : t.get? folder = some .folder)
    (hn : ∀ name ∈ names.filter Path.counts, Name.plain name = name)
    (h : walk t .target budget folder (names ++ more) = .ok l) (hl : t.get? l = some .folder) :
    ∃ mid n, n ≤ budget ∧ t.get? mid = some .folder ∧
      Leads t folder (names.filter Path.counts) mid n ∧
      walk t .target (budget - n) mid more = .ok l := by
  match names with
  | [] => exact ⟨folder, 0, Nat.zero_le _, hf, .here, h⟩
  | name :: rest =>
    rcases walk_cons h hl with ⟨hc, h⟩ | ⟨hc, hcase⟩
    · rw [List.filter_cons_of_neg (by simp [hc])] at hn ⊢
      exact leads_of_walk hs hfit hf hn h hl
    rw [List.filter_cons_of_pos hc] at hn ⊢
    obtain ⟨hname, hrest⟩ := List.forall_mem_cons.mp hn
    rw [hname] at hcase
    rcases hcase with ⟨hup, h⟩ | ⟨hup, ⟨hk, h⟩ | ⟨target, left, hk, hb, h⟩⟩
    · obtain ⟨mid, n, hle, hmid, hlead, hw⟩ := leads_of_walk hs hfit (hs.dropLast hf) hrest h hl
      exact ⟨mid, n, hle, hmid, .up hup hlead, hw⟩
    · obtain ⟨mid, n, hle, hmid, hlead, hw⟩ := leads_of_walk hs hfit hk hrest h hl
      exact ⟨mid, n, hle, hmid, .down hup hk hlead, hw⟩
    · have hplain : ∀ x ∈ (Path.steps target).filter Path.counts, Name.plain x = x := by
        rw [Path.filter_steps]
        exact hfit.plain hk
      obtain ⟨mid, m, hm, hmid, hto, hw⟩ :=
        leads_of_walk hs hfit (get?_linkStart hf target) hplain h hl
      obtain ⟨last, n, hn, hlast, hlead, hw⟩ := leads_of_walk hs hfit hmid hrest hw hl
      rw [Path.filter_steps] at hto
      exact ⟨last, m + n + 1, by omega, hlast, .link hup hk hto hlead,
        by rwa [show budget - (m + n + 1) = left - m - n by omega]⟩
termination_by (budget, names.length)
decreasing_by
  all_goals simp_wf
  all_goals omega

/-! ## The way that is remembered -/

/-- What was remembered of links is where they lead, and a link that is being followed has no fewer
links in its target than what is left to do. -/
structure Knows (t : Tree) (seen : Seen) (n : Nat) : Prop where
  found : ∀ spot found, seen.lookup spot = some (some found) →
    ∃ g l m, Follows t g l m ∧ spot = ⟨none, g⟩ ∧ found = ⟨none, l⟩
  busy : ∀ spot, seen.lookup spot = some none → ∃ g l m, Follows t g l m ∧ spot = ⟨none, g⟩ ∧ n ≤ m

theorem Knows.mono {seen : Seen} (h : Knows t seen n) (hm : m ≤ n) : Knows t seen m where
  found := h.found
  busy spot hspot := by
    obtain ⟨g, l, k, hg, he, hle⟩ := h.busy spot hspot
    exact ⟨g, l, k, hg, he, Nat.le_trans hm hle⟩

theorem Knows.start : Knows t [] n := ⟨nofun, nofun⟩

theorem lookup_cons_ne {seen : Seen} {spot other : Place} (hne : other ≠ spot)
    (found : Option Place) : List.lookup other ((spot, found) :: seen) = seen.lookup other := by
  rw [List.lookup_cons, beq_false_of_ne hne]

/-- A link is begun to be followed. -/
theorem Knows.enter {seen : Seen} (h : Knows t seen n) (hg : Follows t g l m) (hm : m ≤ n) :
    Knows t ((⟨none, g⟩, none) :: seen) m where
  found spot found hspot := by
    by_cases he : spot = ⟨none, g⟩
    · rw [he, List.lookup_cons_self] at hspot
      cases hspot
    · rw [lookup_cons_ne he] at hspot
      exact h.found spot found hspot
  busy spot hspot := by
    by_cases he : spot = ⟨none, g⟩
    · exact ⟨g, l, m, hg, he, Nat.le_refl m⟩
    · rw [lookup_cons_ne he] at hspot
      exact (h.mono hm).busy spot hspot

/-- A link was followed: what is remembered holds what was known before. -/
theorem Knows.leave {seen seen' : Seen} (h : Knows t seen n) (hg : Follows t g l m)
    (h' : Knows t seen' 0) (hbusy : ∀ spot, seen'.lookup spot = some none →
      List.lookup spot ((⟨none, g⟩, none) :: seen) = some none) :
    Knows t ((⟨none, g⟩, some ⟨none, l⟩) :: seen') n where
  found spot found hspot := by
    by_cases he : spot = ⟨none, g⟩
    · rw [he, List.lookup_cons_self] at hspot
      cases hspot
      exact ⟨g, l, m, hg, he, rfl⟩
    · rw [lookup_cons_ne he] at hspot
      exact h'.found spot found hspot
  busy spot hspot := by
    by_cases he : spot = ⟨none, g⟩
    · rw [he, List.lookup_cons_self] at hspot
      cases hspot
    · rw [lookup_cons_ne he] at hspot
      have hbefore := hbusy spot hspot
      rw [lookup_cons_ne he] at hbefore
      exact h.busy spot hbefore

/-! ## Settling -/

/-- Names that lead nowhere are passed over. -/
theorem settleNames_of_filter_nil {enter : Seen → Place → Text → Except FileFault Settled}
    {seen : Seen} {place : Place} {names : List Text} (h : names.filter Path.counts = []) :
    settleNames t enter seen place names = .ok (.done seen place) := by
  induction names with
  | nil => rfl
  | cons name rest ih =>
    have hc : ¬ Path.counts name = true := fun hc => by simp [hc] at h
    rw [List.filter_cons_of_neg hc] at h
    rw [settleNames, if_pos (Classical.not_not.mp (mt Path.counts_eq_true.mpr hc))]
    exact ih h

theorem settleNames_of_filter_cons {names clean : List Text} {name : Text}
    (h : names.filter Path.counts = name :: clean) : ∃ rest, rest.filter Path.counts = clean ∧
      ∀ enter seen place, settleNames t enter seen place names =
        settleNames t enter seen place (name :: rest) := by
  induction names with
  | nil => cases h
  | cons first names ih =>
    by_cases hc : Path.counts first = true
    · rw [List.filter_cons_of_pos hc] at h
      obtain ⟨rfl, rfl⟩ := List.cons.inj h
      exact ⟨names, rfl, fun _ _ _ => rfl⟩
    · rw [List.filter_cons_of_neg hc] at h
      obtain ⟨rest, hrest, heq⟩ := ih h
      refine ⟨rest, hrest, fun enter seen place => ?_⟩
      rw [settleNames, if_pos (Classical.not_not.mp (mt Path.counts_eq_true.mpr hc)), heq]

/-- A text is settled name by name, from the root or from the directory where it was met. -/
theorem settle_succ (t : Tree) (folder : Location) (target : Text) :
    ∃ names, names.filter Path.counts = Path.namesIn target ∧ ∀ depth seen,
      settle t (depth + 1) seen ⟨none, folder⟩ target =
        settleNames t (settle t depth) seen ⟨none, linkStart folder target⟩ names := by
  have hstep (depth : Nat) (seen : Seen) : settle t (depth + 1) seen ⟨none, folder⟩ target =
      if target.head? = some Path.slash then
        settleNames t (settle t depth) seen .root (Text.split Path.slash (target.drop 1))
      else settleNames t (settle t depth) seen ⟨none, folder⟩ (Text.split Path.slash target) := rfl
  by_cases ha : target.head? = some Path.slash
  · have hnames : Path.namesIn (target.drop 1) = Path.namesIn target := by
      cases target with
      | nil => rfl
      | cons c rest =>
        rw [Option.some.inj ha]
        exact (Path.namesIn_slash_cons rest).symm
    refine ⟨Text.split Path.slash (target.drop 1), hnames, fun depth seen => ?_⟩
    rw [hstep, if_pos ha, linkStart, if_pos (Path.isAbsolute_ofText.mpr ha)]
    rfl
  · refine ⟨Text.split Path.slash target, rfl, fun depth seen => ?_⟩
    rw [hstep, if_neg ha, linkStart, if_neg fun h => ha (Path.isAbsolute_ofText.mp h)]

theorem Place.above_names (folder : Location) :
    Place.above ⟨none, folder⟩ = ⟨none, folder.dropLast⟩ := by
  unfold Place.above
  split
  · next h =>
    obtain rfl : folder = [] := h
    rfl
  · rfl

theorem isEntryName_of_get? {e : Entry} (hn : Named t) (hk : t.get? l = some e) :
    ∀ name ∈ l, IsEntryName name :=
  hn.of_get? (Option.ne_none_iff_exists'.mpr ⟨e, hk⟩)

theorem vet_below {name : Text} {e : Entry} (hn : Named t) (hk : t.get? (folder ++ [name]) = some e) :
    vet (Place.toText ⟨none, folder ++ [name]⟩) = .ok () :=
  (vet_toText (p := .ofLocation (folder ++ [name])) rfl).mpr fun x hx =>
    (isEntryName_of_get? hn hk x hx).2.2

theorem location_below {name : Text} {e : Entry} (hn : Named t)
    (hk : t.get? (folder ++ [name]) = some e) :
    Place.location ⟨none, folder ++ [name]⟩ t.here = folder ++ [name] :=
  map_plain (isEntryName_of_get? hn hk)

theorem linkAt?_of_folder (hn : Named t) {name : Text}
    (hk : t.get? (folder ++ [name]) = some .folder) :
    t.linkAt? ⟨none, folder ++ [name]⟩ = none := by
  rw [linkAt?, location_below hn hk, hk]

theorem linkAt?_of_link (hn : Named t) (hfit : LinksFit t) {name target : Text}
    (hk : t.get? (folder ++ [name]) = some (.link target)) :
    t.linkAt? ⟨none, folder ++ [name]⟩ = some target := by
  have hsize : ¬ maxPathBytes < Name.size (Place.toText ⟨none, folder ++ [name]⟩) :=
    Nat.not_lt.mpr (hfit.size_le hk)
  rw [linkAt?, location_below hn hk, hk]
  exact if_neg hsize

section
variable {enter : Seen → Place → Text → Except FileFault Settled} {seen : Seen} {name target : Text}
  {rest : List Text} {found : Place}

theorem settleNames_of_folder (hn : Named t) (hc : Path.counts name = true) (hup : name ≠ "..")
    (hk : t.get? (folder ++ [name]) = some .folder) :
    settleNames t enter seen ⟨none, folder⟩ (name :: rest) =
      settleNames t enter seen ⟨none, folder ++ [name]⟩ rest := by
  rw [settleNames, if_neg (Path.counts_eq_true.mp hc), if_neg hup]
  simp only [Place.below, vet_below hn hk, linkAt?_of_folder hn hk]

/-- A link that was followed before. -/
theorem settleNames_of_known (hn : Named t) (hfit : LinksFit t) (hc : Path.counts name = true)
    (hup : name ≠ "..") (hk : t.get? (folder ++ [name]) = some (.link target))
    (hseen : seen.lookup ⟨none, folder ++ [name]⟩ = some (some found)) :
    settleNames t enter seen ⟨none, folder⟩ (name :: rest) =
      settleNames t enter seen found rest := by
  rw [settleNames, if_neg (Path.counts_eq_true.mp hc), if_neg hup]
  simp only [Place.below, vet_below hn hk, linkAt?_of_link hn hfit hk, hseen]

/-- A link that is met for the first time. -/
theorem settleNames_of_fresh {seen' : Seen} (hn : Named t) (hfit : LinksFit t)
    (hc : Path.counts name = true) (hup : name ≠ "..")
    (hk : t.get? (folder ++ [name]) = some (.link target))
    (hseen : seen.lookup ⟨none, folder ++ [name]⟩ = none)
    (he : enter ((⟨none, folder ++ [name]⟩, none) :: seen) ⟨none, folder⟩ target =
      .ok (.done seen' found)) :
    settleNames t enter seen ⟨none, folder⟩ (name :: rest) =
      settleNames t enter ((⟨none, folder ++ [name]⟩, some found) :: seen') found rest := by
  rw [settleNames, if_neg (Path.counts_eq_true.mp hc), if_neg hup]
  simp only [Place.below, vet_below hn hk, linkAt?_of_link hn hfit hk, hseen, he]

end

/-- **Settling names gets where they lead**, and remembers where links led. -/
theorem settleNames_of_leads (hs : Sound t) (hn : Named t) (hfit : LinksFit t) {clean : List Text}
    (h : Leads t folder clean l n) (hclean : ∀ name ∈ clean, Path.counts name = true)
    (hf : t.get? folder = some .folder) {names : List Text}
    (hnames : names.filter Path.counts = clean) {depth : Nat} (hdepth : n ≤ depth) {seen : Seen}
    (hknows : Knows t seen n) :
    ∃ seen', settleNames t (settle t depth) seen ⟨none, folder⟩ names = .ok (.done seen' ⟨none, l⟩) ∧
      Knows t seen' 0 ∧ ∀ spot, seen'.lookup spot = some none → seen.lookup spot = some none := by
  induction h generalizing names depth seen with
  | here => exact ⟨seen, settleNames_of_filter_nil hnames, hknows.mono (Nat.zero_le _), fun _ => id⟩
  | up hup _ ih =>
    obtain ⟨hname, hrest⟩ := List.forall_mem_cons.mp hclean
    obtain ⟨raw, hraw, heq⟩ := settleNames_of_filter_cons hnames
    rw [heq, settleNames, if_neg (Path.counts_eq_true.mp hname), if_pos hup, Place.above_names]
    exact ih hrest (hs.dropLast hf) hraw hdepth hknows
  | @down folder l name rest n hup hk _ ih =>
    obtain ⟨hname, hrest⟩ := List.forall_mem_cons.mp hclean
    obtain ⟨raw, hraw, heq⟩ := settleNames_of_filter_cons hnames
    rw [heq, settleNames_of_folder hn hname hup hk]
    exact ih hrest hk hraw hdepth hknows
  | @link folder mid l name target rest m n hup hk hto _ ihto ih =>
    obtain ⟨hname, hrest⟩ := List.forall_mem_cons.mp hclean
    obtain ⟨raw, hraw, heq⟩ := settleNames_of_filter_cons hnames
    have hfollows : Follows t (folder ++ [name]) mid m := ⟨folder, name, target, rfl, hk, hto⟩
    have hmid := hto.get?_eq hs (get?_linkStart hf target)
    obtain ⟨left, rfl⟩ : ∃ left, depth = left + 1 := ⟨depth - 1, by omega⟩
    cases hseen : seen.lookup ⟨none, folder ++ [name]⟩ with
    | some known =>
      cases known with
      | some found =>
        obtain ⟨g, l', k, hg, he, rfl⟩ := hknows.found _ _ hseen
        obtain rfl : folder ++ [name] = g := congrArg Place.names he
        obtain ⟨rfl, -⟩ := hfollows.unique hg
        rw [heq, settleNames_of_known hn hfit hname hup hk hseen]
        exact ih hrest hmid hraw (by omega) (hknows.mono (by omega))
      | none =>
        -- the link is being followed: its target would have fewer links than what is left to do
        obtain ⟨g, l', k, hg, he, hle⟩ := hknows.busy _ hseen
        obtain rfl : folder ++ [name] = g := congrArg Place.names he
        obtain ⟨-, rfl⟩ := hfollows.unique hg
        omega
    | none =>
      obtain ⟨inside, hinside, hsettle⟩ := settle_succ t folder target
      obtain ⟨seen₁, hdone, hknows₁, hbusy₁⟩ := ihto
        (fun x hx => (List.mem_filter.mp hx).2) (get?_linkStart hf target) hinside
        (by omega : m ≤ left) (hknows.enter hfollows (by omega))
      rw [← hsettle] at hdone
      have hleave := (hknows.leave hfollows hknows₁ hbusy₁).mono (by omega : n ≤ m + n + 1)
      obtain ⟨seen₂, hdone₂, hknows₂, hbusy₂⟩ := ih hrest hmid hraw (by omega : n ≤ left + 1) hleave
      rw [heq, settleNames_of_fresh hn hfit hname hup hk hseen hdone]
      refine ⟨seen₂, hdone₂, hknows₂, fun spot hspot => ?_⟩
      have hspot₁ := hbusy₂ spot hspot
      by_cases he : spot = ⟨none, folder ++ [name]⟩
      · rw [he, List.lookup_cons_self] at hspot₁
        cases hspot₁
      · rw [lookup_cons_ne he] at hspot₁
        have hspot₀ := hbusy₁ spot hspot₁
        rwa [lookup_cons_ne he] at hspot₀

/-! ## Directories -/

/-- **A path from the root at which the file system finds a directory is resolved to the path of the
directory's location.** -/
theorem resolve_of_status (hs : Sound t) (hn : Named t) (hfit : LinksFit t) {p : Path}
    (ha : p.anchor = .root) (hp : p.Proper) (hplain : ∀ name ∈ p.parts, Name.plain name = name)
    (h : t.status p = .ok (l, .folder)) : t.resolve p = .ok (.ofLocation l) := by
  have habs : p.isAbsolute = true := by simp [Path.isAbsolute, ha]
  obtain ⟨hloc, hk⟩ := status_eq_ok.mp h
  have hparts : p.parts.filter Path.counts = p.parts := Path.isPart_split_eq hp
  obtain ⟨n, hle, hlead⟩ : ∃ n ≤ maxLinks, Leads t [] p.parts l n := by
    obtain ⟨-, hw⟩ := locate_eq_ok.mp hloc
    rw [start, if_pos habs, ← List.append_nil p.parts] at hw
    obtain ⟨mid, n, hle, -, hlead, hw⟩ :=
      leads_of_walk hs hfit (get?_root t) (by rwa [hparts]) hw hk
    rw [walk, advance, Except.ok.injEq] at hw
    rw [hparts, hw] at hlead
    exact ⟨n, hle, hlead⟩
  have hsettle : ∃ seen, settle t maxNesting [] .here p.toText = .ok (.done seen ⟨none, l⟩) := by
    have hslash : p.toText.head? = some Path.slash := by
      rw [Path.toText_of_absolute habs, ha]
      rfl
    have hroot : settle t maxNesting [] .here p.toText = settle t (979 + 1) [] ⟨none, []⟩ p.toText := by
      unfold maxNesting settle
      rw [if_pos hslash, if_pos hslash]
    obtain ⟨names, hnames, hsettle⟩ := settle_succ t [] p.toText
    rw [Path.namesIn_toText hp habs] at hnames
    obtain ⟨seen, hdone, -⟩ := settleNames_of_leads hs hn hfit hlead
      (fun x hx => (List.filter_eq_self.mp hparts) x hx) (get?_root t) hnames
      (Nat.le_trans hle (by decide : maxLinks ≤ 979)) Knows.start
    rw [hroot, hsettle, linkStart, if_pos (Path.isAbsolute_ofText.mpr hslash)]
    exact ⟨seen, hdone⟩
  obtain ⟨seen, hsettle⟩ := hsettle
  have hnames := isEntryName_of_get? hn hk
  have hplain : l.map Name.plain = l := map_plain hnames
  have hv : vet (Path.ofLocation l).toText = .ok () :=
    (vet_toText (p := .ofLocation l) rfl).mpr fun x hx => (hnames x hx).2.2
  have hclear : ClearWay t [] l := hs.clearWay (by rw [hplain, hk])
  unfold resolve
  rw [hsettle]
  simp only [bind, Except.bind, Place.written, hv]
  split
  · next he =>
    exact absurd he (status_clear_ne (p := .ofLocation l) rfl (fun x hx => (hnames x hx).1) hclear)
  · rfl

end

end Tree

end PackageAudit
