import PackageAudit.Proofs.Tree.Change

/-! # Paths without links

Where there are no links a path leads, if it leads anywhere, to what its names alone say
(`locate_lexical`), and each directory on the way to a directory is there (`folder_of_prefix`). So two
trees without links agree on where a path leads to which both have a directory.
-/

namespace PackageAudit.Tree

/-- Where names lead from a directory if there are no links. -/
def lexical (folder : Location) : List Text → Location
  | [] => folder
  | name :: rest =>
    if name = [] ∨ name = "." then lexical folder rest
    else if name = ".." then lexical folder.dropLast rest
    else lexical (folder ++ [Name.plain name]) rest

section
variable {t t' : Tree}

theorem advance_lexical (hl : NoLinks t) (purpose : Purpose) (folder : Location)
    (names : List Text) :
    match advance t purpose folder names with
    | .reached l => l = lexical folder names
    | .link _ _ _ => False
    | .blocked _ => True := by
  fun_induction advance t purpose folder names
  case case1 => rfl
  case case2 hdot ih => rwa [lexical, if_pos hdot]
  case case3 hdot ih =>
    rw [lexical, if_neg hdot, if_pos rfl]
    exact ih
  case case6 hdot hup _ l _ _ =>
    rw [lexical, if_neg hdot, if_neg hup]
    rfl
  case case8 hdot hup _ _ l _ ih => rwa [lexical, if_neg hdot, if_neg hup]
  case case9 hdot hup _ l _ _ _ =>
    rw [lexical, if_neg hdot, if_neg hup]
    rfl
  case case11 hlink _ => exact absurd hlink (hl _ _)
  case case12 hlink _ => exact absurd hlink (hl _ _)
  all_goals trivial

/-- Without links a path leads where its first part without links ends. -/
theorem advance_of_locate (hl : NoLinks t) {purpose : Purpose} {p : Path} {l : Location}
    (h : t.locate purpose p = .ok l) : advance t purpose (t.start p) p.parts = .reached l := by
  have hadvance := advance_lexical hl purpose (t.start p) p.parts
  rcases walk_eq_ok.mp (locate_eq_ok.mp h).2 with he | ⟨_, _, _, _, he, -⟩
  · exact he
  · rw [he] at hadvance
    exact hadvance.elim

/-- **Without links a path leads where its names say.** -/
theorem locate_lexical (hl : NoLinks t) {purpose : Purpose} {p : Path} {l : Location}
    (h : t.locate purpose p = .ok l) : l = lexical (t.start p) p.parts := by
  have hadvance := advance_lexical hl purpose (t.start p) p.parts
  rwa [advance_of_locate hl h] at hadvance

theorem folder_of_advance (hs : Sound t) (hl : NoLinks t) {purpose : Purpose} {folder l : Location}
    {names way : List Text} (hf : t.get? folder = some .folder)
    (h : advance t purpose folder names = .reached l) (hk : t.get? l = some .folder)
    (hway : way <+: names) : t.get? (lexical folder way) = some .folder := by
  fun_induction advance t purpose folder names generalizing way
  case case1 =>
    rw [List.prefix_nil.mp hway]
    exact hf
  case case2 hdot ih =>
    rcases List.prefix_cons_iff.mp hway with rfl | ⟨more, rfl, hmore⟩
    · exact hf
    · rw [lexical, if_pos hdot]
      exact ih hf h hmore
  case case3 hdot ih =>
    rcases List.prefix_cons_iff.mp hway with rfl | ⟨more, rfl, hmore⟩
    · exact hf
    · rw [lexical, if_neg hdot, if_pos rfl]
      exact ih (hs.dropLast hf) h hmore
  case case8 hdot hup _ _ l _ ih =>
    rcases List.prefix_cons_iff.mp hway with rfl | ⟨more, rfl, hmore⟩
    · exact hf
    · rw [lexical, if_neg hdot, if_neg hup]
      exact ih ‹_› h hmore
  case case6 hnone _ =>
    obtain rfl := Arrival.reached.inj h
    rw [hnone] at hk
    cases hk
  case case9 hfile _ =>
    obtain rfl := Arrival.reached.inj h
    rw [hfile] at hk
    cases hk
  case case11 hlink _ => exact absurd hlink (hl _ _)
  all_goals cases h

/-- The directories on the way to a directory. -/
theorem folder_of_prefix (hs : Sound t) (hl : NoLinks t) {p : Path} {l : Location}
    (h : t.status p = .ok (l, .folder)) {way : List Text} (hway : way <+: p.parts) :
    t.get? (lexical (t.start p) way) = some .folder := by
  obtain ⟨hloc, hk⟩ := status_eq_ok.mp h
  exact folder_of_advance hs hl (hs.start p) (advance_of_locate hl hloc) hk hway

/-- Two trees agree on where a path from the root leads. -/
theorem locate_agree (hl : NoLinks t) (hl' : NoLinks t') {p : Path} (ha : p.isAbsolute = true)
    {purpose purpose' : Purpose} {l l' : Location} (h : t.locate purpose p = .ok l)
    (h' : t'.locate purpose' p = .ok l') : l = l' := by
  have hstart : t.start p = t'.start p := by rw [start, start, if_pos ha, if_pos ha]
  rw [locate_lexical hl h, locate_lexical hl' h', hstart]

/-- **A directory that is made on the way to a path is there in every tree without links in which the
path leads to a directory.** -/
theorem Change.MakesAt.folder (hl : NoLinks t) (hs' : Sound t') (hl' : NoLinks t') {q : Path}
    (ha : q.isAbsolute = true) {k : Location} (h : (Change.made q).MakesAt t k) {l : Location}
    (hq : t'.status q = .ok (l, .folder)) : t'.get? k = some .folder := by
  obtain ⟨_, he, way, hway, hloc⟩ := h
  cases he
  have hk : k = lexical [] way := by
    have hat := locate_lexical hl hloc
    have hstart : t.start ⟨q.anchor, way⟩ = [] := if_pos ha
    rwa [hstart] at hat
  have hfolder := folder_of_prefix hs' hl' hq hway
  rwa [start, if_pos ha, ← hk] at hfolder

end

end PackageAudit.Tree
