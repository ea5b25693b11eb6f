import Mathlib.Order.Bounds.Basic
import PackageAudit.Check.Documents
import PackageAudit.Proofs.Package.Search
import PackageAudit.Proofs.Tree.Outline

/-! # What checks read

A check reads the files of a package as texts. What it gets to see is `Tree.textAt`: the text of the
file that a path leads to, or nothing, if there is no file or the bytes of the file are no text;
only a path that no file system call takes is a fault (`textOf_eq_ok`). When a file is written anew,
the paths that lead to it see its new text and all others see what they saw (`status_put_self`,
`textAt_put_of_ne`). The first line of some kind is told by its number (`isLeast_lineAt_iff`).
-/

namespace PackageAudit

/-- Where a file of a package is. -/
def Package.place (p : Package) (path : Text) : Path := p.root.join (.ofText path)

namespace Tree

/-- The text of the file that a path leads to, if it leads to a file that holds a text. -/
def textAt (t : Tree) (p : Path) : Option Text :=
  match t.status p with
  | .ok (_, .file bytes) => (Utf8.decode bytes).toOption.map Text.uniformLineEnds
  | _ => none

/-- The lines of that text; there are none if there is no text. -/
def linesAt (t : Tree) (p : Path) : List Text := ((t.textAt p).map Text.lines).getD []

section
variable {t : Tree} {p : Path} {l : Location} {old new : List UInt8} {text : Text}

theorem textAt_of_status (h : t.status p = .ok (l, .file new)) :
    t.textAt p = (Utf8.decode new).toOption.map Text.uniformLineEnds := by
  rw [textAt, h]

theorem textAt_of_read (h : t.read p = .ok new) :
    t.textAt p = (Utf8.decode new).toOption.map Text.uniformLineEnds := by
  obtain ⟨-, l, hst⟩ := read_eq_ok.mp h
  exact textAt_of_status hst

theorem textAt_eq_some : t.textAt p = some text ↔ ∃ l bytes found,
    t.status p = .ok (l, .file bytes) ∧ Utf8.decode bytes = .ok found ∧
      text = found.uniformLineEnds := by
  unfold textAt
  split
  · next k bytes hst =>
    cases hd : Utf8.decode bytes with
    | error e => simp [hst, hd, Except.toOption]
    | ok found => simp [hst, hd, Except.toOption, eq_comm]
  · next hnot =>
    constructor
    · intro h
      cases h
    · rintro ⟨l, bytes, -, hst, -⟩
      exact absurd hst (hnot l bytes)

theorem textAt_of_readText (h : t.readText p = .ok text) : t.textAt p = some text := by
  obtain ⟨bytes, found, hbytes, hfound, rfl⟩ := readText_eq_ok.mp h
  obtain ⟨-, l, hst⟩ := read_eq_ok.mp hbytes
  exact textAt_eq_some.mpr ⟨l, bytes, found, hst, hfound, rfl⟩

theorem mem_linesAt {line : Text} (h : t.status p = .ok (l, .file old)) : line ∈ t.linesAt p ↔
    ∃ found, Utf8.decode old = .ok found ∧ line ∈ found.uniformLineEnds.lines := by
  rw [linesAt, textAt_of_status h]
  cases hd : Utf8.decode old <;> simp [Except.toOption]

theorem linesAt_of_textAt (h : t.textAt p = some text) : t.linesAt p = text.lines := by
  rw [linesAt, h]
  rfl

/-! ## Faults -/

theorem isRefusal_of_vet {path : Text} {f : FileFault} (h : vet path = .error f) :
    f.isRefusal = false := by
  unfold vet at h
  split at h
  · cases h
    rfl
  · split at h
    · cases h
      rfl
    · cases h

theorem readTextIfAny_eq (t : Tree) (p : Path) :
    t.readTextIfAny p = (vet p.toText).map fun _ => t.textAt p := by
  unfold readTextIfAny readText read textAt
  cases hv : vet p.toText with
  | error f => simp [bind, Except.bind, Except.map, isRefusal_of_vet hv]
  | ok _ =>
    simp only [bind, Except.bind, Except.map]
    cases hst : t.status p with
    | error cause => rfl
    | ok x =>
      obtain ⟨l, e⟩ := x
      cases e with
      | file bytes => cases hd : Utf8.decode bytes <;> simp [pure, Except.pure, hd, Except.toOption]
      | folder => rfl
      | link target => rfl

/-! ## Writing a file anew -/

theorem status_put_self (h : t.status p = .ok (l, .file old)) (new : List UInt8) :
    (t.put l (.file new)).status p = .ok (l, .file new) := by
  obtain ⟨hl, hk⟩ := status_eq_ok.mp h
  refine status_eq_ok.mpr ⟨(sameOutline_put hk new).locate_eq .target p ▸ hl, ?_⟩
  exact get?_put_self (ne_nil_of_get? (by rw [hk]; exact nofun)) t _

theorem textAt_put_of_ne (hl : t.get? l = some (.file old)) (hp : t.locate .target p ≠ .ok l) :
    (t.put l (.file new)).textAt p = t.textAt p := by
  have hst : (t.put l (.file new)).status p = t.status p := by
    unfold status occupied
    rw [(sameOutline_put hl new).locate_eq]
    cases hk : t.locate .target p with
    | error cause => rfl
    | ok k =>
      have hkl : k ≠ l := fun h => hp (by rw [hk, h])
      simp only [get?_put_of_ne hkl]
  rw [textAt, hst, textAt]

theorem linesAt_put_of_ne (hl : t.get? l = some (.file old)) (hp : t.locate .target p ≠ .ok l) :
    (t.put l (.file new)).linesAt p = t.linesAt p := by
  rw [linesAt, linesAt, textAt_put_of_ne hl hp]

end

end Tree

namespace Check

theorem bind_pure_eq_ok {ε α β : Type} {x : Except ε α} {g : α → β} {b : β} :
    (x >>= fun a => pure (g a)) = .ok b ↔ ∃ a, x = .ok a ∧ b = g a := by
  cases x with
  | error e => simp [bind, Except.bind]
  | ok a => simp [bind, Except.bind, pure, Except.pure, eq_comm]

section
variable {t : Tree} {p : Package} {path : Text} {found : Option Text}

theorem textOf_eq (t : Tree) (p : Package) (path : Text) : textOf t p path =
    liftFile ((Tree.vet (p.place path).toText).map fun _ => t.textAt (p.place path)) := by
  rw [textOf, Tree.readTextIfAny_eq]
  rfl

/-- **What a check gets to see of a file** is its text; the path has to be one that can be asked
for. -/
theorem textOf_eq_ok : textOf t p path = .ok found ↔
    Tree.vet (p.place path).toText = .ok () ∧ found = t.textAt (p.place path) := by
  rw [textOf_eq]
  cases Tree.vet (p.place path).toText with
  | error f => simp [Except.map, liftFile]
  | ok _ => simp [Except.map, liftFile, eq_comm]

theorem textOf_bind_eq_ok {α : Type} {g : Option Text → Except Fault α} {out : α} :
    (textOf t p path >>= g) = .ok out ↔
      Tree.vet (p.place path).toText = .ok () ∧ g (t.textAt (p.place path)) = .ok out := by
  have hbind : (textOf t p path >>= g) = .ok out ↔
      ∃ found, textOf t p path = .ok found ∧ g found = .ok out := by
    cases textOf t p path <;> simp [bind, Except.bind]
  simp only [hbind, textOf_eq_ok, and_assoc, exists_and_left, exists_eq_left]

end

/-! ## Lines of a kind -/

/-- The line of this number, counted from one, has a property. -/
def LineAt (lines : List Text) (P : Text → Prop) (n : Nat) : Prop :=
  ∃ line, 0 < n ∧ lines[n - 1]? = some line ∧ P line

section
variable {lines : List Text} {P : Text → Prop} {q : Text → Bool} {n : Nat}

theorem lineAt_succ_iff (hq : ∀ line, q line = true ↔ P line) {i : Nat} :
    LineAt lines P (i + 1) ↔ ∃ h : i < lines.length, q lines[i] = true := by
  simp [LineAt, ← hq, List.getElem?_eq_some_iff]

/-- The first line with a property is the one that a search ends at. -/
theorem isLeast_lineAt_iff (hq : ∀ line, q line = true ↔ P line) :
    IsLeast {n | LineAt lines P n} n ↔ ∃ i, lines.findIdx? q = some i ∧ n = i + 1 := by
  constructor
  · rintro ⟨hn, hleast⟩
    obtain ⟨_, hpos, -⟩ := id hn
    obtain ⟨i, rfl⟩ := Nat.exists_eq_add_one.mpr hpos
    obtain ⟨hi, hline⟩ := (lineAt_succ_iff hq).mp hn
    refine ⟨i, List.findIdx?_eq_some_iff_getElem.mpr ⟨hi, hline, fun j hj => ?_⟩, rfl⟩
    intro hjline
    have hle := hleast ((lineAt_succ_iff hq).mpr ⟨hj.trans hi, hjline⟩)
    omega
  · rintro ⟨i, hfind, rfl⟩
    obtain ⟨hi, hline, hbefore⟩ := List.findIdx?_eq_some_iff_getElem.mp hfind
    refine ⟨(lineAt_succ_iff hq).mpr ⟨hi, hline⟩, fun n hn => ?_⟩
    obtain ⟨_, hpos, -⟩ := id hn
    obtain ⟨j, rfl⟩ := Nat.exists_eq_add_one.mpr hpos
    obtain ⟨hj, hjline⟩ := (lineAt_succ_iff hq).mp hn
    exact Nat.succ_le_succ (Nat.le_of_not_lt fun hlt => hbefore j hlt hjline)

theorem exists_lineAt_iff (hq : ∀ line, q line = true ↔ P line) :
    (∃ n, LineAt lines P n) ↔ ∃ line ∈ lines, q line = true := by
  constructor
  · rintro ⟨n, line, -, hline, hP⟩
    exact ⟨line, List.mem_of_getElem? hline, (hq line).mpr hP⟩
  · rintro ⟨line, hmem, hline⟩
    obtain ⟨i, hi, rfl⟩ := List.mem_iff_getElem.mp hmem
    exact ⟨i + 1, (lineAt_succ_iff hq).mpr ⟨hi, hline⟩⟩

end

end Check

end PackageAudit
