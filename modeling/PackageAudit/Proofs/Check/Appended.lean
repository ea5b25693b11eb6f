import PackageAudit.Check.Builtin
import PackageAudit.Proofs.Check.MockData
import PackageAudit.Proofs.Check.Secrets
import PackageAudit.Proofs.Package.Alike
import PackageAudit.Proofs.Text.Breaks
import PackageAudit.Proofs.Text.Utf8

/-! # What is appended to a file

Two checks look for lines of some kind in files of some kind, and one of them also at the names of
the files (`LineScan`). Such a check fails if and only if there is a file that fails it
(`fails_iff`). What is appended behind a line feed leaves the lines of a file as they are, if it is
text; otherwise the file is no text any more, and it has no lines at all (`fails_append_iff`). It
makes no difference whether the package is described anew after that: its files are the same but for
their sizes and line counts (`alike_of_describe`).
-/

namespace PackageAudit

namespace BuiltinCheck

/-- The check is failed. -/
def Fails (c : BuiltinCheck) (s : Settings) (t : Tree) (p : Package) : Prop :=
  ∃ out, c.outcome s t p = .ok out ∧ out.status = .fail

instance (c : BuiltinCheck) (s : Settings) (t : Tree) (p : Package) : Decidable (c.Fails s t p) :=
  decidable_of_iff ((c.outcome s t p).toOption.map (·.status) = some .fail) (by
    unfold Fails
    cases c.outcome s t p <;> simp [Except.toOption])

end BuiltinCheck

namespace Check

/-- What a check looks for: which files it looks at, which of them it fails for their names, and
which lines it fails the others for. -/
structure LineScan where
  scans : PackageFile → Bool
  named : PackageFile → Bool
  onLine : Text → Bool

namespace LineScan

def secrets : LineScan :=
  ⟨isSecretScanned, fun _ => false, fun line => secretKinds.any (·.onLine line)⟩

def mockData : LineScan := ⟨isMockScanned, fun f => looksMocked f.name, looksMocked⟩

/-- What the checks look for that look for lines. -/
def of? : BuiltinCheck → Option LineScan
  | .securityConfig => some secrets
  | .noMockData => some mockData
  | _ => none

section
variable (scan : LineScan) (t : Tree) (p : Package) (f : PackageFile)

/-- The file has a line that is looked for. -/
def HasLine : Prop := ∃ line ∈ t.linesAt (p.place f.path), scan.onLine line = true

instance : Decidable (scan.HasLine t p f) :=
  inferInstanceAs (Decidable (∃ line ∈ t.linesAt (p.place f.path), scan.onLine line = true))

/-- A file fails the check by its name or by a line. -/
def FailsFor : Prop := scan.scans f = true ∧ (scan.named f = true ∨ scan.HasLine t p f)

/-- If the file has to be read, its path can be asked for. -/
def Asks : Prop :=
  scan.scans f = true → scan.named f = false → Tree.vet (p.place f.path).toText = .ok ()

end

end LineScan

section
variable {t : Tree} {p : Package} {s : Settings} {f : PackageFile}

theorem status_secretOutcome_eq_fail {found : List SecretFinding} :
    (secretOutcome found).status = .fail ↔ found ≠ [] := by
  cases found with
  | nil => exact iff_of_false nofun fun h => h rfl
  | cons first rest => exact iff_of_true rfl (List.cons_ne_nil _ _)

theorem status_mockOutcome_eq_fail {found : List MockFinding} :
    (mockOutcome found).status = .fail ↔ found ≠ [] := by
  cases found with
  | nil => exact iff_of_false nofun fun h => h rfl
  | cons first rest =>
    obtain ⟨file, line⟩ := first
    cases line <;> exact iff_of_true rfl (List.cons_ne_nil _ _)

/-! ## Which files fail a check -/

theorem mockFindingOf?_isSome : (mockFindingOf? t p f).isSome = true ↔
    LineScan.mockData.FailsFor t p f := by
  unfold mockFindingOf? LineScan.FailsFor LineScan.HasLine LineScan.mockData
  cases hscan : isMockScanned f <;> cases hname : looksMocked f.name <;> simp [hscan, hname]

theorem fails_noMockData : BuiltinCheck.noMockData.Fails s t p ↔
    (∀ f ∈ p.regularFiles, LineScan.mockData.Asks p f) ∧
      ∃ f ∈ p.regularFiles, LineScan.mockData.FailsFor t p f := by
  have hok {out : Outcome} : BuiltinCheck.noMockData.outcome s t p = .ok out ↔
      (∀ f ∈ p.regularFiles, LineScan.mockData.Asks p f) ∧
        out = mockOutcome (p.regularFiles.filterMap (mockFindingOf? t p)) := noMockData_eq_ok
  unfold BuiltinCheck.Fails
  simp only [hok, and_assoc, exists_and_left, exists_eq_left, status_mockOutcome_eq_fail,
    ← mockFindingOf?_isSome]
  refine and_congr_right fun _ => ?_
  rw [Ne, List.filterMap_eq_nil_iff]
  simp only [not_forall, exists_prop, Option.isSome_iff_ne_none, ne_eq]

theorem exists_secretFinding? : (∃ k ∈ secretKinds, (secretFinding? t p f.path k).isSome = true) ↔
    LineScan.secrets.HasLine t p f := by
  simp only [secretFinding?, Option.isSome_map, List.findIdx?_isSome, List.any_eq_true,
    LineScan.HasLine, LineScan.secrets]
  constructor
  · rintro ⟨k, hk, line, hline, hon⟩
    exact ⟨line, hline, k, hk, hon⟩
  · rintro ⟨line, hline, k, hk, hon⟩
    exact ⟨k, hk, line, hline, hon⟩

theorem fails_securityConfig : BuiltinCheck.securityConfig.Fails s t p ↔
    (∀ f ∈ p.regularFiles, LineScan.secrets.Asks p f) ∧
      ∃ f ∈ p.regularFiles, LineScan.secrets.FailsFor t p f := by
  unfold BuiltinCheck.Fails
  simp only [BuiltinCheck.outcome, noSecrets_eq_ok, and_assoc, exists_and_left, exists_eq_left,
    status_secretOutcome_eq_fail]
  have hasks : (∀ path ∈ scannedPaths p, Tree.vet (p.place path).toText = .ok ()) ↔
      ∀ f ∈ p.regularFiles, LineScan.secrets.Asks p f := by
    simp only [scannedPaths, List.forall_mem_map, List.mem_filter, and_imp]
    exact forall₂_congr fun f _ => imp_congr_right fun _ => ⟨fun h _ => h, fun h => h rfl⟩
  rw [hasks]
  refine and_congr_right fun _ => ?_
  rw [Ne, List.filterMap_eq_nil_iff]
  constructor
  · intro h
    simp only [not_forall, exists_prop] at h
    obtain ⟨⟨path, k⟩, hmem, hne⟩ := h
    obtain ⟨hpath, hk⟩ := List.mem_product.mp hmem
    obtain ⟨f, hf, rfl⟩ := List.mem_map.mp hpath
    obtain ⟨hregular, hscan⟩ := List.mem_filter.mp hf
    have hline := exists_secretFinding?.mp ⟨k, hk, Option.isSome_iff_ne_none.mpr hne⟩
    exact ⟨f, hregular, hscan, .inr hline⟩
  · rintro ⟨f, hf, hscan, hname | hline⟩ hnone
    · cases hname
    · obtain ⟨k, hk, hsome⟩ := exists_secretFinding?.mpr hline
      have hpath : f.path ∈ scannedPaths p := List.mem_map_of_mem (List.mem_filter.mpr ⟨hf, hscan⟩)
      rw [hnone (f.path, k) (List.mem_product.mpr ⟨hpath, hk⟩)] at hsome
      cases hsome

/-- **A check that looks for lines fails if and only if a file fails it.** -/
theorem fails_iff {c : BuiltinCheck} {scan : LineScan} (hc : LineScan.of? c = some scan) :
    c.Fails s t p ↔
      (∀ f ∈ p.regularFiles, scan.Asks p f) ∧ ∃ f ∈ p.regularFiles, scan.FailsFor t p f := by
  cases c <;> cases hc
  · exact fails_noMockData
  · exact fails_securityConfig

end

/-! ## Descriptions of the same files -/

section
variable {t : Tree} {p p' : Package} {s : Settings} {c : BuiltinCheck} {scan : LineScan}

theorem place_alike (h : p.Alike p') (path : Text) : p'.place path = p.place path := by
  rw [Package.place, Package.root, h.path]
  rfl

/-- **No numbers matter to a check that looks for lines.** -/
theorem fails_iff_of_alike (h : p.Alike p') (hc : LineScan.of? c = some scan) :
    c.Fails s t p' ↔ c.Fails s t p := by
  have huncounted (p : Package) (f : PackageFile) :
      (scan.Asks p f.uncounted ↔ scan.Asks p f) ∧
        (scan.FailsFor t p f.uncounted ↔ scan.FailsFor t p f) := by
    cases c <;> cases hc <;> exact ⟨Iff.rfl, Iff.rfl⟩
  have hplace (f : PackageFile) :
      (scan.Asks p' f ↔ scan.Asks p f) ∧ (scan.FailsFor t p' f ↔ scan.FailsFor t p f) := by
    unfold LineScan.Asks LineScan.FailsFor LineScan.HasLine
    rw [place_alike h]
    exact ⟨Iff.rfl, Iff.rfl⟩
  have hmap (p : Package) : c.Fails s t p ↔
      (∀ f ∈ p.regularFiles.map PackageFile.uncounted, scan.Asks p f) ∧
        ∃ f ∈ p.regularFiles.map PackageFile.uncounted, scan.FailsFor t p f := by
    rw [fails_iff hc]
    simp only [List.mem_map, exists_exists_and_eq_and, forall_exists_index, and_imp,
      forall_apply_eq_imp_iff₂, huncounted]
  rw [hmap, hmap, h.regularFiles]
  simp only [hplace]

end

/-! ## Writing behind a line feed -/

section
variable {t : Tree} {p p' : Package} {s : Settings} {f g : PackageFile} {c : BuiltinCheck}
  {scan : LineScan} {l : Location} {bytes ended extra : List UInt8} {found text : Text}

theorem decode_ended (hd : Utf8.decode bytes = .ok found)
    (hended : ended = bytes ∨ ended = bytes ++ [10]) (hlast : ended.getLast? = some 10) : ∃ front,
      Utf8.decode ended = .ok (front ++ [Text.feed]) ∧
        (found = front ∨ found = front ++ [Text.feed]) := by
  rcases hended with rfl | rfl
  · obtain ⟨front, rfl⟩ := Utf8.exists_lineFeed hd hlast
    exact ⟨front, hd, .inr rfl⟩
  · exact ⟨found, (Utf8.decode_append hd).mpr ⟨[Text.feed], by decide, rfl⟩, .inl rfl⟩

theorem decodes_of_hasLine (hst : t.status (p.place f.path) = .ok (l, .file bytes))
    (hline : scan.HasLine t p f) : ∃ found, Utf8.decode bytes = .ok found := by
  obtain ⟨line, hmem, -⟩ := hline
  obtain ⟨found, hd, -⟩ := (Tree.mem_linesAt hst).mp hmem
  exact ⟨found, hd⟩

/-- **The lines that were there stay**, if what is appended is text. -/
theorem hasLine_append (hst : t.status (p.place f.path) = .ok (l, .file bytes))
    (hended : ended = bytes ∨ ended = bytes ++ [10]) (hlast : ended.getLast? = some 10)
    (hline : scan.HasLine t p f) (hextra : Utf8.decode extra = .ok text) :
    scan.HasLine (t.put l (.file (ended ++ extra))) p f := by
  obtain ⟨line, hmem, hon⟩ := hline
  obtain ⟨found, hd, hmem⟩ := (Tree.mem_linesAt hst).mp hmem
  obtain ⟨front, hfront, hfound⟩ := decode_ended hd hended hlast
  refine ⟨line, (Tree.mem_linesAt (Tree.status_put_self hst _)).mpr
    ⟨_, (Utf8.decode_append hfront).mpr ⟨text, hextra, rfl⟩, ?_⟩, hon⟩
  rw [List.append_assoc]
  exact (Text.lines_prefix_written hfound text).mem hmem

/-- **A check that fails goes on to fail when something is written behind a line feed** at the end
of a file with a line that is looked for, if what is written is text. If it is not, the file is no
text any more, and the check fails if and only if it has another reason to. -/
theorem fails_append_iff (hc : LineScan.of? c = some scan) (hf : f ∈ p.regularFiles)
    (hscan : scan.scans f = true) (hline : scan.HasLine t p f)
    (hst : t.status (p.place f.path) = .ok (l, .file bytes))
    (hended : ended = bytes ∨ ended = bytes ++ [10]) (hlast : ended.getLast? = some 10)
    (hfails : c.Fails s t p) (hp : p.Alike p') (extra : List UInt8) :
    c.Fails s (t.put l (.file (ended ++ extra))) p' ↔ (∃ text, Utf8.decode extra = .ok text) ∨
      ∃ g ∈ p.regularFiles, scan.scans g = true ∧ (scan.named g = true ∨
        t.locate .target (p.place g.path) ≠ .ok l ∧ scan.HasLine t p g) := by
  have hl : t.get? l = some (.file bytes) := (Tree.status_eq_ok.mp hst).2
  obtain ⟨found, hd⟩ := decodes_of_hasLine hst hline
  obtain ⟨front, hfront, -⟩ := decode_ended hd hended hlast
  have hother {g : PackageFile} (hg : t.locate .target (p.place g.path) ≠ .ok l) :
      scan.HasLine (t.put l (.file (ended ++ extra))) p g ↔ scan.HasLine t p g := by
    rw [LineScan.HasLine, LineScan.HasLine, Tree.linesAt_put_of_ne hl hg]
  rw [fails_iff_of_alike hp hc, fails_iff hc, and_iff_right ((fails_iff hc).mp hfails).1]
  constructor
  · rintro ⟨g, hg, hgscan, hname | hgline⟩
    · exact .inr ⟨g, hg, hgscan, .inl hname⟩
    · by_cases hgl : t.locate .target (p.place g.path) = .ok l
      · have hgst := Tree.status_put_self (Tree.status_eq_ok.mpr ⟨hgl, hl⟩) (ended ++ extra)
        obtain ⟨whole, hwhole⟩ := decodes_of_hasLine hgst hgline
        obtain ⟨text, hextra, -⟩ := (Utf8.decode_append hfront).mp hwhole
        exact .inl ⟨text, hextra⟩
      · exact .inr ⟨g, hg, hgscan, .inr ⟨hgl, (hother hgl).mp hgline⟩⟩
  · rintro (⟨text, hextra⟩ | ⟨g, hg, hgscan, hname | ⟨hgl, hgline⟩⟩)
    · exact ⟨f, hf, hscan, .inr (hasLine_append hst hended hlast hline hextra)⟩
    · exact ⟨g, hg, hgscan, .inl hname⟩
    · exact ⟨g, hg, hgscan, .inr ((hother hgl).mpr hgline)⟩

end

/-- The tree of a password with something written behind it. -/
def environmentBehind (extra : List UInt8) : Tree :=
  (environmentTree "hunter2hunter2").put ["m", ".env"]
    (.file ((environment "hunter2hunter2").flatMap Utf8.encodePoint ++ extra))

/-- The record of its file. -/
def environmentFile : PackageFile := ⟨".env", false, 0, none, false⟩

/-- A remark behind a password leaves the password where it is. -/
theorem fails_append_remark : BuiltinCheck.securityConfig.Fails .default
    (environmentBehind (("# rotated" : Text).flatMap Utf8.encodePoint)) environmentPackage :=
  (fails_append_iff (f := environmentFile) rfl (by decide) (by decide) (by decide +kernel)
    (by decide +kernel) (.inl rfl) (by decide +kernel) (by decide +kernel) (.refl _) _).mpr
    (.inl ⟨"# rotated", by decide +kernel⟩)

/-- A byte that is in no text hides the password in front of it. -/
theorem not_fails_append_byte : environmentFile ∈ environmentPackage.regularFiles ∧
    LineScan.secrets.scans environmentFile = true ∧
    LineScan.secrets.HasLine (environmentTree "hunter2hunter2") environmentPackage environmentFile ∧
    (environmentTree "hunter2hunter2").status (environmentPackage.place environmentFile.path) =
      .ok (["m", ".env"], .file ((environment "hunter2hunter2").flatMap Utf8.encodePoint)) ∧
    ((environment "hunter2hunter2").flatMap Utf8.encodePoint).getLast? = some 10 ∧
    BuiltinCheck.securityConfig.Fails .default (environmentTree "hunter2hunter2") environmentPackage ∧
    ¬ BuiltinCheck.securityConfig.Fails .default (environmentBehind [255]) environmentPackage := by
  decide +kernel

end Check

end PackageAudit
