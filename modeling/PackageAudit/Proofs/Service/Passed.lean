import PackageAudit.Proofs.Package.Readme
import PackageAudit.Proofs.Service.Provided

/-! # Checks that are passed

A check that asks for one file is passed if and only if the file is provided (`passes_iff_provided`).
The other two look in several places: the readme that counts has to be long enough
(`passes_readme_iff`), and the first test directory that is there has to hold a file. What their
remedies provide passes, too, the readme as long as no other one is there.
-/

namespace PackageAudit

open PackageAudit.Tree (Sound Named NoLinks Grows)

section
variable {t : Tree} {o : SearchOptions} {path : Text} {root : Path} {base : Location}
  {ms : Json.Members} (h : Described t .default o path root base ms)

include h in
theorem Described.stage (hs : Sound t) (hl : NoLinks t) : Stage t root base :=
  ⟨hs, hl, h.ground, h.isFile⟩

include h in
theorem Described.manifest_iff (hs : Sound t) (hl : NoLinks t) (P : Json.Members → Prop) :
    (∃ bytes, t.get? (base ++ [Settings.default.manifestName]) = some (.file bytes) ∧
      ∃ found, ManifestBytes bytes found ∧ P found) ↔ P ms := by
  obtain ⟨bytes, hread, hk⟩ := (h.stage hs hl).read_manifest
  constructor
  · rintro ⟨bytes', hk', found, hfound, hp⟩
    cases hk.symm.trans hk'
    cases h.manifest.symm.trans ((readManifest_of_read hread).mpr hfound)
    exact hp
  · exact fun hp => ⟨bytes, hk, ms, (readManifest_of_read hread).mp h.manifest, hp⟩

/-! ## Checks of one file -/

include h in
theorem Described.passes_typeConfig_iff (hn : Named t) :
    BuiltinCheck.typeConfig.Passes .default t h.package ↔ Provided .typeConfig t base := by
  have hlisted : Listing.isListed .default o Settings.default.typeConfigName = true :=
    Listing.isListed_of_not_hidden o (by decide)
  rw [BuiltinCheck.passes_typeConfig, h.hasFile_top hn _ (by decide)]
  constructor
  · rintro ⟨⟨-, bytes, hk⟩, text, htext, hblank, hoptions⟩
    have hread := (h.textOf_top hn _ (by decide) hlisted hk).symm.trans htext
    cases hd : Utf8.decode bytes with
    | error e =>
      rw [hd] at hread
      cases hread
    | ok found =>
      rw [hd] at hread
      cases hread
      exact ⟨bytes, hk, found, hd, hblank, hoptions⟩
  · rintro ⟨bytes, hk, found, hd, hblank, hoptions⟩
    refine ⟨⟨hlisted, bytes, hk⟩, found.uniformLineEnds, ?_, hblank, hoptions⟩
    rw [h.textOf_top hn _ (by decide) hlisted hk, hd]
    rfl

include h in
theorem Described.passes_ignoreFile_iff (hn : Named t) :
    BuiltinCheck.ignoreFile.Passes .default t h.package ↔ Provided .ignoreFile t base := by
  rw [BuiltinCheck.passes_ignoreFile, h.hasFile_top hn _ (by decide)]
  constructor
  · rintro ⟨-, bytes, hk⟩
    exact ⟨bytes, hk, trivial⟩
  · rintro ⟨bytes, hk, -⟩
    exact ⟨Listing.isListed_ignoreFile .default o, bytes, hk⟩

include h in
/-- **A check of one file is passed if and only if the file is provided.** -/
theorem Described.passes_iff_provided (hs : Sound t) (hn : Named t) (hl : NoLinks t)
    {r : BuiltinRemedy} (hreadme : r ≠ .readme) (htests : r ≠ .testDirectory) :
    r.check.Passes .default t h.package ↔ Provided r t base := by
  cases r with
  | manifest => exact BuiltinCheck.passes_manifestValid.trans (h.manifest_iff hs hl Complete).symm
  | buildScript => exact BuiltinCheck.passes_buildScript.trans (h.manifest_iff hs hl Builds).symm
  | typeConfig => exact h.passes_typeConfig_iff hn
  | ignoreFile => exact h.passes_ignoreFile_iff hn
  | readme => exact absurd rfl hreadme
  | testDirectory => exact absurd rfl htests

/-! ## The readme -/

include h in
/-- The readme that counts has to be long enough. -/
theorem Described.passes_readme_iff (hn : Named t) :
    BuiltinCheck.readmeExists.Passes .default t h.package ↔
      ∃ f bytes, Check.readme? .default h.package = some f ∧
        t.get? (base ++ [f.path]) = some (.file bytes) ∧ BuiltinRemedy.readme.Serves bytes := by
  rw [BuiltinCheck.passes_readmeExists]
  have htext : ∀ {f bytes}, Check.readme? .default h.package = some f →
      t.get? (base ++ [f.path]) = some (.file bytes) → Check.textOf t h.package f.path =
        .ok ((Utf8.decode bytes).toOption.map Text.uniformLineEnds) := by
    intro f bytes hf hk
    have hpart : Path.IsPart f.path :=
      (hn.of_get? (by rw [hk]; exact nofun) f.path (by simp)).1.1
    exact h.textOf_top hn _ hpart (h.of_readme? hn hf).1.listed hk
  constructor
  · rintro ⟨f, text, hf, hread, hlong⟩
    obtain ⟨bytes, hk⟩ := (h.of_readme? hn hf).1.file
    cases hread.symm.trans (htext hf hk)
    refine ⟨f, bytes, hf, hk, ?_⟩
    cases hd : Utf8.decode bytes with
    | error e =>
      rw [hd] at hlong
      have hshort : ¬ Settings.default.readmeMinLength ≤ (Text.trim []).length := by decide
      exact absurd hlong hshort
    | ok found =>
      rw [hd] at hlong
      exact ⟨found, hd, hlong⟩
  · rintro ⟨f, bytes, hf, hk, found, hd, hlong⟩
    refine ⟨f, _, hf, htext hf hk, ?_⟩
    rw [hd]
    exact hlong

include h in
theorem Described.passes_readme (hn : Named t) (hp : Provided .readme t base)
    (honly : ∀ name, IsReadme t .default o base name → name = Settings.default.readmeName) :
    BuiltinCheck.readmeExists.Passes .default t h.package := by
  obtain ⟨bytes, hk, hserves⟩ := hp
  obtain ⟨f, hf⟩ := Option.ne_none_iff_exists'.mp (h.readme?_ne_none hn hk)
  refine (h.passes_readme_iff hn).mpr ⟨f, bytes, hf, ?_, hserves⟩
  rw [honly f.path (h.of_readme? hn hf).1]
  exact hk

/-! ## The test directory -/

theorem BuiltinCheck.filesBelow_ne_zero {p : Package} {folder : Text} : filesBelow p folder ≠ 0 ↔
    ∃ f ∈ p.files, f.isFolder = false ∧ f.path.startsWith (folder ++ "/") = true := by
  unfold filesBelow Package.regularFiles
  rw [Nat.ne_zero_iff_zero_lt, List.countP_pos_iff]
  simp only [List.mem_filter, Bool.not_eq_true', and_assoc]

include h in
theorem Described.passes_testDirectory (hs : Sound t) (hn : Named t) (hdepth : 1 ≤ o.maxDepth)
    (hp : Provided .testDirectory t base) :
    BuiltinCheck.testDirectory.Passes .default t h.package := by
  obtain ⟨bytes, hk, -⟩ := hp
  have hfile : t.get? (base ++ [Text.ofString "tests"] ++ [Text.ofString "smoke.test.js"]) =
      some (.file bytes) := by
    rw [List.append_assoc]
    exact hk
  have hfolder := hs.parent (by rw [hfile]; exact nofun)
  have hlisted : Listing.isListed .default o "tests" = true :=
    Listing.isListed_of_not_hidden o (by decide)
  have hreach : Listing.Reaches t .default o base o.maxDepth.toNat [] [Text.ofString "tests"] := by
    obtain ⟨levels, hlevels⟩ : ∃ levels, o.maxDepth.toNat = levels + 1 :=
      ⟨o.maxDepth.toNat - 1, by omega⟩
    rw [hlevels]
    have henters : Listing.Enters t .default o base [] (Text.ofString "tests") :=
      ⟨hlisted, by rwa [List.append_nil], by decide⟩
    exact .into henters .here
  rw [BuiltinCheck.passes_testDirectory]
  refine ⟨"tests", ?_, BuiltinCheck.filesBelow_ne_zero.mpr ?_⟩
  · have hhas := (h.hasFolder_top hn "tests" (by decide)).mpr ⟨hlisted, hfolder, by decide⟩
    exact List.find?_cons_of_pos hhas
  · have hhas := (h.hasFile_iff hn [Text.ofString "tests"] "smoke.test.js" (by decide)
      (by decide)).mpr ⟨hreach, Listing.isListed_of_not_hidden o (by decide), bytes, hfile⟩
    obtain ⟨f, hf, hpath⟩ := List.any_eq_true.mp hhas
    rw [Bool.and_eq_true, beq_iff_eq, Bool.not_eq_true'] at hpath
    refine ⟨f, hf, hpath.2, ?_⟩
    rw [hpath.1]
    decide

end

end PackageAudit
