import PackageAudit.Check.Manifest
import PackageAudit.Proofs.Json.Document
import PackageAudit.Proofs.Package.Describe

/-! # Manifests that are rewritten

A manifest that was read can be written as a document, with members set anew, and is read back
(`manifestBytes_document`). What the checks look at stays as it is: the texts that are declared and
the build script.
-/

namespace PackageAudit

open Json (Members Readable PairFree again againMembers)

/-- The bytes of a manifest with these members. -/
def ManifestBytes (bytes : List UInt8) (ms : Members) : Prop :=
  ∃ text, Utf8.decode bytes = .ok text ∧ Json.read text.uniformLineEnds = .ok (.obj ms)

section
variable {t : Tree} {p : Path} {bytes : List UInt8} {ms : Members} {name : Text}

theorem readManifest_of_read (h : t.read p = .ok bytes) :
    readManifest t p = .ok ms ↔ ManifestBytes bytes ms := by
  rw [readManifest_eq_ok]
  constructor
  · rintro ⟨text, htext, hread⟩
    obtain ⟨bytes', found, hbytes, hfound, rfl⟩ := Tree.readText_eq_ok.mp htext
    cases h.symm.trans hbytes
    exact ⟨found, hfound, hread⟩
  · rintro ⟨found, hfound, hread⟩
    exact ⟨_, Tree.readText_eq_ok.mpr ⟨bytes, found, h, hfound, rfl⟩, hread⟩

theorem ManifestBytes.readable (h : ManifestBytes bytes ms) : Readable (.obj ms) := by
  obtain ⟨text, -, hread⟩ := h
  exact Json.readable_of_read hread

/-- **A readable manifest is read back from its document.** -/
theorem manifestBytes_document (h : Readable (.obj ms)) :
    ∃ bytes, Utf8.encode (Json.document (.obj ms)) = .ok bytes ∧
      ManifestBytes bytes (againMembers ms) := by
  have hprinted := Json.printed_document h
  refine ⟨_, hprinted.encode, Json.document (.obj ms), Utf8.decode_encode hprinted.encode, ?_⟩
  rw [hprinted.uniformLineEnds, Json.read_document h]
  rfl

/-! ## What the checks look at -/

/-- The manifest declares a name and a version. -/
def Complete (ms : Members) : Prop :=
  (Check.declared? ms "name").isSome = true ∧ (Check.declared? ms "version").isSome = true

/-- The manifest declares a build script. -/
def Builds (ms : Members) : Prop := (Check.buildScript? ms).isSome = true

theorem declared?_againMembers : Check.declared? (againMembers ms) name = Check.declared? ms name := by
  unfold Check.declared?
  rw [Json.text?_againMembers]

theorem complete_againMembers : Complete (againMembers ms) ↔ Complete ms := by
  unfold Complete
  rw [declared?_againMembers, declared?_againMembers]

theorem builds_againMembers : Builds (againMembers ms) ↔ Builds ms := by
  unfold Builds Check.buildScript?
  rw [Json.members?_againMembers]
  cases ms.members? "scripts" with
  | none => rfl
  | some scripts =>
    simp only [Option.map_some, Option.bind_some, declared?_againMembers]

theorem declared?_insert_self {value : Text} (h : value.isBlank = false) :
    Check.declared? (Members.insert ms name (.str value)) name = some value := by
  unfold Check.declared? Members.text?
  rw [Members.get?_insert_self]
  simp [h]

theorem declared?_insert_of_ne {other : Text} (h : other ≠ name) (v : Json) :
    Check.declared? (Members.insert ms name v) other = Check.declared? ms other := by
  unfold Check.declared? Members.text?
  rw [Members.get?_insert_of_ne h]

/-- Members other than the scripts say nothing about the build. -/
theorem Builds.insert (h : Builds ms) (hname : Text.ofString "scripts" ≠ name) (v : Json) :
    Builds (Members.insert ms name v) := by
  unfold Builds Check.buildScript? Members.members? at *
  rw [Members.get?_insert_of_ne hname]
  exact h

theorem builds_insert_scripts {scripts : Members} {script : Text} (h : script.isBlank = false) :
    Builds (Members.insert ms "scripts" (.obj (Members.insert scripts "build" (.str script)))) := by
  unfold Builds Check.buildScript? Members.members?
  rw [Members.get?_insert_self]
  simp only [Option.bind_some, declared?_insert_self h, Option.isSome_some]

/-- Neither the name nor the version is lost when another member is set. -/
theorem Complete.insert (h : Complete ms) (hname : Text.ofString "name" ≠ name)
    (hversion : Text.ofString "version" ≠ name) (v : Json) : Complete (Members.insert ms name v) := by
  unfold Complete
  rw [declared?_insert_of_ne hname, declared?_insert_of_ne hversion]
  exact h

theorem readable_members? (h : Readable (.obj ms)) :
    Readable (.obj ((ms.members? name).getD [])) := by
  unfold Members.members?
  cases hv : Members.get? ms name with
  | none => exact ⟨List.nodup_nil, trivial⟩
  | some v =>
    cases v with
    | obj inner => exact h.get? hv
    | _ => exact ⟨List.nodup_nil, trivial⟩

end

end PackageAudit
