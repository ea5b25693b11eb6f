import PackageAudit.Check.Documents
import PackageAudit.Proofs.Package.Listing
import PackageAudit.Proofs.Tree.TextFile

/-! # What a package is described as

`describeAt_eq_ok` says when a directory is described and as what (`Describe.package`), in terms of
its manifest and its listing. In a tree without links that is `Described`: a resolved root, a manifest
that was read and the records of the directory.
-/

namespace PackageAudit

open PackageAudit.Tree (Sound Named NoLinks)

section
variable {t : Tree} {s : Settings} {o : SearchOptions} {root : Path} {ms : Json.Members}

theorem readManifest_eq_ok {p : Path} : readManifest t p = .ok ms ↔
    ∃ text, t.readText p = .ok text ∧ Json.read text = .ok (.obj ms) := by
  unfold readManifest
  cases t.readText p with
  | error f => simp
  | ok text =>
    simp only [Except.ok.injEq, exists_eq_left']
    cases Json.read text with
    | error e => cases e <;> simp
    | ok v => cases v <;> simp

theorem loadManifest_eq_ok :
    loadManifest t s root = .ok ms ↔ readManifest t (manifestPath s root) = .ok ms := by
  unfold loadManifest
  simp only
  split
  · next h => simp [h]
  · next f h => split <;> simp [h]
  · next h => simp [h]
  · next h => simp [h]
  · next h => simp [h]
  · next h => simp [h]

/-- The package of a root, its manifest and its files. -/
def Describe.package (s : Settings) (root : Path) (ms : Json.Members) (files : List PackageFile) :
    Package :=
  let declared := (ms.text? "name").getD []
  let name := if declared.isEmpty then root.name else declared
  { id := name
    name := name
    path := root.toText
    kind := Describe.kind root.name ms files
    version := (ms.text? "version").getD "0.0.0"
    description := (ms.text? "description").getD []
    manifest := ms
    files := files
    layoutScore := Describe.layoutScore s ms files }

theorem describeAt_eq_ok {p : Package} : describeAt t s o root = .ok p ↔
    t.isFolder root = .ok true ∧ t.isFile (manifestPath s root) = .ok true ∧
      ∃ ms files, readManifest t (manifestPath s root) = .ok ms ∧
        listing t s o root = .ok files ∧ p = Describe.package s root ms files := by
  unfold describeAt
  cases t.isFolder root with
  | error f => simp [liftFile, bind, Except.bind]
  | ok folder =>
    cases folder with
    | false => simp [liftFile, bind, Except.bind, throw, throwThe, MonadExceptOf.throw]
    | true =>
      cases t.isFile (manifestPath s root) with
      | error f => simp [liftFile, bind, Except.bind]
      | ok file =>
        cases file with
        | false =>
          simp [liftFile, bind, Except.bind, throw, throwThe, MonadExceptOf.throw]
        | true =>
          simp only [← loadManifest_eq_ok]
          cases loadManifest t s root with
          | error f => simp [liftFile, bind, Except.bind]
          | ok ms =>
            cases listing t s o root with
            | error f => simp [liftFile, bind, Except.bind]
            | ok files =>
              constructor
              · intro h
                cases h
                exact ⟨trivial, trivial, ms, files, rfl, rfl, rfl⟩
              · rintro ⟨-, -, _, _, hms, hfiles, rfl⟩
                cases hms
                cases hfiles
                rfl

theorem describe_eq_ok {path : Text} {p : Package} : describe t s path o = .ok p ↔
    ∃ root, t.resolve (.ofText path) = .ok root ∧ describeAt t s o root = .ok p := by
  unfold describe
  cases t.resolve (.ofText path) with
  | error f => simp [liftFile, bind, Except.bind]
  | ok root => simp [liftFile, bind, Except.bind]

theorem describe_of_names {path : Text} {levels : Nat} {place : Location} {names : List Text}
    {files : List PackageFile} (hroot : t.resolve (.ofText path) = .ok root)
    (hfolder : t.isFolder root = .ok true) (hfile : t.isFile (manifestPath s root) = .ok true)
    (hms : readManifest t (manifestPath s root) = .ok ms) (hlevels : o.maxDepth.toNat = levels + 1)
    (hst : t.status (root.append []) = .ok (place, .folder)) (hnames : t.names place = names)
    (hwalk : (names.foldlM (Listing.visitEntry t s o root (some (Listing.visit t s o root levels)) []
      place) ⟨[], [root]⟩).map (·.listed.reverse) = .ok files) :
    describe t s path o = .ok (Describe.package s root ms files) :=
  have hfiles := listing_of_names hlevels hst hnames hwalk
  describe_eq_ok.mpr ⟨root, hroot, describeAt_eq_ok.mpr ⟨hfolder, hfile, ms, files, hms, hfiles, rfl⟩⟩

end

/-- A package of a tree without links, as it is described. -/
structure Described (t : Tree) (s : Settings) (o : SearchOptions) (path : Text) (root : Path)
    (base : Location) (ms : Json.Members) : Prop where
  resolved : t.resolve (.ofText path) = .ok root
  ground : t.Ground root base
  isFile : t.isFile (manifestPath s root) = .ok true
  manifest : readManifest t (manifestPath s root) = .ok ms
  fit : Listing.AllFit t s o base root o.maxDepth.toNat []

section
variable {t : Tree} {s : Settings} {o : SearchOptions} {path : Text} {root : Path}
  {base : Location} {ms : Json.Members}

/-- The package that is described. -/
def Described.package (_ : Described t s o path root base ms) : Package :=
  Describe.package s root ms (Listing.records t s o base o.maxDepth.toNat [])

/-- **Without links a package is described if and only if what it has is there.** -/
theorem describe_eq_described (hs : Sound t) (hn : Named t) (hl : NoLinks t) {p : Package} :
    describe t s path o = .ok p ↔
      ∃ root base ms, ∃ h : Described t s o path root base ms, p = h.package := by
  rw [describe_eq_ok]
  constructor
  · rintro ⟨root, hroot, hp⟩
    obtain ⟨hfolder, hfile, ms, files, hms, hfiles, rfl⟩ := describeAt_eq_ok.mp hp
    obtain ⟨-, base, hbase⟩ := Tree.isFolder_eq_true.mp hfolder
    have hg := Tree.ground_of_resolve hs hl hroot hbase
    obtain ⟨hfit, rfl⟩ := (listing_eq_ok hg hs hn (.inr hl)).mp hfiles
    exact ⟨root, base, ms, ⟨hroot, hg, hfile, hms, hfit⟩, rfl⟩
  · rintro ⟨root, base, ms, h, rfl⟩
    refine ⟨root, h.resolved, describeAt_eq_ok.mpr ⟨?_, h.isFile, ms, _, h.manifest, ?_, rfl⟩⟩
    · exact Tree.isFolder_eq_true.mpr ⟨h.ground.vetted, base, h.ground.folder⟩
    · exact (listing_eq_ok h.ground hs hn (.inr hl)).mpr ⟨h.fit, rfl⟩

/-! ## The files of a described package -/

theorem Described.root_package (h : Described t s o path root base ms) : h.package.root = root :=
  h.ground.ofText_toText

theorem Described.any_files_iff (h : Described t s o path root base ms) (hn : Named t)
    (way : Location) (name : Text) (hway : ∀ x ∈ way, Path.IsPart x) (hname : Path.IsPart name)
    (q : PackageFile → Bool) :
    (h.package.files.any fun f => f.path == Text.join "/" (way ++ [name]) && q f) = true ↔
      Listing.Reaches t s o base o.maxDepth.toNat [] way ∧
        ∃ f, Listing.record? t s o base way name = some f ∧ q f = true := by
  have hbase := (Tree.status_eq_ok.mp h.ground.folder).2
  simp only [List.any_eq_true, Bool.and_eq_true, beq_iff_eq, ← and_assoc, ← exists_and_left]
  exact exists_congr fun f => and_congr_left fun _ => Listing.exists_record hn hbase hway hname

theorem Described.hasFile_iff (h : Described t s o path root base ms) (hn : Named t)
    (way : Location) (name : Text) (hway : ∀ x ∈ way, Path.IsPart x) (hname : Path.IsPart name) :
    h.package.hasFile (Text.join "/" (way ++ [name])) = true ↔
      Listing.Reaches t s o base o.maxDepth.toNat [] way ∧ Listing.isListed s o name = true ∧
        ∃ bytes, t.get? (base ++ way ++ [name]) = some (.file bytes) := by
  refine (h.any_files_iff hn way name hway hname _).trans (and_congr_right fun _ => ?_)
  constructor
  · rintro ⟨f, hr, hfile⟩
    obtain ⟨hlisted, ⟨bytes, hk, -⟩ | ⟨-, -, rfl⟩⟩ := Listing.record?_eq_some.mp hr
    · exact ⟨hlisted, bytes, hk⟩
    · cases hfile
  · rintro ⟨hlisted, bytes, hk⟩
    exact ⟨_, Listing.record?_eq_some.mpr ⟨hlisted, .inl ⟨bytes, hk, rfl⟩⟩, rfl⟩

theorem Described.hasFolder_iff (h : Described t s o path root base ms) (hn : Named t)
    (way : Location) (name : Text) (hway : ∀ x ∈ way, Path.IsPart x) (hname : Path.IsPart name) :
    h.package.hasFolder (Text.join "/" (way ++ [name])) = true ↔
      Listing.Reaches t s o base o.maxDepth.toNat [] way ∧ Listing.isListed s o name = true ∧
        t.get? (base ++ way ++ [name]) = some .folder ∧ name ∉ Listing.ignoredFolders := by
  refine (h.any_files_iff hn way name hway hname _).trans (and_congr_right fun _ => ?_)
  constructor
  · rintro ⟨f, hr, hfolder⟩
    obtain ⟨hlisted, ⟨bytes, -, rfl⟩ | ⟨hk, hi, -⟩⟩ := Listing.record?_eq_some.mp hr
    · cases hfolder
    · exact ⟨hlisted, hk, hi⟩
  · rintro ⟨hlisted, hk, hi⟩
    exact ⟨_, Listing.record?_eq_some.mpr ⟨hlisted, .inr ⟨hk, hi, rfl⟩⟩, rfl⟩

theorem Described.textOf_eq (h : Described t s o path root base ms) (hn : Named t)
    {way : Location} {name : Text} (hway : ∀ x ∈ way, Path.IsPart x) (hname : Path.IsPart name)
    (hreach : Listing.Reaches t s o base o.maxDepth.toNat [] way)
    (hlisted : Listing.isListed s o name = true) {bytes : List UInt8}
    (hk : t.get? (base ++ way ++ [name]) = some (.file bytes)) :
    Check.textOf t h.package (Text.join "/" (way ++ [name])) =
      .ok ((Utf8.decode bytes).toOption.map Text.uniformLineEnds) := by
  have hparts : ∀ x ∈ way ++ [name], Path.IsPart x := by
    intro x hx
    rcases List.mem_append.mp hx with hx | hx
    · exact hway x hx
    · exact List.mem_singleton.mp hx ▸ hname
  have hread := Listing.read_of_record h.ground hn h.fit hreach hlisted hk
  have hp : h.package.root.join (.ofText (Text.join "/" (way ++ [name]))) =
      root.append (way ++ [name]) := by
    rw [h.root_package]
    exact Path.join_ofText_join root hparts
  unfold Check.textOf
  rw [hp, Tree.readTextIfAny_of_read hread]
  rfl

/-! ## Files at the top -/

theorem Described.hasFile_top (h : Described t s o path root base ms) (hn : Named t) (name : Text)
    (hname : Path.IsPart name) : h.package.hasFile name = true ↔
      Listing.isListed s o name = true ∧ ∃ bytes, t.get? (base ++ [name]) = some (.file bytes) := by
  have hiff := h.hasFile_iff hn [] name nofun hname
  simp only [List.nil_append, Text.join_singleton, List.append_nil] at hiff
  exact hiff.trans (and_iff_right .here)

theorem Described.hasFolder_top (h : Described t s o path root base ms) (hn : Named t)
    (name : Text) (hname : Path.IsPart name) : h.package.hasFolder name = true ↔
      Listing.isListed s o name = true ∧ t.get? (base ++ [name]) = some .folder ∧
        name ∉ Listing.ignoredFolders := by
  have hiff := h.hasFolder_iff hn [] name nofun hname
  simp only [List.nil_append, Text.join_singleton, List.append_nil] at hiff
  exact hiff.trans (and_iff_right .here)

theorem Described.textOf_top (h : Described t s o path root base ms) (hn : Named t) (name : Text)
    (hname : Path.IsPart name) (hlisted : Listing.isListed s o name = true) {bytes : List UInt8}
    (hk : t.get? (base ++ [name]) = some (.file bytes)) :
    Check.textOf t h.package name = .ok ((Utf8.decode bytes).toOption.map Text.uniformLineEnds) := by
  have hk' : t.get? (base ++ [] ++ [name]) = some (.file bytes) := by rwa [List.append_nil]
  have hway : ∀ x ∈ ([] : Location), Path.IsPart x := nofun
  have heq := h.textOf_eq hn hway hname .here hlisted hk'
  rwa [List.nil_append, Text.join_singleton] at heq

end

end PackageAudit
