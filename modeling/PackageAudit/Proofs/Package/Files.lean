import PackageAudit.Proofs.Package.Describe
import PackageAudit.Proofs.Package.Walk

/-! # Which files a package has

Without followed links the list of a package's files is exact (`ListsExactly`): what is in it is told
by the names and kinds of what leads to an entry, and how far down that is (`Belongs`), and where it
stands in it by depth-first order. `lists_exactly_of_listing` joins the two: the entries come of the
`records`, their order of the walk. `describe_lists_exactly` is that of the package that a path stands
for, and says when it is described at all.
-/

namespace PackageAudit

open PackageAudit.Tree (Sound Named ClearWay)

namespace Listing

/-- Names that are listed: those that do not begin with a dot, all of them on request, and those of
the ignore file, of environment values and of the settings of linters. -/
def Shown (s : Settings) (o : SearchOptions) (name : Text) : Prop :=
  name.head? ≠ some (CodePoint.ofChar '.') ∨ o.includeHidden = true ∨ name = s.ignoreFileName ∨
    name = ".env" ∨ Text.ofString ".env." <+: name ∨ Text.ofString ".eslintrc" <+: name ∨
      Text.ofString ".prettierrc" <+: name

section
variable (t : Tree) (s : Settings) (o : SearchOptions) (base : Location)

/-- An entry below a directory belongs to the package there. -/
structure Belongs (way : Location) : Prop where
  below : way ≠ []
  depth : (way.length : Int) ≤ max o.maxDepth 0 + 1
  noLink : ∀ part, part <+: way → ∀ target, t.get? (base ++ part) ≠ some (.link target)
  shown : ∀ name ∈ way, Shown s o name
  /-- What leads to it are directories. -/
  folders : ∀ front last, front ++ [last] <+: way → front ++ [last] ≠ way →
    t.get? (base ++ (front ++ [last])) = some .folder ∧ last ∉ ignoredFolders
  kind : (∃ bytes, t.get? (base ++ way) = some (.file bytes)) ∨
    t.get? (base ++ way) = some .folder ∧ ∀ front last, way = front ++ [last] → last ∉ ignoredFolders

/-- The list of a package's files is what it should be. -/
structure ListsExactly (files : List PackageFile) : Prop where
  mem_iff : ∀ way, (∃ f ∈ files, f.way = way) ↔ Belongs t s o base way
  path_eq : ∀ f ∈ files, f.path = Text.join "/" f.way
  once : (files.map (·.way)).Nodup
  kind : ∀ f ∈ files, f.isFolder = true ↔ t.get? (base ++ f.way) = some .folder
  siblings : files.Pairwise fun f g => ∀ folder a b, f.way = folder ++ [a] → g.way = folder ++ [b] →
    Text.before a b = true
  /-- Right behind a directory come the entries below it, and no others. -/
  block : ∀ front f back, files = front ++ f :: back → f.isFolder = true →
    ∃ inside outside, back = inside ++ outside ∧
      ∀ way, (∃ g ∈ inside, g.way = way) ↔ Belongs t s o base way ∧ f.way <+: way ∧ way ≠ f.way

end

section
variable {t : Tree} {s : Settings} {o : SearchOptions} {root : Path} {base folder way : Location}
  {name : Text} {files : List PackageFile} {levels : Nat}

theorem isListed_iff : isListed s o name = true ↔ Shown s o name := by
  simp only [isListed, isHidden, isWellKnown, isEnvironmentFile, Text.startsWith, Shown,
    Bool.or_eq_true, Bool.not_eq_true', beq_eq_false_iff_ne, beq_iff_eq, List.isPrefixOf_iff_prefix,
    or_assoc]

/-! ## What is listed -/

theorem reaches_iff : ∀ {more : Location} {levels : Nat} {folder : Location},
    Reaches t s o base levels folder (folder ++ more) ↔ more.length ≤ levels ∧
      ∀ front last, front ++ [last] <+: more → Enters t s o base (folder ++ front) last
  | [], levels, folder => by
    rw [List.append_nil]
    refine ⟨fun _ => ⟨Nat.zero_le levels, fun front last h => ?_⟩, fun _ => .here⟩
    simp at h
  | name :: more, levels, folder => by
    have hmore : folder ++ name :: more = folder ++ [name] ++ more := by simp
    constructor
    · rw [hmore]
      generalize hway : folder ++ [name] ++ more = way
      rintro (_ | @⟨levels, _, _, name', hin, hr⟩)
      · simp at hway
      · obtain ⟨rest, rfl⟩ := hr.prefix_of
        simp only [List.append_assoc, List.append_cancel_left_eq, List.singleton_append,
          List.cons.injEq] at hway
        obtain ⟨rfl, rfl⟩ := hway
        obtain ⟨hlen, h⟩ := reaches_iff.mp hr
        refine ⟨Nat.succ_le_succ hlen, fun front last hp => ?_⟩
        cases front with
        | nil =>
          obtain ⟨rfl, -⟩ := List.cons_prefix_cons.mp hp
          rwa [List.append_nil]
        | cons first front =>
          obtain ⟨rfl, hfront⟩ := List.cons_prefix_cons.mp hp
          rw [← List.singleton_append, ← List.append_assoc]
          exact h front last hfront
    · rintro ⟨hlen, h⟩
      cases levels with
      | zero => cases hlen
      | succ levels =>
        have hin : Enters t s o base folder name := by simpa using h [] name (by simp)
        rw [hmore]
        refine .into hin (reaches_iff.mpr ⟨Nat.le_of_succ_le_succ hlen, fun front last hp => ?_⟩)
        rw [List.append_assoc]
        exact h (name :: front) last (List.prefix_cons_inj name |>.mpr hp)

theorem belongs_iff (hbase : t.get? base = some .folder) : Belongs t s o base (way ++ [name]) ↔
    Reaches t s o base o.maxDepth.toNat [] way ∧ ∃ f, record? t s o base way name = some f := by
  have hreach : Reaches t s o base o.maxDepth.toNat [] way ↔ way.length ≤ o.maxDepth.toNat ∧
      ∀ front last, front ++ [last] <+: way → Enters t s o base front last := reaches_iff
  rw [hreach]
  constructor
  · intro h
    have hlen : way.length ≤ o.maxDepth.toNat := by
      have := h.depth
      rw [List.length_append, List.length_singleton] at this
      omega
    refine ⟨⟨hlen, fun front last hp => ?_⟩, ?_⟩
    · have hp' := hp.trans (List.prefix_append way [name])
      obtain ⟨hfolder, hnot⟩ := h.folders front last hp' fun he => by
        have := hp.length_le
        rw [he, List.length_append, List.length_singleton] at this
        omega
      refine ⟨isListed_iff.mpr (h.shown last (hp'.subset (by simp))), ?_, hnot⟩
      rwa [List.append_assoc]
    · have hlisted := isListed_iff.mpr (h.shown name (by simp))
      rcases h.kind with ⟨bytes, hk⟩ | ⟨hk, hnot⟩
      · exact ⟨_, record?_eq_some.mpr ⟨hlisted, .inl ⟨bytes, by rwa [List.append_assoc], rfl⟩⟩⟩
      · exact ⟨_, record?_eq_some.mpr ⟨hlisted, .inr ⟨by rwa [List.append_assoc], hnot way name rfl, rfl⟩⟩⟩
  · rintro ⟨⟨hlen, hway⟩, f, hf⟩
    obtain ⟨hlisted, hkind⟩ := record?_eq_some.mp hf
    simp only [List.append_assoc] at hkind hway
    have hfolders (front : Location) (last : Text) (hp : front ++ [last] <+: way ++ [name])
        (hne : front ++ [last] ≠ way ++ [name]) : Enters t s o base front last :=
      hway front last ((List.prefix_concat_iff.mp hp).resolve_left hne)
    refine ⟨by simp, ?_, fun part hp target => ?_, fun x hx => ?_, fun front last hp hne => ?_, ?_⟩
    · rw [List.length_append, List.length_singleton]
      omega
    · rcases List.prefix_concat_iff.mp hp with rfl | hp
      · rcases hkind with ⟨bytes, hk, -⟩ | ⟨hk, -, -⟩ <;> rw [hk] <;> exact nofun
      · rcases List.eq_nil_or_concat part with rfl | ⟨front, last, rfl⟩
        · rw [List.append_nil, hbase]
          exact nofun
        · rw [List.concat_eq_append] at hp ⊢
          rw [← List.append_assoc, (hway front last hp).2.1]
          exact nofun
    · rcases List.mem_append.mp hx with hx | hx
      · obtain ⟨front, back, rfl⟩ := List.append_of_mem hx
        exact isListed_iff.mp (hway front x (by simp)).1
      · exact List.mem_singleton.mp hx ▸ isListed_iff.mp hlisted
    · obtain ⟨-, hfolder, hnot⟩ := hfolders front last hp hne
      exact ⟨by rwa [← List.append_assoc], hnot⟩
    · refine hkind.imp (fun ⟨bytes, hk, _⟩ => ⟨bytes, hk⟩) fun ⟨hk, hnot, _⟩ => ⟨hk, ?_⟩
      intro front last he
      obtain ⟨-, he⟩ := List.append_inj' he rfl
      exact List.head_eq_of_cons_eq he ▸ hnot

theorem way_of_record (hn : Named t) (hbase : t.get? base = some .folder) {f : PackageFile}
    (hreach : Reaches t s o base levels [] way) (h : record? t s o base way name = some f) :
    f.way = way ++ [name] := by
  have hparts : ∀ x ∈ way ++ [name], Path.IsPart x :=
    List.forall_mem_append.mpr
      ⟨hreach.isPart hn hbase, List.forall_mem_singleton.mpr (isPart_of_record hn h)⟩
  rw [PackageFile.way, path_of_record h]
  exact Path.namesIn_join hparts

/-- **The list of a package's files is exact** if no links are followed. -/
theorem lists_exactly_of_listing (hs : Sound t) (hn : Named t) (hoff : o.followLinks = false)
    (hg : t.Ground root base) (h : listing t s o root = .ok files) :
    ListsExactly t s o base files := by
  have hbase := (Tree.status_eq_ok.mp hg.folder).2
  obtain ⟨hsorted, -⟩ := of_listing hn h
  obtain ⟨-, hfiles⟩ := (listing_eq_ok hg hs hn (.inl hoff)).mp h
  have hmem (f : PackageFile) : f ∈ files ↔ ∃ way name, f.way = way ++ [name] ∧
      Reaches t s o base o.maxDepth.toNat [] way ∧ record? t s o base way name = some f := by
    rw [hfiles, mem_records]
    refine exists_congr fun way => exists_congr fun name => ⟨fun ⟨hreach, hr⟩ => ?_, And.right⟩
    exact ⟨way_of_record hn hbase hreach hr, hreach, hr⟩
  have hbelongs (way : Location) : (∃ f ∈ files, f.way = way) ↔ Belongs t s o base way := by
    constructor
    · rintro ⟨f, hf, rfl⟩
      obtain ⟨way, name, hway, hreach, hr⟩ := (hmem f).mp hf
      exact hway ▸ (belongs_iff hbase).mpr ⟨hreach, f, hr⟩
    · intro hb
      obtain ⟨front, name, rfl⟩ := (List.eq_nil_or_concat way).resolve_left hb.below
      rw [List.concat_eq_append] at hb ⊢
      obtain ⟨hreach, f, hr⟩ := (belongs_iff hbase).mp hb
      exact ⟨f, (hmem f).mpr ⟨front, name, way_of_record hn hbase hreach hr, hreach, hr⟩,
        way_of_record hn hbase hreach hr⟩
  refine ⟨hbelongs, fun f hf => ?_, ?_, fun f hf => ?_, ?_, fun front f back he _ => ?_⟩
  · obtain ⟨way, name, hway, -, hr⟩ := (hmem f).mp hf
    rw [hway, path_of_record hr]
  · exact List.pairwise_map.mpr (hsorted.imp fun h => Location.ordered.ne h)
  · obtain ⟨way, name, hway, -, hr⟩ := (hmem f).mp hf
    rw [hway, ← List.append_assoc]
    rcases (record?_eq_some.mp hr).2 with ⟨bytes, hk, rfl⟩ | ⟨hk, -, rfl⟩
    · rw [hk]
      exact iff_of_false nofun nofun
    · rw [hk]
      exact iff_of_true rfl rfl
  · refine hsorted.imp fun hbefore folder a b hf hg => ?_
    rw [hf, hg] at hbefore
    exact Location.before_names hbefore
  · rw [he] at hsorted
    obtain ⟨inside, outside, rfl, hin, hout⟩ := Location.exists_block PackageFile.way hsorted
    refine ⟨inside, outside, rfl, fun way => ⟨?_, ?_⟩⟩
    · rintro ⟨g, hg, rfl⟩
      exact ⟨(hbelongs g.way).mp ⟨g, by simp [he, hg], rfl⟩, hin g hg⟩
    · rintro ⟨hb, hbelow, hne⟩
      obtain ⟨g, hg, rfl⟩ := (hbelongs way).mpr hb
      rw [he, List.mem_append, List.mem_cons, List.mem_append] at hg
      rcases hg with hg | rfl | hg | hg
      · exact absurd hbelow (hout g (List.mem_append_left outside hg))
      · exact absurd rfl hne
      · exact ⟨g, hg, rfl⟩
      · exact absurd hbelow (hout g (List.mem_append_right front hg))

theorem allFit_of_entries (h : ∀ x ∈ t.entries, Name.size (Path.ofLocation x.1).toText ≤ Tree.maxPathBytes ∧
    ∀ name ∈ x.1, Name.size name ≤ Tree.maxNameBytes) :
    AllFit t s o base (.ofLocation base) levels folder := by
  intro way name _ hk
  obtain ⟨e, he⟩ := Option.ne_none_iff_exists'.mp hk
  obtain ⟨hpath, hnames⟩ := h _ (Tree.mem_entries_of_get? (by simp) he)
  refine ⟨?_, fun _ _ => hnames name (by simp)⟩
  rwa [List.append_assoc] at hpath

end

end Listing

open Listing (ListsExactly AllFit)

section
variable {t : Tree} {s : Settings} {o : SearchOptions} {path : Text} {root : Path} {base : Location}

/-- **What is described has exactly the files that it should have** if no links are followed, and a
directory is described if its manifest can be read and nothing that is met is too long. -/
theorem describe_lists_exactly (hs : Sound t) (hn : Named t) (hoff : o.followLinks = false)
    (hroot : t.resolve (.ofText path) = .ok root) (hg : t.Ground root base) :
    (∀ p, describe t s path o = .ok p → ListsExactly t s o base p.files) ∧
      ((∃ p, describe t s path o = .ok p) ↔ t.isFile (manifestPath s root) = .ok true ∧
        (∃ ms, readManifest t (manifestPath s root) = .ok ms) ∧
          AllFit t s o base root o.maxDepth.toNat []) := by
  have hfolder : t.isFolder root = .ok true := Tree.isFolder_eq_true.mpr ⟨hg.vetted, base, hg.folder⟩
  have hdescribe (p : Package) : describe t s path o = .ok p ↔ describeAt t s o root = .ok p := by
    rw [describe_eq_ok, hroot]
    simp only [Except.ok.injEq, exists_eq_left']
  refine ⟨fun p hp => ?_, fun ⟨p, hp⟩ => ?_, fun ⟨hfile, ⟨ms, hms⟩, hfit⟩ => ?_⟩
  · obtain ⟨-, -, ms, files, -, hfiles, rfl⟩ := describeAt_eq_ok.mp ((hdescribe p).mp hp)
    exact Listing.lists_exactly_of_listing hs hn hoff hg hfiles
  · obtain ⟨-, hfile, ms, files, hms, hfiles, rfl⟩ := describeAt_eq_ok.mp ((hdescribe p).mp hp)
    exact ⟨hfile, ⟨ms, hms⟩, ((listing_eq_ok hg hs hn (.inl hoff)).mp hfiles).1⟩
  · have hfiles := (listing_eq_ok (s := s) hg hs hn (.inl hoff)).mpr ⟨hfit, rfl⟩
    exact ⟨_, (hdescribe _).mpr (describeAt_eq_ok.mpr ⟨hfolder, hfile, ms, _, hms, hfiles, rfl⟩)⟩

end

/-! ## A package with links, hidden entries and build output -/

namespace Workspace

def tree : Tree where
  entries := [(["repo"], .folder), (["repo", "package.json"], .file [123, 125]),
    (["repo", "src"], .folder), (["repo", "src", "main.js"], .file [10]),
    (["repo", "src", "deep"], .folder), (["repo", "src", "deep", "below.js"], .file []),
    (["repo", "src-old"], .file []), (["repo", "again"], .link "src"),
    (["repo", ".eslintrc"], .file []), (["repo", ".cache"], .folder),
    (["repo", "dist"], .folder), (["repo", "dist", "main.js"], .file [])]
  here := ["repo"]

def options : SearchOptions := ⟨false, false, 1, true⟩

def root : Path := .ofLocation ["repo"]

end Workspace

open Workspace in
/-- The package is described, with exactly its files. -/
theorem describe_lists_workspace : Sound tree ∧ Named tree ∧ options.followLinks = false ∧
    tree.resolve (.ofText ".") = .ok root ∧ tree.Ground root ["repo"] ∧
    ∃ p, describe tree .default "." options = .ok p ∧
      ListsExactly tree .default options ["repo"] p.files := by
  have hs : Sound tree := Tree.sound_of_entries (by decide) (by decide) (by decide)
  have hn : Named tree := ⟨by decide, by decide, by decide, by decide⟩
  have hroot : tree.resolve (.ofText ".") = .ok root := by rfl
  have hg : tree.Ground root ["repo"] := Tree.ground_ofLocation hs hn rfl
  obtain ⟨hexact, hiff⟩ := describe_lists_exactly (s := .default) (o := options) hs hn rfl hroot hg
  have hms : readManifest tree (manifestPath .default root) = .ok [] := by rfl
  obtain ⟨p, hp⟩ := hiff.mpr ⟨rfl, ⟨[], hms⟩, Listing.allFit_of_entries (by decide)⟩
  exact ⟨hs, hn, rfl, hroot, hg, p, hp, hexact p hp⟩

end PackageAudit
