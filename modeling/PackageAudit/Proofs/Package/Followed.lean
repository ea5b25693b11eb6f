import PackageAudit.Proofs.Package.Describe
import PackageAudit.Proofs.Package.Walk

/-! # What following links takes away

A walk that follows links notes whatever one that does not follow them notes (`Notes.following`), but
may have been led to a directory by a link before it comes to the directory itself. Then what is in the
directory is listed at the earlier name only. `listed_following_iff`: that is the one reason why an
entry is not listed when links are followed.
-/

namespace PackageAudit

open PackageAudit.Tree (Named)

/-- These options with links followed or not. -/
def SearchOptions.following (o : SearchOptions) (follow : Bool) : SearchOptions :=
  { o with followLinks := follow }

namespace Listing

section
variable {t : Tree} {s : Settings} {o : SearchOptions} {root : Path} {folder way : Location}
  {name : Text} {f : PackageFile} {files later : List PackageFile} {entered : List Path}

/-- An entry is in a directory that another listed one took the place of: it comes first, and the two
are one directory. -/
def Shadowed (t : Tree) (o : SearchOptions) (root : Path) (files : List PackageFile)
    (way : Location) : Prop :=
  ∃ part, part ≠ [] ∧ part <+: way ∧ part ≠ way ∧ ∃ g ∈ files, g.isFolder = true ∧
    g.way.length ≤ o.maxDepth.toNat ∧ g.way.before part = true ∧
      t.resolve (root.append g.way) = t.resolve (root.append part)

theorem Notes.following (h : Notes t s (o.following false) root way name f) :
    Notes t s (o.following true) root way name f := by
  have hlook (h : LooksAt t s (o.following false) root way name) :
      LooksAt t s (o.following true) root way name := by
    obtain ⟨place, hst, hname, hlisted, -⟩ := h
    exact ⟨place, hst, hname, hlisted, .inl rfl⟩
  cases h with
  | file h hst => exact .file (hlook h) hst
  | folder h hst hi => exact .folder (hlook h) hst hi

/-! ## The directories on an open way -/

theorem Open.opens (h : Open t s o root entered files folder way) {part : Location}
    (hfolder : folder <+: part) (hne : part ≠ folder) (hway : part <+: way) :
    Opens t o root entered files part := by
  induction h with
  | here => exact absurd (hway.eq_of_length_le hfolder.length_le) hne
  | @into folder way name _ hopens hr ih =>
    by_cases hpart : part = folder ++ [name]
    · exact hpart ▸ hopens
    · refine ih ?_ hpart hway
      refine List.prefix_of_prefix_length_le hr.prefix_of hway ?_
      obtain ⟨rest, rfl⟩ := hfolder
      cases rest with
      | nil => simp at hne
      | cons next rest => simp

/-- The way is open when links are followed if its directories are. -/
theorem Open.following (h : Open t s (o.following false) root entered files folder way)
    (hall : ∀ part, folder <+: part → part ≠ folder → part <+: way →
      Opens t (o.following true) root entered later part) :
    Open t s (o.following true) root entered later folder way := by
  induction h with
  | here => exact .here
  | @into folder way name hnotes _ hr ih =>
    obtain ⟨f, hf, hisf⟩ := hnotes
    refine .into ⟨f, hf.following, hisf⟩ (hall _ (List.prefix_append folder [name]) (by simp) hr.prefix_of) ?_
    refine ih fun part hpart hne hway => hall part ((List.prefix_append folder [name]).trans hpart) ?_ hway
    rintro rfl
    exact absurd hpart.length_le (by simp)

/-- **What is no longer listed when links are followed** is what is in a directory that another one
took the place of. -/
theorem mem_following_iff {direct followed : List PackageFile} (hn : Named t)
    (hdirect : listing t s (o.following false) root = .ok direct)
    (hfollowed : listing t s (o.following true) root = .ok followed) (hf : f ∈ direct) :
    f ∈ followed ↔ ¬ Shadowed t o root followed f.way := by
  obtain ⟨-, hmem⟩ := of_listing hn hdirect
  obtain ⟨-, hmem'⟩ := of_listing hn hfollowed
  obtain ⟨way, name, hopen, hnotes⟩ := (hmem f).mp hf
  have hway : f.way = way ++ [name] := hnotes.way_eq hn (hopen.isPart hn (List.forall_mem_nil _))
  constructor
  · rintro hf' ⟨part, hne, hpart, hproper, g, hg, hisf, hlen, hbefore, hsame⟩
    obtain ⟨way', name', hopen', hnotes'⟩ := (hmem' f).mp hf'
    rw [hnotes'.way_eq hn (hopen'.isPart hn (List.forall_mem_nil _))] at hpart hproper
    have hpart' := (List.prefix_concat_iff.mp hpart).resolve_left hproper
    obtain ⟨-, x, hx, -, hfresh⟩ := hopen'.opens List.nil_prefix hne hpart'
    exact hfresh g hg hisf hlen hbefore (hsame.trans hx)
  · intro hno
    refine (hmem' f).mpr ⟨way, name, hopen.following fun part _ hne hpart => ?_, hnotes.following⟩
    obtain ⟨hlen, x, hx, hnot, -⟩ := hopen.opens List.nil_prefix hne hpart
    refine ⟨hlen, x, hx, hnot, fun g hg hisf hle hbefore hres => hno ?_⟩
    refine ⟨part, hne, hway ▸ hpart.trans (List.prefix_append way [name]), ?_, g, hg, hisf, hle,
      hbefore, hres.trans hx.symm⟩
    rintro rfl
    exact absurd hpart.length_le (by simp [hway])

end

end Listing

section
variable {t : Tree} {s : Settings} {o : SearchOptions} {path : Text} {root : Path}
  {direct followed : Package}

/-- **Following links only takes away what an earlier way to the same directory has taken.** What is
left is listed as it is without following them. -/
theorem listed_following_iff (hn : Named t) (hroot : t.resolve (.ofText path) = .ok root)
    (hdirect : describe t s path (o.following false) = .ok direct)
    (hfollowed : describe t s path (o.following true) = .ok followed) {f : PackageFile}
    (hf : f ∈ direct.files) :
    f ∈ followed.files ↔ ¬ Listing.Shadowed t o root followed.files f.way := by
  have hfiles {o : SearchOptions} {p : Package} (hp : describe t s path o = .ok p) :
      listing t s o root = .ok p.files := by
    obtain ⟨root', hroot', hat⟩ := describe_eq_ok.mp hp
    cases hroot.symm.trans hroot'
    obtain ⟨-, -, ms, files, -, hfiles, rfl⟩ := describeAt_eq_ok.mp hat
    exact hfiles
  exact Listing.mem_following_iff hn (hfiles hdirect) (hfiles hfollowed) hf

end

/-! ## A link that comes before its directory, and one that leads nowhere -/

namespace Followed

def options : SearchOptions := ⟨false, false, 1, true⟩

def root : Path := .ofLocation []

/-- The record of a file of one line. -/
def line (path : Text) (size : Int) : PackageFile := ⟨path, false, size, some 1, false⟩

/-- A link and, behind it, the directory that it leads to. -/
def aliased : Tree :=
  ⟨[(["a"], .link "b"), (["b"], .folder), (["b", "x"], .file [10]),
    (["package.json"], .file [123, 125])], []⟩

def direct : Package :=
  Describe.package .default root [] [Listing.folderRecord "b", line "b/x" 1, line "package.json" 2]

def followed : Package :=
  Describe.package .default root []
    [Listing.folderRecord "a", line "a/x" 1, Listing.folderRecord "b", line "package.json" 2]

theorem names_aliased : aliased.names [] = (["a", "b", "package.json"] : List Text) :=
  Tree.names_of_ordered (by decide) (by decide)

theorem describe_direct : describe aliased .default "." (options.following false) = .ok direct :=
  describe_of_names rfl rfl rfl rfl rfl rfl names_aliased (by decide +kernel)

theorem describe_followed : describe aliased .default "." (options.following true) = .ok followed :=
  describe_of_names rfl rfl rfl rfl rfl rfl names_aliased (by decide +kernel)

/-- A link whose target has too long a name. -/
def overlong : Tree :=
  ⟨[(["link"], .link (List.replicate 256 (CodePoint.ofChar 'd'))),
    (["package.json"], .file [123, 125])], []⟩

theorem names_overlong : overlong.names [] = (["link", "package.json"] : List Text) :=
  Tree.names_of_ordered (by decide) (by decide)

end Followed

open Followed in
/-- The file of the directory is listed, but no longer when links are followed: then it is listed by
the name of the link. -/
theorem listed_following_aliased : Named aliased ∧ aliased.resolve (.ofText ".") = .ok root ∧
    describe aliased .default "." (options.following false) = .ok direct ∧
    describe aliased .default "." (options.following true) = .ok followed ∧
    line "b/x" 1 ∈ direct.files ∧ Listing.Shadowed aliased options root followed.files ["b", "x"] := by
  have hn : Named aliased := ⟨by decide, by decide, by decide, by decide⟩
  have hf : line "b/x" 1 ∈ direct.files := by decide
  have hnot : line "b/x" 1 ∉ followed.files := by decide
  have hiff := listed_following_iff hn rfl describe_direct describe_followed hf
  exact ⟨hn, rfl, describe_direct, describe_followed, hf, by_contra fun h => hnot (hiff.mpr h)⟩

open Followed in
/-- When links are followed a file may no longer be listed, and the package may no longer be
described. -/
theorem not_listed_following :
    (describe aliased .default "." (options.following false) = .ok direct ∧
      describe aliased .default "." (options.following true) = .ok followed ∧
      line "b/x" 1 ∈ direct.files ∧ ∀ f ∈ followed.files, f.path ≠ "b/x") ∧
    ∃ p, describe overlong .default "." (options.following false) = .ok p ∧
      line "package.json" 2 ∈ p.files ∧
      ∀ q, describe overlong .default "." (options.following true) ≠ .ok q := by
  refine ⟨⟨describe_direct, describe_followed, by decide, by decide⟩, ?_⟩
  refine ⟨Describe.package .default root [] [line "package.json" 2], ?_, by decide, fun q hq => ?_⟩
  · exact describe_of_names rfl rfl rfl rfl rfl rfl names_overlong (by decide +kernel)
  · obtain ⟨root', hroot, hat⟩ := describe_eq_ok.mp hq
    obtain rfl : root = root' := Except.ok.inj hroot
    obtain ⟨-, -, ms, files, -, hfiles, -⟩ := describeAt_eq_ok.mp hat
    have hfault : listing overlong .default (options.following true) root =
        .error (.refused .nameTooLong "/link") :=
      listing_of_names rfl rfl names_overlong (by decide +kernel)
    rw [hfault] at hfiles
    cases hfiles

end PackageAudit
