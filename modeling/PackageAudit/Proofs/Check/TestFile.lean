import PackageAudit.Check.TestFile
import PackageAudit.Proofs.Text.Breaks
import PackageAudit.Proofs.Text.Regular
import PackageAudit.Proofs.Text.Split

/-! # Which paths belong to tests

The four patterns are searched for anywhere in a path, yet each of them tells something about one of
its names: about one that is not the last, or about the last one (`folderPattern_iff`,
`partPattern_iff`, `beginningPattern_iff`, `endingPattern_iff`). Together they accept the paths of a
grammar of names (`isTestFile_iff`).
-/

namespace PackageAudit.TestFile

open Regular
open PackageAudit.Path (slash)
open Text (BeginsPiece)

/-- The last name of a test file: a telling part with something behind it, a telling beginning of a
Python file, or a telling ending. -/
def IsTestName (name : Text) : Prop :=
  (∃ front part rest : Text, name = front ++ ("." ++ part ++ "." ++ rest) ∧
      part.asciiLower ∈ (["test", "spec"] : List Text) ∧ rest ≠ []) ∨
    ("test_" : Text) <+: name ∧ (".py" : Text) <:+ name ∨ ("_test.py" : Text) <:+ name

/-- **The grammar of test files**: a directory for tests, or a last name that tells of a test. -/
def IsTestPath (folders : List Text) (name : Text) : Prop :=
  (∃ folder ∈ folders,
    folder.asciiLower ∈ (["__tests__", "__mocks__", "tests", "test"] : List Text)) ∨ IsTestName name

section
variable {path name front before m after : Text} {folders : List Text} {rs : List Regular}

/-! ## The patterns -/

theorem notSlash_iff : (∀ c ∈ m, notSlash c = true) ↔ slash ∉ m := by
  simp only [notSlash, bne_iff_ne]
  exact ⟨fun h hm => h _ hm rfl, fun h c hc he => h (he ▸ hc)⟩

/-- The end of a text, which a line feed at its end may follow. -/
def AtEnd (after : Text) : Prop := after = [] ∨ after = [Text.feed]

theorem matches_inTurn_finish :
    (inTurn [finish]).Matches before m after ↔ m = [] ∧ AtEnd after := by
  rw [matches_inTurn_cons]
  constructor
  · rintro ⟨_, _, rfl, ⟨rfl, hend⟩, rfl⟩
    exact ⟨rfl, hend⟩
  · rintro ⟨rfl, hend⟩
    exact ⟨[], [], rfl, ⟨rfl, hend⟩, rfl⟩

theorem isIn_nameStart_iff : (inTurn (nameStart :: rs)).isIn path = true ↔ ∃ front m after,
    path = front ++ m ++ after ∧ BeginsPiece slash front ∧ (inTurn rs).Matches front m after := by
  simp only [isIn_iff, matches_inTurn_cons, nameStart, Matches]
  constructor
  · rintro ⟨before, _, after, rfl, s, m, rfl, ⟨rfl, rfl⟩ | rfl, hm⟩
    · exact ⟨[], m, after, rfl, .inl rfl, hm⟩
    · exact ⟨before ++ [slash], m, after, by simp [slash, Text.ofString], .inr ⟨before, rfl⟩, hm⟩
  · rintro ⟨_, m, after, rfl, rfl | ⟨before, rfl⟩, hm⟩
    · exact ⟨[], m, after, rfl, [], m, rfl, .inl ⟨rfl, rfl⟩, hm⟩
    · exact ⟨before, slash :: m, after, by simp, [slash], m, rfl, .inr rfl, hm⟩

theorem isIn_partPattern : partPattern.isIn path = true ↔ ∃ front part rest after : Text,
    path = front ++ ("." ++ part ++ "." ++ rest) ++ after ∧
      (∃ word ∈ partNames, part.foldsTo word = true) ∧ (rest ≠ [] ∧ slash ∉ rest) ∧
      AtEnd after := by
  rw [isIn_iff]
  constructor
  · rintro ⟨front, _, after, rfl, _, _, rfl, rfl, part, _, rfl, hpart, _, _, rfl, rfl, _, _, rfl,
      ⟨c, rfl, hc⟩, rest, _, rfl, hrest, hend⟩
    obtain ⟨rfl, hafter⟩ := matches_inTurn_finish.mp hend
    obtain ⟨_, hr, hword⟩ := matches_anyOf.mp hpart
    obtain ⟨word, hmem, rfl⟩ := List.mem_map.mp hr
    refine ⟨front, part, c :: rest, after, by simp, ⟨word, hmem, hword⟩, ⟨by simp, ?_⟩, hafter⟩
    exact notSlash_iff.mp (List.forall_mem_cons.mpr ⟨hc, hrest⟩)
  · rintro ⟨front, part, _ | ⟨c, rest⟩, after, rfl, ⟨word, hmem, hword⟩, ⟨hne, hrest⟩, hend⟩
    · exact absurd rfl hne
    · obtain ⟨hc, hrest⟩ := List.forall_mem_cons.mp (notSlash_iff.mpr hrest)
      have hpart : (anyOf (partNames.map folded)).Matches (front ++ ".") part
          ("." ++ c :: rest ++ after) := matches_anyOf.mpr ⟨_, List.mem_map_of_mem hmem, hword⟩
      refine ⟨front, "." ++ part ++ "." ++ (c :: rest), after, rfl, ".", _, by simp, rfl, part, _,
        rfl, ?_, ".", _, rfl, rfl, [c], rest, rfl, ⟨c, rfl, hc⟩, rest, [], by simp, hrest,
        matches_inTurn_finish.mpr ⟨rfl, hend⟩⟩
      simpa using hpart

theorem isIn_folderPattern : folderPattern.isIn path = true ↔ ∃ front folder back : Text,
    path = front ++ folder ++ slash :: back ∧ BeginsPiece slash front ∧
      ∃ word ∈ folderNames, folder.foldsTo word = true := by
  rw [folderPattern, isIn_nameStart_iff]
  constructor
  · rintro ⟨front, _, back, rfl, hfront, folder, _, rfl, hfolder, _, _, rfl, rfl, rfl⟩
    obtain ⟨_, hr, hword⟩ := matches_anyOf.mp hfolder
    obtain ⟨word, hmem, rfl⟩ := List.mem_map.mp hr
    exact ⟨front, folder, back, by simp [slash, Text.ofString], hfront, word, hmem, hword⟩
  · rintro ⟨front, folder, back, rfl, hfront, word, hmem, hword⟩
    exact ⟨front, folder ++ "/", back, by simp [slash, Text.ofString], hfront, folder, "/", rfl,
      matches_anyOf.mpr ⟨_, List.mem_map_of_mem hmem, hword⟩, "/", [], rfl, rfl, rfl⟩

theorem isIn_beginningPattern : beginningPattern.isIn path = true ↔ ∃ front middle after : Text,
    path = front ++ ("test_" ++ middle ++ ".py") ++ after ∧ BeginsPiece slash front ∧
      slash ∉ middle ∧ AtEnd after := by
  rw [beginningPattern, isIn_nameStart_iff]
  constructor
  · rintro ⟨front, _, after, rfl, hfront, _, _, rfl, rfl, middle, _, rfl, hmiddle, _, _, rfl, rfl,
      hend⟩
    obtain ⟨rfl, hafter⟩ := matches_inTurn_finish.mp hend
    exact ⟨front, middle, after, by simp, hfront, notSlash_iff.mp hmiddle, hafter⟩
  · rintro ⟨front, middle, after, rfl, hfront, hmiddle, hend⟩
    exact ⟨front, "test_" ++ middle ++ ".py", after, rfl, hfront, "test_", middle ++ ".py", by simp,
      rfl, middle, ".py", rfl, notSlash_iff.mpr hmiddle, ".py", [], rfl, rfl,
      matches_inTurn_finish.mpr ⟨rfl, hend⟩⟩

theorem isIn_endingPattern : endingPattern.isIn path = true ↔ ∃ front middle after : Text,
    path = front ++ (middle ++ "_test.py") ++ after ∧ BeginsPiece slash front ∧
      slash ∉ middle ∧ AtEnd after := by
  rw [endingPattern, isIn_nameStart_iff]
  constructor
  · rintro ⟨front, _, after, rfl, hfront, middle, _, rfl, hmiddle, _, _, rfl, rfl, hend⟩
    obtain ⟨rfl, hafter⟩ := matches_inTurn_finish.mp hend
    exact ⟨front, middle, after, by simp, hfront, notSlash_iff.mp hmiddle, hafter⟩
  · rintro ⟨front, middle, after, rfl, hfront, hmiddle, hend⟩
    exact ⟨front, middle ++ "_test.py", after, rfl, hfront, middle, _, rfl,
      notSlash_iff.mpr hmiddle, "_test.py", [], rfl, rfl,
      matches_inTurn_finish.mpr ⟨rfl, hend⟩⟩

/-! ## Names -/

theorem eq_nil_of_atEnd (hpath : Text.feed ∉ m ++ after) (h : AtEnd after) : after = [] := by
  rcases h with rfl | rfl
  · rfl
  · exact absurd (by simp) hpath

/-- A slash is no form of a letter of the words. -/
def slashFree (words : List Text) : Bool := words.all fun word => word.all fun w => !slash.foldsTo w

theorem slash_notMem_of_foldsTo (words : List Text) (hwords : slashFree words = true)
    (h : ∃ word ∈ words, m.foldsTo word = true) : slash ∉ m := by
  obtain ⟨word, hmem, hword⟩ := h
  intro hm
  obtain ⟨w, hw, hfold⟩ := (Text.mem_of_foldsTo hword).1 slash hm
  have hnot := List.all_eq_true.mp (List.all_eq_true.mp hwords word hmem) w hw
  rw [hfold] at hnot
  cases hnot

section
variable (hsplit : path.split slash = folders ++ [name])
include hsplit

theorem slash_notMem_name : slash ∉ name := (Text.split_eq_concat_iff.mp ⟨folders, hsplit⟩).1

theorem partPattern_iff (hfeed : Text.feed ∉ path) : partPattern.isIn path = true ↔
    ∃ front part rest : Text, name = front ++ ("." ++ part ++ "." ++ rest) ∧
      (∃ word ∈ partNames, part.foldsTo word = true) ∧ rest ≠ [] := by
  have hname := slash_notMem_name hsplit
  rw [isIn_partPattern]
  constructor
  · rintro ⟨front, part, rest, after, rfl, hword, ⟨hne, hrest⟩, hend⟩
    obtain rfl := eq_nil_of_atEnd hfeed hend
    have hpart : slash ∉ part := slash_notMem_of_foldsTo partNames (by decide) hword
    have hdot : slash ∉ ("." : Text) := by decide
    have hall : slash ∉ ("." ++ part ++ "." ++ rest : Text) := by simp [hdot, hpart, hrest]
    obtain ⟨front', hfront'⟩ :=
      (Text.suffix_iff_of_split hsplit hall).mp ⟨front, (List.append_nil _).symm⟩
    exact ⟨front', part, rest, hfront'.symm, hword, hne⟩
  · rintro ⟨front, part, rest, rfl, hword, hne⟩
    obtain ⟨-, a, -, rfl⟩ := Text.split_eq_concat_iff.mp ⟨folders, hsplit⟩
    refine ⟨a ++ front, part, rest, [], by simp, hword, ⟨hne, ?_⟩, .inl rfl⟩
    exact fun hrest => hname (by simp [hrest])

theorem folderPattern_iff : folderPattern.isIn path = true ↔
    ∃ folder ∈ folders, ∃ word ∈ folderNames, folder.foldsTo word = true := by
  rw [isIn_folderPattern]
  constructor
  · rintro ⟨front, folder, back, hpath, hfront, hword⟩
    have hfolder : slash ∉ folder := slash_notMem_of_foldsTo folderNames (by decide) hword
    exact ⟨folder, (Text.mem_front_iff hsplit hfolder).mpr ⟨front, back, hfront, hpath⟩, hword⟩
  · rintro ⟨folder, hmem, hword⟩
    have hfolder : slash ∉ folder := Text.notMem_of_mem_split (hsplit ▸ List.mem_append_left _ hmem)
    obtain ⟨front, back, hfront, hpath⟩ := (Text.mem_front_iff hsplit hfolder).mp hmem
    exact ⟨front, folder, back, hpath, hfront, hword⟩

theorem beginningPattern_iff (hfeed : Text.feed ∉ path) : beginningPattern.isIn path = true ↔
    ("test_" : Text) <+: name ∧ (".py" : Text) <:+ name := by
  have hname := slash_notMem_name hsplit
  rw [isIn_beginningPattern]
  constructor
  · rintro ⟨front, middle, after, rfl, hfront, hmiddle, hend⟩
    obtain rfl := eq_nil_of_atEnd hfeed hend
    have hall : slash ∉ ("test_" ++ middle ++ ".py" : Text) := by
      have hends : slash ∉ ("test_" : Text) ∧ slash ∉ (".py" : Text) := by decide
      simp [hends, hmiddle]
    obtain rfl := (Text.eq_of_begins hsplit hall).mp ⟨front, hfront, List.append_nil _⟩
    exact ⟨⟨middle ++ ".py", by simp⟩, ⟨"test_" ++ middle, rfl⟩⟩
  · rintro ⟨⟨rest, rfl⟩, hending⟩
    -- the ending does not overlap the beginning, which has no dot
    have hdot : CodePoint.ofChar '.' ∉ ("test_" : Text) := by decide
    obtain ⟨middle, rfl⟩ : (".py" : Text) <:+ rest := Text.suffix_of_notMem (u := "py") hdot hending
    obtain ⟨-, a, ha, rfl⟩ := Text.split_eq_concat_iff.mp ⟨folders, hsplit⟩
    exact ⟨a, middle, [], by simp, ha, fun hm => hname (by simp [hm]), .inl rfl⟩

theorem endingPattern_iff (hfeed : Text.feed ∉ path) :
    endingPattern.isIn path = true ↔ ("_test.py" : Text) <:+ name := by
  have hname := slash_notMem_name hsplit
  rw [isIn_endingPattern]
  constructor
  · rintro ⟨front, middle, after, rfl, hfront, hmiddle, hend⟩
    obtain rfl := eq_nil_of_atEnd hfeed hend
    have hall : slash ∉ (middle ++ "_test.py" : Text) := by
      have hending : slash ∉ ("_test.py" : Text) := by decide
      simp [hending, hmiddle]
    obtain rfl := (Text.eq_of_begins hsplit hall).mp ⟨front, hfront, List.append_nil _⟩
    exact ⟨middle, rfl⟩
  · rintro ⟨middle, rfl⟩
    obtain ⟨-, a, ha, rfl⟩ := Text.split_eq_concat_iff.mp ⟨folders, hsplit⟩
    exact ⟨a, middle, [], by simp, ha, fun hm => hname (by simp [hm]), .inl rfl⟩

end

/-! ## The grammar -/

theorem isTestFile_eq_or : isTestFile path = true ↔ partPattern.isIn path = true ∨
    folderPattern.isIn path = true ∨ beginningPattern.isIn path = true ∨
      endingPattern.isIn path = true := by
  simp [isTestFile, patterns]

/-- Words that are their own lower case. -/
def inLowerCase (words : List Text) : Bool :=
  words.all fun word => word.all fun w => !(65 ≤ w.val && w.val ≤ 90)

/-- In ASCII text, a word of a list up to case is what has its lower case in the list. -/
theorem exists_foldsTo_iff {words : List Text} (hwords : inLowerCase words = true)
    (hm : ∀ c ∈ m, c.val < 0x80) :
    (∃ word ∈ words, m.foldsTo word = true) ↔ m.asciiLower ∈ words := by
  have hiff {word : Text} (hmem : word ∈ words) : m.foldsTo word = true ↔ m.asciiLower = word :=
    Text.foldsTo_iff_asciiLower hm fun w hw => by
      have hsmall := List.all_eq_true.mp (List.all_eq_true.mp hwords word hmem) w hw
      rwa [Bool.not_eq_true', Bool.and_eq_false_iff, decide_eq_false_iff_not,
        decide_eq_false_iff_not, ← not_and_or] at hsmall
  constructor
  · rintro ⟨word, hmem, hword⟩
    rwa [(hiff hmem).mp hword]
  · exact fun hmem => ⟨_, hmem, (hiff hmem).mpr rfl⟩

theorem isTestFile_below (above : Text) (h : isTestFile path = true) :
    isTestFile (above ++ slash :: path) = true := by
  rw [isTestFile_eq_or, isIn_partPattern, isIn_folderPattern, isIn_beginningPattern,
    isIn_endingPattern] at h ⊢
  rcases h with ⟨front, part, rest, after, rfl, h⟩ | ⟨front, folder, back, rfl, hfront, h⟩ |
    ⟨front, middle, after, rfl, hfront, h⟩ | ⟨front, middle, after, rfl, hfront, h⟩
  · exact .inl ⟨above ++ slash :: front, part, rest, after, by simp, h⟩
  · exact .inr (.inl ⟨above ++ slash :: front, folder, back, by simp, hfront.behind above, h⟩)
  · exact .inr (.inr (.inl
      ⟨above ++ slash :: front, middle, after, by simp, hfront.behind above, h⟩))
  · exact .inr (.inr (.inr
      ⟨above ++ slash :: front, middle, after, by simp, hfront.behind above, h⟩))

theorem isTestFile_of_split (hsplit : path.split slash = folders ++ [name])
    (hascii : ∀ c ∈ path, c.val < 0x80) (hfeed : Text.feed ∉ path) :
    isTestFile path = true ↔ IsTestPath folders name := by
  have hpieces : ∀ piece ∈ folders ++ [name], ∀ c ∈ piece, c.val < 0x80 := by
    intro piece hpiece c hc
    exact hascii c (Text.mem_of_mem_split (hsplit ▸ hpiece) hc)
  rw [isTestFile_eq_or, partPattern_iff hsplit hfeed, folderPattern_iff hsplit,
    beginningPattern_iff hsplit hfeed, endingPattern_iff hsplit hfeed, or_left_comm]
  refine or_congr (exists_congr fun folder => and_congr_right fun hfolder => ?_) (or_congr_left ?_)
  · exact exists_foldsTo_iff (by decide) (hpieces folder (List.mem_append_left _ hfolder))
  · refine exists_congr fun front => exists_congr fun part => exists_congr fun rest =>
      and_congr_right fun hname => and_congr_left fun _ => ?_
    have hpart : ∀ c ∈ part, c.val < 0x80 := fun c hc =>
      hpieces name (by simp) c (by simp [hname, hc])
    exact exists_foldsTo_iff (by decide) hpart

/-- **The patterns accept the grammar**, and what is put in front of a path makes no difference to
that. -/
theorem isTestFile_iff (hpath : ∀ c ∈ path, c.val < 0x80 ∧ c ≠ Text.feed) :
    (isTestFile path = true ↔
      ∃ folders name, path.split slash = folders ++ [name] ∧ IsTestPath folders name) ∧
    ∀ above, isTestFile path = true → isTestFile (above ++ slash :: path) = true := by
  refine ⟨?_, fun above => isTestFile_below above⟩
  obtain ⟨hascii, hfeed⟩ := forall₂_and.mp hpath
  obtain ⟨folders, name, hsplit⟩ :=
    (List.eq_nil_or_concat (path.split slash)).resolve_left (Text.split_ne_nil slash path)
  rw [List.concat_eq_append] at hsplit
  rw [isTestFile_of_split hsplit hascii fun h => hfeed _ h rfl]
  constructor
  · exact fun h => ⟨folders, name, hsplit, h⟩
  · rintro ⟨folders', name', hsplit', h⟩
    obtain ⟨rfl, hname⟩ := List.append_inj' (hsplit.symm.trans hsplit') rfl
    rwa [List.singleton_inj.mp hname]

end

/-- Capitals make no difference to a directory for tests. -/
theorem isTestFile_capitals :
    isTestFile "src/__TESTS__/user.ts" = true ∧ isTestFile "app/src/__TESTS__/user.ts" = true := by
  have hpath : ∀ c ∈ ("src/__TESTS__/user.ts" : Text), c.val < 0x80 ∧ c ≠ Text.feed := by
    have hall : ("src/__TESTS__/user.ts" : Text).all
        (fun c => c.val < 0x80 && c != Text.feed) = true := by decide
    exact fun c hc => by simpa using List.all_eq_true.mp hall c hc
  obtain ⟨hiff, habove⟩ := isTestFile_iff hpath
  have htest : isTestFile "src/__TESTS__/user.ts" = true :=
    hiff.mpr ⟨["src", "__TESTS__"], "user.ts", by decide, .inl ⟨"__TESTS__", by decide, by decide⟩⟩
  exact ⟨htest, habove "app" htest⟩

example : isTestFile "src/latest/testing.ts" = false := by decide

end PackageAudit.TestFile
