import PackageAudit.Proofs.Check.FileSize
import PackageAudit.Proofs.Check.MockData
import PackageAudit.Proofs.Check.Secrets
import PackageAudit.Proofs.Text.LineEnds

/-! # What the numbers of lines count

The search for made-up data and the search for secrets tell of the first line of a kind (`Tells`).
Its number counts all line ends in front of it, while the number of lines in the record of a file is
that of its line feeds: a line has the number that its line feeds give it, and one that the record
has room for, if and only if no other line end is in front of it (`lineNumbers_iff`).
-/

namespace PackageAudit

theorem Json.ofNat_inj {m n : Nat} : Json.ofNat m = Json.ofNat n ↔ m = n := by
  rw [Json.ofNat, Json.ofNat, Json.int.injEq, Int.natCast_inj]

namespace Check

/-- The context of the outcome is a list of rows. -/
def Lists (out : Outcome) (key : Text) (rows : List Json) : Prop :=
  out.context = [(key, .arr rows)]

/-- The row about a line that looks made up. -/
def mockRow (path : Text) (n : Nat) : Json :=
  .obj [("file", .str path), ("reason", .str "content"), ("line", .ofNat n)]

/-- The row about a line with a credential. -/
def secretRow (path : Text) (n : Nat) (k : SecretKind) : Json :=
  .obj [("file", .str path), ("line", .ofNat n), ("kind", .str k.name)]

/-- The outcome tells of a line of a file, as one with a property. -/
inductive Tells (out : Outcome) (path : Text) (n : Nat) : (Text → Prop) → Prop
  | mock (rows : List Json) (hrows : Lists out "violating_files" rows)
      (hrow : mockRow path n ∈ rows) : Tells out path n IsMocked
  | secret (k : SecretKind) (rows : List Json) (hk : k ∈ secretKinds)
      (hrows : Lists out "findings" rows) (hrow : secretRow path n k ∈ rows) :
      Tells out path n (HoldsSecret k)

/-- The line between two parts of a text has a property, and no line that begins in front of it. -/
structure FirstLine (P : Text → Prop) (front line back : Text) : Prop where
  isLine : Text.IsLine front line back
  holds : P line
  isFirst : ∀ front' line' back', front' ++ line' ++ back' = front ++ line ++ back →
    Text.IsLine front' line' back' → P line' → front.length ≤ front'.length

section
variable {t : Tree} {p : Package} {out : Outcome} {path : Text} {n : Nat} {P : Text → Prop}
  {key : Text} {rows : List Json} {bytes : List UInt8}

/-! ## What is told of lines -/

theorem lists_noMockData (h : noMockData t p = .ok out) (hrows : Lists out key rows) :
    key = "violating_files" ∧
      rows = (p.regularFiles.filterMap (mockFindingOf? t p)).map MockFinding.record := by
  obtain ⟨-, rfl⟩ := noMockData_eq_ok.mp h
  cases hfound : p.regularFiles.filterMap (mockFindingOf? t p) with
  | nil =>
    rw [hfound] at hrows
    cases hrows
  | cons first rest =>
    obtain ⟨-, -, -, -, hcontext⟩ := mockOutcome_cons first rest
    rw [Lists, hfound, hcontext] at hrows
    cases hrows
    exact ⟨rfl, rfl⟩

theorem lists_noSecrets (h : noSecrets t p = .ok out) (hrows : Lists out key rows) :
    key = "findings" ∧ rows = ((scannedPaths p ×ˢ secretKinds).filterMap fun pk =>
      secretFinding? t p pk.1 pk.2).map SecretFinding.record := by
  obtain ⟨-, rfl⟩ := noSecrets_eq_ok.mp h
  cases hfound : (scannedPaths p ×ˢ secretKinds).filterMap fun pk =>
      secretFinding? t p pk.1 pk.2 with
  | nil =>
    rw [hfound] at hrows
    cases hrows
  | cons first rest =>
    rw [Lists, hfound] at hrows
    cases hrows
    exact ⟨rfl, rfl⟩

theorem record_eq_mockRow {x : MockFinding} : x.record = mockRow path n ↔ x = ⟨path, some n⟩ := by
  obtain ⟨file, line⟩ := x
  cases line <;> simp [MockFinding.record, mockRow, Json.ofNat_inj]

theorem record_eq_secretRow {x : SecretFinding} {k : SecretKind} :
    x.record = secretRow path n k ↔ x = ⟨path, n, k.name⟩ := by
  obtain ⟨file, line, kind⟩ := x
  simp [SecretFinding.record, secretRow, Json.ofNat_inj]

/-- **What is told is the first line of its kind.** -/
theorem Tells.isLeast (h : noMockData t p = .ok out ∨ noSecrets t p = .ok out)
    (ht : Tells out path n P) : IsLeast {n | LineAt (t.linesAt (p.place path)) P n} n := by
  cases ht with
  | mock rows hrows hrow =>
    rcases h with h | h
    · obtain ⟨-, rfl⟩ := lists_noMockData h hrows
      obtain ⟨x, hx, hrecord⟩ := List.mem_map.mp hrow
      obtain rfl := record_eq_mockRow.mp hrecord
      obtain ⟨f, -, hf⟩ := List.mem_filterMap.mp hx
      obtain ⟨hpath, ⟨-, hnone⟩ | ⟨-, m, hm, hleast⟩⟩ := mockFindingOf?_eq_some hf
      · cases hnone
      · obtain rfl := Option.some.inj hm
        obtain rfl : path = f.path := hpath
        exact hleast
    · exact absurd (lists_noSecrets h hrows).1 (by decide)
  | secret k rows hk hrows hrow =>
    rcases h with h | h
    · exact absurd (lists_noMockData h hrows).1 (by decide)
    · obtain ⟨-, rfl⟩ := lists_noSecrets h hrows
      obtain ⟨x, hx, hrecord⟩ := List.mem_map.mp hrow
      obtain rfl := record_eq_secretRow.mp hrecord
      obtain ⟨pk, hpk, hfinding⟩ := List.mem_filterMap.mp hx
      have hk' : pk.2 ∈ secretKinds := (List.mem_product.mp hpk).2
      obtain ⟨hpath, hname, hleast⟩ := (secretFinding?_eq_some hk').mp hfinding
      obtain rfl : path = pk.1 := hpath
      obtain rfl := SecretKind.eq_of_name hk hk' hname
      exact hleast

theorem Tells.not_nil (ht : Tells out path n P) : ¬ P [] := by
  cases ht with
  | mock => exact fun h => absurd ((looksMocked_iff []).mpr h) (by decide)
  | secret k rows hk =>
    have hall : ∀ k ∈ secretKinds, k.onLine [] = false := by decide
    exact fun h => absurd ((SecretKind.onLine_iff hk).mpr h) (by simp [hall k hk])

theorem exists_tells (h : noMockData t p = .ok out ∨ noSecrets t p = .ok out) {m : Int}
    (hline : out.lineNumber = some m) :
    ∃ path P, ∃ n : Nat, m = n ∧ out.filePath = some path ∧ Tells out path n P := by
  rcases h with h | h
  · obtain ⟨-, rfl⟩ := noMockData_eq_ok.mp h
    cases hfound : p.regularFiles.filterMap (mockFindingOf? t p) with
    | nil =>
      rw [hfound] at hline
      cases hline
    | cons first rest =>
      obtain ⟨-, -, hpath, hnumber, hcontext⟩ := mockOutcome_cons first rest
      rw [hfound, hnumber] at hline
      obtain ⟨n, hn, rfl⟩ := Option.map_eq_some_iff.mp hline
      refine ⟨first.file, _, n, rfl, hpath, .mock _ hcontext ?_⟩
      exact List.mem_map.mpr ⟨first, List.mem_cons_self, record_eq_mockRow.mpr (by rw [← hn])⟩
  · obtain ⟨-, rfl⟩ := noSecrets_eq_ok.mp h
    cases hfound : (scannedPaths p ×ˢ secretKinds).filterMap fun pk =>
        secretFinding? t p pk.1 pk.2 with
    | nil =>
      rw [hfound] at hline
      cases hline
    | cons first rest =>
      obtain ⟨pk, hpk, hfinding⟩ := List.mem_filterMap.mp (hfound ▸ List.mem_cons_self)
      have hk : pk.2 ∈ secretKinds := (List.mem_product.mp hpk).2
      obtain ⟨-, hname, -⟩ := (secretFinding?_eq_some hk).mp hfinding
      rw [hfound] at hline
      obtain rfl := Option.some.inj hline
      refine ⟨first.file, _, first.line, rfl, rfl, .secret pk.2 _ hk rfl ?_⟩
      exact List.mem_map.mpr ⟨first, List.mem_cons_self, record_eq_secretRow.mpr (by rw [← hname])⟩

/-! ## Where it stands -/

theorem exists_firstLine {text : Text}
    (hleast : IsLeast {n | LineAt text.uniformLineEnds.lines P n} n) : ∃ front line back,
      text = front ++ line ++ back ∧ FirstLine P front line back ∧ n = 1 + front.endCount := by
  obtain ⟨⟨line, hpos, hline, hP⟩, hlower⟩ := hleast
  obtain ⟨front, back, rfl, hisLine, hends⟩ := Text.exists_isLine hline
  refine ⟨front, line, back, rfl, ⟨hisLine, hP, ?_⟩, by omega⟩
  intro front' line' back' heq hisLine' hP'
  refine Nat.not_lt.mp fun hlt => ?_
  -- a line that begins further in front has a smaller number, and `n` is the least one
  have hne : line' ++ back' ≠ [] := by
    intro hnil
    rw [List.append_assoc, hnil, List.append_nil] at heq
    rw [heq, List.length_append, List.length_append] at hlt
    omega
  have hnumber := hisLine'.getElem? hne
  rw [heq] at hnumber
  have hle : n ≤ front'.endCount + 1 := hlower ⟨line', Nat.succ_pos _, hnumber, hP'⟩
  have hcount := hisLine'.endCount_lt hisLine heq hlt
  omega

/-- **The number of the first line counts the line feeds in front of it by their bytes**, and the
other line ends. -/
theorem exists_firstLine_bytes (hread : t.read (p.place path) = .ok bytes)
    (hleast : IsLeast {n | LineAt (t.linesAt (p.place path)) P n} n) :
    ∃ before after front line back, bytes = before ++ after ∧ Utf8.decode before = .ok front ∧
      Utf8.decode after = .ok (line ++ back) ∧ FirstLine P front line back ∧
      n = 1 + before.count 10 + front.otherEnds := by
  have htext := Tree.textAt_of_read hread
  cases hdecode : Utf8.decode bytes with
  | error e =>
    obtain ⟨⟨line, -, hline, -⟩, -⟩ := hleast
    rw [Tree.linesAt, htext, hdecode] at hline
    cases hline
  | ok text =>
    rw [hdecode] at htext
    rw [Tree.linesAt_of_textAt htext] at hleast
    obtain ⟨front, line, back, rfl, hfirst, hn⟩ := exists_firstLine hleast
    obtain ⟨hplain, rfl⟩ := Utf8.decode_eq_ok.mp hdecode
    rw [List.append_assoc] at hplain
    rw [List.append_assoc, List.flatMap_append]
    obtain ⟨hfront, hrest⟩ := List.forall_mem_append.mp hplain
    refine ⟨_, _, front, line, back, rfl, Utf8.decode_eq_ok.mpr ⟨hfront, rfl⟩,
      Utf8.decode_eq_ok.mpr ⟨hrest, rfl⟩, hfirst, ?_⟩
    have hcount : (front.flatMap Utf8.encodePoint).count 10 = front.count Text.feed :=
      Utf8.count_encode front
    rw [Text.endCount] at hn
    omega

/-- The record of a file has room for a line that begins in front of its end. -/
theorem count_lt_lineTotal {before after : List UInt8} (h : after ≠ []) :
    before.count 10 < Listing.lineTotal (before ++ after) := by
  have hlast : (before ++ after).getLast? = after.getLast? := by
    rw [List.getLast?_append, Option.or_of_isSome (by simp [h])]
  rw [Listing.lineTotal, List.count_append, hlast]
  by_cases hfeed : after.getLast? = some 10
  · have hpos := List.count_pos_iff.mpr (List.mem_of_getLast? hfeed)
    omega
  · rw [if_neg (by simp [h, hfeed])]
    omega

theorem lineTotal_of_lineCount {o : SearchOptions} {total : Int}
    (h : (Listing.fileRecord o path bytes).lineCount = some total) :
    total = Listing.lineTotal bytes := by
  rw [Listing.fileRecord, Listing.countLines_eq] at h
  split at h
  · split at h
    · exact (Option.some.inj h).symm
    · cases h
  · cases h

/-- **The number that is told of a line is the one that its line feeds give it**, and one that the
record of the file has room for, if and only if no other line end is in front of the line. -/
theorem lineNumbers_iff (h : noMockData t p = .ok out ∨ noSecrets t p = .ok out) :
    (∀ m, out.lineNumber = some m →
      ∃ path P, ∃ n : Nat, m = n ∧ out.filePath = some path ∧ Tells out path n P) ∧
    ∀ path n P, Tells out path n P → ∀ o bytes total, t.read (p.place path) = .ok bytes →
      (Listing.fileRecord o path bytes).lineCount = some total →
        ∃ before after front line back, bytes = before ++ after ∧
          Utf8.decode before = .ok front ∧ Utf8.decode after = .ok (line ++ back) ∧
          FirstLine P front line back ∧ n = 1 + before.count 10 + front.otherEnds ∧
          ((1 ≤ n ∧ n ≤ total ∧ n = 1 + before.count 10) ↔ front.otherEnds = 0) := by
  refine ⟨fun m => exists_tells h, fun path n P htells o bytes total hread htotal => ?_⟩
  obtain ⟨before, after, front, line, back, rfl, hfront, hback, hfirst, hn⟩ :=
    exists_firstLine_bytes hread (htells.isLeast h)
  refine ⟨before, after, front, line, back, rfl, hfront, hback, hfirst, hn, fun hcount => ?_,
    fun hnone => ?_⟩
  · omega
  · have hafter : after ≠ [] := by
      rintro rfl
      obtain rfl := (List.append_eq_nil_iff.mp (Except.ok.inj hback).symm).1
      exact htells.not_nil hfirst.holds
    have hlt : before.count 10 < Listing.lineTotal (before ++ after) := count_lt_lineTotal hafter
    rw [lineTotal_of_lineCount htotal]
    omega

end

/-- A line that looks made up, behind a form feed. -/
def formFeed : List UInt8 := [0x0c, 0x6d, 0x6f, 0x63, 0x6b, 0x0a]

/-- The line is told of as the second one, and there is one line in the record of the file. -/
theorem lineNumbers_formFeed : ∃ out, noMockData (sourceTree formFeed) (sourcePackage formFeed) =
      .ok out ∧ Tells out "a.py" 2 IsMocked ∧ (sourceFile formFeed).lineCount = some 1 ∧
    ∃ before after front line back, formFeed = before ++ after ∧
      Utf8.decode before = .ok front ∧ Utf8.decode after = .ok (line ++ back) ∧
      FirstLine IsMocked front line back ∧ before.count 10 = 0 ∧ front.otherEnds = 1 := by
  have hout : noMockData (sourceTree formFeed) (sourcePackage formFeed) =
      .ok (mockOutcome [⟨"a.py", some 2⟩]) := rfl
  have htells : Tells (mockOutcome [⟨"a.py", some 2⟩]) "a.py" 2 IsMocked :=
    .mock _ rfl List.mem_cons_self
  have hcount : (sourceFile formFeed).lineCount = some 1 := rfl
  obtain ⟨before, after, front, line, back, hbytes, hfront, hback, hfirst, hn, hiff⟩ :=
    (lineNumbers_iff (.inl hout)).2 "a.py" 2 IsMocked htells .default formFeed 1 rfl hcount
  refine ⟨_, hout, htells, hcount, before, after, front, line, back, hbytes, hfront, hback, hfirst,
    ?_⟩
  have hother : front.otherEnds ≠ 0 := fun hnone => absurd (hiff.mpr hnone).2.1 (by decide)
  omega

end Check

end PackageAudit
