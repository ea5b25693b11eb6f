import PackageAudit.Proofs.Check.Secrets
import PackageAudit.Proofs.Json.Zones
import PackageAudit.Proofs.Package.Describe
import PackageAudit.Proofs.Text.Breaks

/-! # Secrets in JSON documents

In a JSON document a name is closed by a quote before its colon, and the pattern of a credential has
no room for one. So what is found in a document is never one of its members: a key with its sign
stands in one string (`within_of_head`), and a credential is found if and only if there is such a
string (`secrets_in_json_iff`).
-/

namespace PackageAudit

/-- The outcome tells of a secret of a kind in a file. -/
def Outcome.TellsOf (out : Outcome) (file kind : Text) : Prop :=
  out.status = .fail ∧ ∃ records line, (Text.ofString "findings", Json.arr records) ∈ out.context ∧
    (⟨file, line, kind⟩ : Check.SecretFinding).record ∈ records

namespace Check

open Text (Fed OneLine)

/-! ## What keys are made of -/

namespace SecretKind

section
variable {k : SecretKind} {t : Text}

theorem inner_of_foldsTo {c w : CodePoint} (h : c.foldsTo w = true) (hw : 97 ≤ w.val ∧ w.val ≤ 122) :
    c.val ≠ 34 ∧ c.val ≠ 92 := by
  simp only [CodePoint.foldsTo, Fin.ext_iff, Bool.or_eq_true, Bool.and_eq_true, beq_iff_eq,
    decide_eq_true_eq] at h
  omega

/-- Three letters that no word of JSON has. -/
theorem isBare_of_foldsTo {c w : CodePoint} (h : c.foldsTo w = true)
    (hw : w.val = 112 ∨ w.val = 99 ∨ w.val = 111) : Json.isBare c = false := by
  simp only [CodePoint.foldsTo, Fin.ext_iff, Bool.or_eq_true, Bool.and_eq_true, beq_iff_eq,
    decide_eq_true_eq] at h
  have hval : c.val = 112 ∨ c.val = 80 ∨ c.val = 99 ∨ c.val = 67 ∨ c.val = 111 ∨ c.val = 79 := by
    omega
  have heq (d : CodePoint) (hd : Json.isBare d = false) (hc : c.val = d.val) :
      Json.isBare c = false := by
    rwa [Fin.ext hc]
  rcases hval with hc | hc | hc | hc | hc | hc
  · exact heq 'p' (by decide) hc
  · exact heq 'P' (by decide) hc
  · exact heq 'c' (by decide) hc
  · exact heq 'C' (by decide) hc
  · exact heq 'o' (by decide) hc
  · exact heq 'O' (by decide) hc

/-- A key consists of letters, of all those of its first part among them, and of what may stand
between its parts. -/
theorem Names.letters (hk : k ∈ secretKinds) (h : k.Names t) :
    (∀ c ∈ t, (∃ w : CodePoint, (97 ≤ w.val ∧ w.val ≤ 122) ∧ c.foldsTo w = true) ∨
      c.val = 95 ∨ c.val = 45) ∧ ∀ w ∈ k.key, ∃ c ∈ t, c.foldsTo w = true := by
  have hkeys : (secretKinds.all fun k => k.key.all fun w => 97 ≤ w.val && w.val ≤ 122) = true := by
    decide
  have hkey : ∀ w ∈ k.key, 97 ≤ w.val ∧ w.val ≤ 122 := by
    simpa using List.all_eq_true.mp hkeys k hk
  have hends : ((Text.ofString "key").all fun w => 97 ≤ w.val && w.val ≤ 122) = true := by decide
  have hend : ∀ w ∈ Text.ofString "key", 97 ≤ w.val ∧ w.val ≤ 122 := by simpa using hends
  unfold Names at h
  rcases keyEnd_of_mem hk with hnone | hsome
  · simp only [hnone] at h
    obtain ⟨hletters, hall⟩ := Text.mem_of_foldsTo h
    refine ⟨fun c hc => .inl ?_, hall⟩
    obtain ⟨w, hw, hfold⟩ := hletters c hc
    exact ⟨w, hkey w hw, hfold⟩
  · simp only [hsome] at h
    obtain ⟨first, between, last, rfl, hfirst, hbetween, hlast⟩ := h
    obtain ⟨hletters, hall⟩ := Text.mem_of_foldsTo hfirst
    refine ⟨fun c hc => ?_, fun w hw => ?_⟩
    · rcases List.mem_append.mp hc with hc | hc
      · rcases List.mem_append.mp hc with hc | hc
        · obtain ⟨w, hw, hfold⟩ := hletters c hc
          exact .inl ⟨w, hkey w hw, hfold⟩
        · rcases hbetween with rfl | ⟨d, rfl, hd⟩
          · cases hc
          · rw [List.mem_singleton.mp hc]
            exact .inr (by simpa using hd)
      · obtain ⟨w, hw, hfold⟩ := (Text.mem_of_foldsTo hlast).1 c hc
        exact .inl ⟨w, hend w hw, hfold⟩
    · obtain ⟨c, hc, hfold⟩ := hall w hw
      exact ⟨c, by simp [hc], hfold⟩

theorem Names.inner (hk : k ∈ secretKinds) (h : k.Names t) : ∀ c ∈ t, c.val ≠ 34 ∧ c.val ≠ 92 := by
  intro c hc
  rcases (h.letters hk).1 c hc with ⟨w, hw, hfold⟩ | hc | hc
  · exact inner_of_foldsTo hfold hw
  all_goals omega

theorem Names.exists_not_bare (hk : k ∈ secretKinds) (h : k.Names t) :
    ∃ c ∈ t, Json.isBare c = false := by
  have hkeys : (secretKinds.all fun k => k.key.any fun w =>
      w.val == 112 || (w.val == 99 || w.val == 111)) = true := by decide
  obtain ⟨w, hw, hval⟩ := List.any_eq_true.mp (List.all_eq_true.mp hkeys k hk)
  obtain ⟨c, hc, hfold⟩ := (h.letters hk).2 w hw
  exact ⟨c, hc, isBare_of_foldsTo hfold (by simpa using hval)⟩

theorem inner_of_isSign (h : IsSign t) : ∀ c ∈ t, c.val ≠ 34 ∧ c.val ≠ 92 := by
  obtain ⟨before, c, after, rfl, hbefore, hc, hafter⟩ := h
  have hblank {u : Text} (hu : u.isBlank = true) : ∀ c ∈ u, c.val ≠ 34 ∧ c.val ≠ 92 := by
    intro c hc
    have := c.val_of_isBlank (List.all_eq_true.mp hu c hc)
    omega
  rw [Bool.or_eq_true, beq_iff_eq, beq_iff_eq] at hc
  exact List.forall_mem_append.mpr
    ⟨hblank hbefore, List.forall_mem_cons.mpr ⟨by omega, hblank hafter⟩⟩

/-- **A key and its sign stand in one string of a document.** -/
theorem within_of_head {before head after : Text} (hk : k ∈ secretKinds) (h : k.IsHead head)
    (ht : Json.Spelled (before ++ (head ++ after))) : Json.WithinString before head := by
  obtain ⟨key, sign, rfl, hkey, hsign⟩ := h
  obtain ⟨c, hc, hbare⟩ := hkey.exists_not_bare hk
  exact Json.within_of_spelled ht (List.forall_mem_append.mpr ⟨hkey.inner hk, inner_of_isSign hsign⟩)
    (List.mem_append_left sign hc) hbare

theorem IsCredential.ne_nil (h : k.IsCredential t) : t ≠ [] := by
  obtain ⟨head, value, rfl, -, opening, inner, closing, rfl, -⟩ := h
  simp

end

end SecretKind

/-! ## What is told -/

theorem record_injective : Function.Injective SecretFinding.record := by
  rintro ⟨file, line, kind⟩ ⟨file', line', kind'⟩ h
  simp only [SecretFinding.record, Json.ofNat, Json.obj.injEq, List.cons.injEq, Prod.mk.injEq,
    Json.str.injEq, Json.int.injEq, true_and, and_true, Int.natCast_inj] at h
  obtain ⟨rfl, rfl, rfl⟩ := h
  rfl

theorem tellsOf_secretOutcome {found : List SecretFinding} {file kind : Text} :
    (secretOutcome found).TellsOf file kind ↔
      ∃ line, (⟨file, line, kind⟩ : SecretFinding) ∈ found := by
  cases found with
  | nil =>
    refine iff_of_false (fun h => ?_) (by simp)
    cases h.1
  | cons first rest =>
    constructor
    · rintro ⟨-, records, line, hrecords, hmem⟩
      obtain ⟨-, heq⟩ := Prod.mk.inj (List.mem_singleton.mp hrecords)
      rw [Json.arr.inj heq] at hmem
      exact ⟨line, (List.mem_map_of_injective record_injective).mp hmem⟩
    · rintro ⟨line, hmem⟩
      exact ⟨rfl, _, line, List.mem_singleton.mpr rfl, List.mem_map_of_mem hmem⟩

section
variable {t : Tree} {p : Package} {out : Outcome} {path text : Text} {k : SecretKind}

theorem tellsOf_iff (hout : noSecrets t p = .ok out) (hpath : path ∈ scannedPaths p)
    (hk : k ∈ secretKinds) : out.TellsOf path k.name ↔ ∃ n, HasSecretAt t p path k n := by
  obtain ⟨-, rfl⟩ := noSecrets_eq_ok.mp hout
  rw [tellsOf_secretOutcome, ← secretFinding?_isSome hk]
  simp only [List.mem_filterMap, Option.isSome_iff_exists]
  constructor
  · rintro ⟨line, ⟨other, k'⟩, hmem, hfound⟩
    have hk' : k' ∈ secretKinds := (List.mem_product.mp hmem).2
    obtain ⟨hfile, hkind, -⟩ := (secretFinding?_eq_some hk').mp hfound
    obtain rfl := SecretKind.eq_of_name hk hk' hkind
    obtain rfl : path = other := hfile
    exact ⟨_, hfound⟩
  · rintro ⟨x, hx⟩
    obtain ⟨hfile, hkind, -⟩ := (secretFinding?_eq_some hk).mp hx
    refine ⟨x.line, (path, k), List.mem_product.mpr ⟨hpath, hk⟩, ?_⟩
    rw [hx, ← hfile, ← hkind]

/-- A line of a file has a credential if and only if its text has one that is not broken by a line
end. -/
theorem exists_hasSecretAt_iff (htext : t.textAt (p.place path) = some text) :
    (∃ n, HasSecretAt t p path k n) ↔ ∃ m, m <:+: text ∧ OneLine m ∧ k.IsCredential m := by
  have hfed : Fed text := by
    obtain ⟨-, -, found, -, -, rfl⟩ := Tree.textAt_eq_some.mp htext
    exact Text.fed_uniformLineEnds found
  unfold HasSecretAt LineAt HoldsSecret
  rw [Tree.linesAt_of_textAt htext]
  constructor
  · rintro ⟨n, line, -, hline, m, hm, hcred⟩
    have hmem : line ∈ Text.lines text := List.mem_of_getElem? hline
    have hone : OneLine m := fun c hc => Text.oneLine_of_mem_lines hfed hmem c (hm.subset hc)
    exact ⟨m, (Text.infix_line_iff hfed hone hcred.ne_nil).mp ⟨line, hmem, hm⟩, hone, hcred⟩
  · rintro ⟨m, hm, hone, hcred⟩
    obtain ⟨line, hmem, hline⟩ := (Text.infix_line_iff hfed hone hcred.ne_nil).mpr hm
    obtain ⟨i, hi⟩ := List.mem_iff_getElem?.mp hmem
    exact ⟨i + 1, line, i.succ_pos, hi, m, hline, hcred⟩

/-- **A secret is found in a JSON document if and only if one of the document's strings holds its
key and its sign.** A member is no such place, because the quote that closes its name stands in
front of the colon: where all colons and equals signs are outside strings, nothing is found,
whatever the members are. -/
theorem secrets_in_json_iff {f : PackageFile} {v : Json} (hout : noSecrets t p = .ok out)
    (hf : f ∈ p.regularFiles) (hsuffix : f.suffix = ".json")
    (htext : t.readText (p.place f.path) = .ok text) (hjson : Json.read text = .ok v)
    (hk : k ∈ secretKinds) :
    (out.TellsOf f.path k.name ↔ ∃ before head value after, text = before ++ head ++ value ++ after ∧
      k.IsHead head ∧ k.IsValue value ∧ OneLine (head ++ value) ∧ Json.WithinString before head) ∧
    ((∀ before c after, text = before ++ c :: after → (c.val == 58 || c.val == 61) = true →
      Json.scan .outside before = some .outside) → ¬ out.TellsOf f.path k.name) := by
  have hscanned : isSecretScanned f = true :=
    isSecretScanned_iff.mpr (.inr (.inr (by rw [hsuffix]; decide)))
  have hpath : f.path ∈ scannedPaths p :=
    List.mem_map_of_mem (List.mem_filter.mpr ⟨hf, hscanned⟩)
  have hspelled := Json.spelled_of_read hjson
  have hiff : out.TellsOf f.path k.name ↔ ∃ before head value after,
      text = before ++ head ++ value ++ after ∧ k.IsHead head ∧ k.IsValue value ∧
        OneLine (head ++ value) ∧ Json.WithinString before head := by
    rw [tellsOf_iff hout hpath hk, exists_hasSecretAt_iff (Tree.textAt_of_readText htext)]
    constructor
    · rintro ⟨_, ⟨before, after, rfl⟩, hone, head, value, rfl, hhead, hvalue⟩
      have hspelled : Json.Spelled (before ++ (head ++ (value ++ after))) := by simpa using hspelled
      exact ⟨before, head, value, after, by simp, hhead, hvalue, hone,
        SecretKind.within_of_head hk hhead hspelled⟩
    · rintro ⟨before, head, value, after, rfl, hhead, hvalue, hone, -⟩
      exact ⟨head ++ value, ⟨before, after, by simp⟩, hone, head, value, rfl, hhead, hvalue⟩
  refine ⟨hiff, fun hsigns htold => ?_⟩
  -- the sign of what was found is inside a string
  obtain ⟨before, head, value, after, rfl, hhead, -, -, hwithin⟩ := hiff.mp htold
  obtain ⟨key, sign, rfl, -, blanks, c, more, rfl, -, hc, -⟩ := hhead
  obtain ⟨z, hz, hscan⟩ := hwithin (key ++ blanks) ⟨c :: more, by simp⟩
  have hout := hsigns (before ++ (key ++ blanks)) c (more ++ value ++ after) (by simp) hc
  exact hz (Option.some.inj (hscan.symm.trans hout))

end

/-- A document whose only member is a password. -/
def passwordDocument : Text := "\x7b\"password\": \"hunter2hunter2\"\x7d"

/-- A package with this document. -/
def passwordTree : Tree :=
  ⟨[(["m"], .folder), (["m", "config.json"], .file (passwordDocument.flatMap Utf8.encodePoint))], []⟩

/-- The record of that package. -/
def passwordPackage : Package :=
  ⟨"m", "m", "/m", .utility, "0.0.0", [], [], [⟨"config.json", false, 32, some 1, false⟩], 0⟩

/-- A password that is a member is passed over. -/
theorem secrets_in_json_member :
    (∃ ms, Json.read passwordDocument = .ok (.obj ms) ∧
      Json.Members.text? ms "password" = some (Text.ofString "hunter2hunter2")) ∧
      ∃ out, noSecrets passwordTree passwordPackage = .ok out ∧ out.status = .pass ∧
        ¬ out.TellsOf "config.json" "password" := by
  have htext : passwordTree.readText (passwordPackage.place "config.json") = .ok passwordDocument :=
    Tree.readText_eq_ok.mpr ⟨passwordDocument.flatMap Utf8.encodePoint, passwordDocument,
      by decide +kernel, by decide +kernel, by decide +kernel⟩
  have hmember : (readManifest passwordTree (passwordPackage.place "config.json")).toOption.map
      (Json.Members.text? · "password") = some (some (Text.ofString "hunter2hunter2")) := by
    decide +kernel
  obtain ⟨ms, hjson, hpassword⟩ : ∃ ms, Json.read passwordDocument = .ok (.obj ms) ∧
      Json.Members.text? ms "password" = some (Text.ofString "hunter2hunter2") := by
    cases hms : readManifest passwordTree (passwordPackage.place "config.json") with
    | error f =>
      rw [hms] at hmember
      cases hmember
    | ok ms =>
      rw [hms] at hmember
      obtain ⟨text, htext', hjson⟩ := readManifest_eq_ok.mp hms
      cases htext.symm.trans htext'
      exact ⟨ms, hjson, Option.some.inj hmember⟩
  obtain ⟨out, hout⟩ : ∃ out, noSecrets passwordTree passwordPackage = .ok out :=
    ⟨_, noSecrets_eq_ok.mpr ⟨by decide +kernel, rfl⟩⟩
  have hstatus : (noSecrets passwordTree passwordPackage).toOption.map (·.status) = some .pass := by
    decide +kernel
  rw [hout] at hstatus
  have hsigns : ∀ i < passwordDocument.length, (passwordDocument[i]?.any fun c =>
      c.val == 58 || c.val == 61) = true →
        Json.scan .outside (passwordDocument.take i) = some .outside := by
    decide +kernel
  refine ⟨⟨ms, hjson, hpassword⟩, out, hout, Option.some.inj hstatus, ?_⟩
  have hmem : (⟨"config.json", false, 32, some 1, false⟩ : PackageFile) ∈
      passwordPackage.regularFiles := by
    decide +kernel
  refine (secrets_in_json_iff (k := ⟨"password", "password", none, 8⟩) hout hmem (by decide +kernel)
    htext hjson List.mem_cons_self).2 fun before c after heq hc => ?_
  have hbefore := hsigns before.length (by simp [heq]) (by simpa [heq] using hc)
  rwa [heq, List.take_left] at hbefore

end Check

end PackageAudit
