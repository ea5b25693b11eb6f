import PackageAudit.Rule.Builtin

/-! # What the repairable checks ask for

A check `Passes`, or it leaves something to repair (`Repairable`). For the checks whose rules can be
repaired there is one lemma for each: what has to be there for the check to pass, and what has to be
missing for a repair.
-/

namespace PackageAudit

namespace Outcome

section
variable (o : Outcome) (message path : Text) (context : Json.Members)

@[simp] theorem status_passed : (passed message).status = .pass := rfl

@[simp] theorem status_failed : (failed message).status = .fail := rfl

@[simp] theorem status_plain (st : Status) : (plain st message).status = st := rfl

@[simp] theorem status_about : (o.about path).status = o.status := rfl

@[simp] theorem status_detailed : (o.detailed context).status = o.status := rfl

@[simp] theorem status_unfixable : o.unfixable.status = o.status := rfl

@[simp] theorem canAutoFix_plain (st : Status) : (plain st message).canAutoFix = none := rfl

@[simp] theorem canAutoFix_passed : (passed message).canAutoFix = none := rfl

@[simp] theorem canAutoFix_failed : (failed message).canAutoFix = none := rfl

@[simp] theorem canAutoFix_about : (o.about path).canAutoFix = o.canAutoFix := rfl

@[simp] theorem canAutoFix_atLine (line : Nat) : (o.atLine line).canAutoFix = o.canAutoFix := rfl

@[simp] theorem canAutoFix_detailed : (o.detailed context).canAutoFix = o.canAutoFix := rfl

@[simp] theorem canAutoFix_unfixable : o.unfixable.canAutoFix = some false := rfl

end

end Outcome

namespace BuiltinCheck

section
variable (c : BuiltinCheck) (s : Settings) (t : Tree) (p : Package)

/-- The check is passed. -/
def Passes : Prop := ∃ out, c.outcome s t p = .ok out ∧ out.status = .pass

/-- The check is failed in a way that can be repaired. -/
def Repairable : Prop :=
  ∃ out, c.outcome s t p = .ok out ∧ out.status = .fail ∧
    out.canAutoFix.getD c.rule.canAutoFix = true

end

section
variable {s : Settings} {t : Tree} {p : Package}

theorem passes_of_ok {c : BuiltinCheck} (out : Outcome) (h : c.outcome s t p = .ok out) :
    c.Passes s t p ↔ out.status = .pass := by
  simp [Passes, h]

theorem repairable_of_ok {c : BuiltinCheck} (out : Outcome) (h : c.outcome s t p = .ok out) :
    c.Repairable s t p ↔ out.status = .fail ∧ out.canAutoFix.getD c.rule.canAutoFix = true := by
  simp [Repairable, h]

/-! ## The manifest -/

theorem passes_manifestValid : manifestValid.Passes s t p ↔
    (Check.declared? p.manifest "name").isSome = true ∧
      (Check.declared? p.manifest "version").isSome = true := by
  rw [passes_of_ok (Check.manifestDeclares s p) rfl, Check.manifestDeclares]
  cases Check.declared? p.manifest "name" <;> cases Check.declared? p.manifest "version" <;> simp

theorem passes_buildScript :
    buildScript.Passes s t p ↔ (Check.buildScript? p.manifest).isSome = true := by
  rw [passes_of_ok (Check.buildScriptDeclared s p) rfl, Check.buildScriptDeclared]
  cases Check.buildScript? p.manifest <;> simp

/-! ## The files that a package has -/

theorem passes_ignoreFile : ignoreFile.Passes s t p ↔ p.hasFile s.ignoreFileName = true := by
  rw [passes_of_ok (Check.ignoreFilePresent s p) rfl, Check.ignoreFilePresent]
  cases p.hasFile s.ignoreFileName <;> simp

theorem repairable_ignoreFile :
    ignoreFile.Repairable s t p ↔ p.hasFile s.ignoreFileName = false := by
  rw [repairable_of_ok (Check.ignoreFilePresent s p) rfl, Check.ignoreFilePresent]
  cases p.hasFile s.ignoreFileName <;> simp [rule]

/-- The number of files below a directory. -/
def filesBelow (p : Package) (folder : Text) : Nat :=
  p.regularFiles.countP fun f => f.path.startsWith (folder ++ "/")

theorem passes_testDirectory : testDirectory.Passes s t p ↔
    ∃ folder, Check.testFolders.find? p.hasFolder = some folder ∧ filesBelow p folder ≠ 0 := by
  rw [passes_of_ok (Check.testFolderFilled p) rfl, Check.testFolderFilled]
  cases Check.testFolders.find? p.hasFolder with
  | none => simp
  | some folder =>
    simp only [Option.some.injEq, exists_eq_left']
    unfold filesBelow
    split
    · next h => simp [h]
    · next h => exact iff_of_true rfl h

theorem repairable_testDirectory :
    testDirectory.Repairable s t p ↔ Check.testFolders.find? p.hasFolder = none := by
  rw [repairable_of_ok (Check.testFolderFilled p) rfl, Check.testFolderFilled]
  cases Check.testFolders.find? p.hasFolder with
  | none => simp [rule]
  | some folder =>
    simp only
    split <;> simp

/-! ## The files that describe a package -/

theorem passes_readmeExists : readmeExists.Passes s t p ↔
    ∃ f text, Check.readme? s p = some f ∧ Check.textOf t p f.path = .ok text ∧
      s.readmeMinLength ≤ (text.getD []).trim.length := by
  unfold Passes outcome Check.readmeLongEnough
  cases Check.readme? s p with
  | none => simp [pure, Except.pure]
  | some f =>
    cases ht : Check.textOf t p f.path with
    | error f => simp [ht, bind, Except.bind]
    | ok text =>
      by_cases hlen : (text.getD []).trim.length < s.readmeMinLength
      · simp [ht, bind, Except.bind, pure, Except.pure, hlen]
      · simp [ht, bind, Except.bind, pure, Except.pure, hlen, Nat.le_of_not_lt hlen]

/-- A readme is repaired if there is none; one that is too short is not. -/
theorem repairable_readmeExists :
    readmeExists.Repairable s t p ↔ Check.readme? s p = none := by
  unfold Repairable outcome Check.readmeLongEnough
  cases Check.readme? s p with
  | none => simp [pure, Except.pure, rule]
  | some f =>
    cases ht : Check.textOf t p f.path with
    | error f => simp [ht, bind, Except.bind]
    | ok text =>
      by_cases hlen : (text.getD []).trim.length < s.readmeMinLength
      · simp [ht, bind, Except.bind, pure, Except.pure, hlen]
      · simp [ht, bind, Except.bind, pure, Except.pure, hlen]

theorem passes_typeConfig : typeConfig.Passes s t p ↔
    p.hasFile s.typeConfigName = true ∧ ∃ text,
      Check.textOf t p s.typeConfigName = .ok (some text) ∧ text.isBlank = false ∧
        text.anywhere Check.compilerOptionsHere = true := by
  unfold Passes outcome Check.typeConfigDeclares
  cases hf : p.hasFile s.typeConfigName with
  | false => simp [hf, pure, Except.pure]
  | true =>
    cases ht : Check.textOf t p s.typeConfigName with
    | error f => simp [hf, ht, bind, Except.bind]
    | ok text =>
      cases text with
      | none => simp [hf, ht, bind, Except.bind, pure, Except.pure]
      | some text =>
        cases hb : text.isBlank with
        | true => simp [hf, ht, bind, Except.bind, pure, Except.pure, Option.filter, hb]
        | false =>
          cases ho : text.anywhere Check.compilerOptionsHere <;>
            simp [hf, ht, bind, Except.bind, pure, Except.pure, Option.filter, hb, ho]

/-- A type configuration is repaired if it is missing, blank or cannot be read as a text. -/
theorem repairable_typeConfig : typeConfig.Repairable s t p ↔
    p.hasFile s.typeConfigName = false ∨ ∃ text,
      Check.textOf t p s.typeConfigName = .ok text ∧ ∀ found ∈ text, found.isBlank = true := by
  unfold Repairable outcome Check.typeConfigDeclares
  cases hf : p.hasFile s.typeConfigName with
  | false => simp [hf, pure, Except.pure, rule]
  | true =>
    cases ht : Check.textOf t p s.typeConfigName with
    | error f => simp [hf, ht, bind, Except.bind]
    | ok text =>
      cases text with
      | none => simp [hf, ht, bind, Except.bind, pure, Except.pure, rule]
      | some text =>
        cases hb : text.isBlank with
        | true => simp [hf, ht, bind, Except.bind, pure, Except.pure, Option.filter, hb, rule]
        | false =>
          cases ho : text.anywhere Check.compilerOptionsHere <;>
            simp [hf, ht, bind, Except.bind, pure, Except.pure, Option.filter, hb, ho]

/-! ## What cannot be repaired -/

theorem not_repairable_of_rule {c : BuiltinCheck} (hrule : c.rule.canAutoFix = false)
    (h : ∀ out, c.outcome s t p = .ok out → out.canAutoFix = none) : ¬ c.Repairable s t p := by
  rintro ⟨out, hout, -, hfix⟩
  rw [h out hout, Option.getD_none, hrule] at hfix
  cases hfix

theorem not_repairable_noMockData : ¬ noMockData.Repairable s t p := by
  refine not_repairable_of_rule rfl fun out hout => ?_
  cases hfound : Check.mockFindings t p with
  | error f => simp [outcome, Check.noMockData, hfound, bind, Except.bind] at hout
  | ok found =>
    simp only [outcome, Check.noMockData, hfound, bind, Except.bind, pure, Except.pure] at hout
    cases hout
    unfold Check.mockOutcome
    split
    · rfl
    · split <;> rfl

theorem not_repairable_fileSize : ¬ fileSize.Repairable s t p := by
  refine not_repairable_of_rule rfl fun out hout => ?_
  cases hout
  unfold Check.filesSmallEnough
  split <;> rfl

theorem not_repairable_securityConfig : ¬ securityConfig.Repairable s t p := by
  refine not_repairable_of_rule rfl fun out hout => ?_
  cases hfound : Check.secretFindings t p with
  | error f => simp [outcome, Check.noSecrets, hfound, bind, Except.bind] at hout
  | ok found =>
    simp only [outcome, Check.noSecrets, hfound, bind, Except.bind, pure, Except.pure] at hout
    cases hout
    unfold Check.secretOutcome
    split <;> rfl

theorem passes_of_not_repairable {c : BuiltinCheck}
    (hc : c ∈ [manifestValid, buildScript, ignoreFile]) (h : ¬ c.Repairable s t p) :
    c.Passes s t p := by
  simp only [List.mem_cons, List.not_mem_nil, or_false] at hc
  rcases hc with rfl | rfl | rfl
  · refine passes_manifestValid.mpr ?_
    rw [repairable_of_ok (Check.manifestDeclares s p) rfl, Check.manifestDeclares] at h
    revert h
    cases Check.declared? p.manifest "name" <;> cases Check.declared? p.manifest "version" <;>
      simp [rule]
  · refine passes_buildScript.mpr ?_
    rw [repairable_of_ok (Check.buildScriptDeclared s p) rfl, Check.buildScriptDeclared] at h
    revert h
    cases Check.buildScript? p.manifest <;> simp [rule]
  · rw [repairable_ignoreFile, Bool.not_eq_false] at h
    exact passes_ignoreFile.mpr h

end

end BuiltinCheck

end PackageAudit
