import PackageAudit.Proofs.Audit
import PackageAudit.Repair.Remedies

/-! # What the remedies that come with the audit write

Each remedy answers the violations of one check (`BuiltinRemedy.check`) and writes one file
(`BuiltinRemedy.file`, `mem_plan`), the one for tests in a directory that it makes. What the plans
are made of is said once for each remedy (`completeManifest_eq_ok` and its siblings).
-/

namespace PackageAudit

open Json (Members)

namespace BuiltinRemedy

/-- The check whose violations a remedy answers. -/
def check : BuiltinRemedy → BuiltinCheck
  | manifest => .manifestValid
  | readme => .readmeExists
  | typeConfig => .typeConfig
  | testDirectory => .testDirectory
  | buildScript => .buildScript
  | ignoreFile => .ignoreFile

theorem ruleId_eq (r : BuiltinRemedy) : r.ruleId = r.check.rule.id := by
  cases r <;> rfl

theorem ruleId_inj {r r' : BuiltinRemedy} (h : r.ruleId = r'.ruleId) : r = r' := by
  cases r <;> cases r' <;> first | rfl | exact absurd h (by decide)

/-- The path of the file that a remedy writes. -/
def file (s : Settings) : BuiltinRemedy → Text
  | manifest => s.manifestName
  | readme => s.readmeName
  | typeConfig => s.typeConfigName
  | testDirectory => "tests/smoke.test.js"
  | buildScript => s.manifestName
  | ignoreFile => s.ignoreFileName

end BuiltinRemedy

section
variable {site : Site} {v : Verdict} {actions : List Action} {a : Action}

theorem find?_builtin {c : BuiltinCheck} {remedy : Remedy}
    (h : Remedies.builtin.find? c.rule.id = some remedy) :
    ∃ r : BuiltinRemedy, r.check = c ∧ remedy = r.plan := by
  obtain ⟨x, hx, rfl⟩ := Option.map_eq_some_iff.mp h
  obtain ⟨r, -, rfl⟩ := List.mem_map.mp (List.mem_of_find?_eq_some hx)
  have hid : r.ruleId = c.rule.id := by simpa using List.find?_some hx
  exact ⟨r, BuiltinCheck.rule_id_inj (r.ruleId_eq ▸ hid), rfl⟩

/-! ## What the plans are made of -/

/-- The members with texts for the wanted names. -/
def withTexts (ms : Members) (wanted : List (Text × Text)) : Members :=
  wanted.foldl (fun ms x => Members.insert ms x.1 (.str x.2)) ms

/-- The texts that a manifest has to declare, with the values that they are set to. -/
def wantedTexts (root : Text) : List (Text × Text) := [("name", root), ("version", "1.0.0")]

/-- The wanted texts that a manifest does not declare. -/
def missingTexts (root : Text) (ms : Members) : List (Text × Text) :=
  (wantedTexts root).filter fun x => !Remedies.declares ms x.1

/-- The manifest with its name and version. -/
def completed (root : Text) (ms : Members) : Members := withTexts ms (missingTexts root ms)

/-- The manifest with a build script. -/
def withBuildScript (ms : Members) : Members :=
  Members.insert ms "scripts" (.obj (Members.insert ((ms.members? "scripts").getD []) "build"
    (.str "tsc")))

/-- The plan for a manifest that is there: nothing, or to write it with what is missing. -/
def completion (site : Site) (ms : Members) : List Action :=
  if (missingTexts site.root.name ms).isEmpty then []
  else Remedies.writeJson site.settings.manifestName
    ("Added missing manifest fields: " ++
      Text.join ", " ((missingTexts site.root.name ms).map (·.1)))
    (completed site.root.name ms)

theorem completeManifest_eq_ok : Remedies.completeManifest site = .ok actions ↔
    (Remedies.manifest? site = .ok none ∧
      actions = Remedies.writeJson site.settings.manifestName
        ("Generated " ++ site.settings.manifestName) (Remedies.freshManifest site.root.name)) ∨
    ∃ ms, Remedies.manifest? site = .ok (some ms) ∧ actions = completion site ms := by
  cases hm : Remedies.manifest? site with
  | error f => simp [Remedies.completeManifest, hm, bind, Except.bind]
  | ok found =>
    cases found with
    | none =>
      simp only [Remedies.completeManifest, hm, bind, Except.bind, pure, Except.pure,
        Except.ok.injEq, reduceCtorEq, false_and, exists_false, or_false, true_and]
      exact eq_comm
    | some ms =>
      have hplan : Remedies.completeManifest site = .ok (completion site ms) := by
        unfold Remedies.completeManifest
        rw [hm]
        exact (apply_ite Except.ok _ _ _).symm
      simp only [hplan, Except.ok.injEq, Option.some.injEq, reduceCtorEq, false_and, false_or,
        exists_eq_left']
      exact eq_comm

theorem addBuildScript_eq_ok : Remedies.addBuildScript site v = .ok actions ↔
    ∃ ms, Remedies.manifest? site = .ok (some ms) ∧
      actions = Remedies.writeJson site.settings.manifestName "Added build script"
        (withBuildScript ms) := by
  cases hm : Remedies.manifest? site with
  | error f => simp [Remedies.addBuildScript, hm, bind, Except.bind]
  | ok found =>
    cases found with
    | none =>
      simp [Remedies.addBuildScript, hm, bind, Except.bind, throw, throwThe, MonadExceptOf.throw]
    | some ms =>
      simp only [Remedies.addBuildScript, hm, bind, Except.bind, pure, Except.pure,
        Except.ok.injEq, Option.some.injEq, exists_eq_left']
      exact eq_comm

theorem writeReadme_eq_ok : Remedies.writeReadme site = .ok actions ↔
    ∃ name, Remedies.packageName site = .ok name ∧
      actions = [⟨some site.settings.readmeName, "Generated " ++ site.settings.readmeName,
        some (Remedies.readmeText name)⟩] := by
  unfold Remedies.writeReadme
  cases Remedies.packageName site <;> simp [bind, Except.bind, pure, Except.pure, eq_comm]

theorem addTests_eq_ok : Remedies.addTests site = .ok actions ↔
    ∃ name, Remedies.packageName site = .ok name ∧
      actions = [⟨some "tests", "Created tests/ directory", none⟩,
        ⟨some "tests/smoke.test.js", "Added smoke test",
          some (Remedies.smokeTest name site.settings.manifestName)⟩] := by
  unfold Remedies.addTests
  cases Remedies.packageName site <;> simp [bind, Except.bind, pure, Except.pure, eq_comm]

/-! ## Their actions -/

theorem mem_writeJson {path description : Text} {members : Members}
    (h : a ∈ Remedies.writeJson path description members) :
    a.path = some path ∧ a.content.isSome := by
  rw [List.mem_singleton.mp h]
  exact ⟨rfl, rfl⟩

theorem mem_completeManifest (h : Remedies.completeManifest site = .ok actions)
    (ha : a ∈ actions) : a.path = some site.settings.manifestName ∧ a.content.isSome := by
  rcases completeManifest_eq_ok.mp h with ⟨-, rfl⟩ | ⟨ms, -, rfl⟩
  · exact mem_writeJson ha
  · unfold completion at ha
    split at ha
    · cases ha
    · exact mem_writeJson ha

theorem mem_plan {r : BuiltinRemedy} (h : r.plan site v = .ok actions) (ha : a ∈ actions) :
    (a.path = some (r.file site.settings) ∧ a.content.isSome) ∨
      (r = .testDirectory ∧ a.path = some "tests" ∧ a.content = none) := by
  cases r with
  | manifest => exact .inl (mem_completeManifest h ha)
  | readme =>
    obtain ⟨name, -, rfl⟩ := writeReadme_eq_ok.mp h
    rw [List.mem_singleton.mp ha]
    exact .inl ⟨rfl, rfl⟩
  | typeConfig =>
    cases h
    exact .inl (mem_writeJson ha)
  | testDirectory =>
    obtain ⟨name, -, rfl⟩ := addTests_eq_ok.mp h
    rcases List.mem_cons.mp ha with rfl | ha
    · exact .inr ⟨rfl, rfl, rfl⟩
    · rw [List.mem_singleton.mp ha]
      exact .inl ⟨rfl, rfl⟩
  | buildScript =>
    obtain ⟨ms, -, rfl⟩ := addBuildScript_eq_ok.mp h
    exact .inl (mem_writeJson ha)
  | ignoreFile =>
    cases h
    rw [List.mem_singleton.mp ha]
    exact .inl ⟨rfl, rfl⟩

theorem content_typeConfig (h : BuiltinRemedy.typeConfig.plan site v = .ok actions)
    (ha : a ∈ actions) : a.content = some (Json.document (.obj Remedies.typeConfigTemplate)) := by
  cases h
  rw [List.mem_singleton.mp ha]

end

end PackageAudit
