import PackageAudit.Proofs.Evaluation.Isolated
import PackageAudit.Proofs.Package.Describe
import PackageAudit.Proofs.Schema

/-! # Outcomes that do not fit

An outcome record may hold anything in its fields. `blames_looseVerdict` says what comes of it: a verdict
if all fields fit, and otherwise complaints about those that do not. The evaluation has no verdict for
them and ends there, and with it the audit (`evaluation_malformed`), while all other things that a check
can do cost its own rule an error only.
-/

namespace PackageAudit

namespace LooseOutcome

/-- The fields of an outcome record. -/
inductive Field where
  | status
  | message
  | filePath
  | lineNumber
  | canAutoFix
  | context

/-- The name of a field. -/
def Field.name : Field → Text
  | status => "status"
  | message => "message"
  | filePath => "file_path"
  | lineNumber => "line_number"
  | canAutoFix => "can_auto_fix"
  | context => "context"

/-- A field holds what it may hold. What is said of repairs does not matter if the check is passed. -/
def Fits (o : LooseOutcome) : Field → Prop
  | .status => ∃ s : Status, o.status = .str s.name
  | .message => ∃ t, o.message = .str t
  | .filePath => o.filePath = .null ∨ ∃ t, o.filePath = .str t
  | .lineNumber => o.lineNumber = .null ∨ ∃ i, Schema.integer o.lineNumber = .accepted i
  | .canAutoFix => o.status = .str Status.pass.name ∨ o.canAutoFix = .null ∨
      ∃ b, Schema.truth o.canAutoFix = .accepted b
  | .context => ∃ ms, o.context = .obj ms

section
variable {r : Rule} {o : LooseOutcome}

theorem Field.exists_iff {p : Field → Prop} : (∃ f, p f) ↔ p .status ∨ p .message ∨ p .filePath ∨
    p .lineNumber ∨ p .canAutoFix ∨ p .context := by
  constructor
  · rintro ⟨f, hf⟩
    cases f <;> simp [hf]
  · rintro (h | h | h | h | h | h) <;> exact ⟨_, h⟩

theorem isPassed_iff : o.isPassed = true ↔ o.status = .str Status.pass.name := by
  unfold isPassed
  cases o.status <;> simp

theorem fits_status :
    (∃ s, Schema.oneOf Status.all Status.name o.status = .accepted s) ↔ o.Fits .status := by
  constructor
  · rintro ⟨s, h⟩
    exact ⟨s, Schema.eq_str_of_oneOf h⟩
  · rintro ⟨s, h⟩
    rw [h]
    exact ⟨s, by cases s <;> rfl⟩

theorem fits_message : (∃ t, Schema.text o.message = .accepted t) ↔ o.Fits .message :=
  exists_congr fun _ => Schema.text_eq_accepted

theorem fits_filePath :
    (∃ t, Schema.nullable Schema.text o.filePath = .accepted t) ↔ o.Fits .filePath := by
  rw [Schema.nullable_accepts]
  exact or_congr_right (exists_congr fun _ => Schema.text_eq_accepted)

theorem fits_lineNumber :
    (∃ i, Schema.nullable Schema.integer o.lineNumber = .accepted i) ↔ o.Fits .lineNumber :=
  Schema.nullable_accepts

theorem fits_context : (∃ ms, Schema.members o.context = .accepted ms) ↔ o.Fits .context :=
  exists_congr fun _ => Schema.members_eq_accepted

theorem fits_canAutoFix :
    (∃ b, Schema.truth (o.repairability r) = .accepted b) ↔ o.Fits .canAutoFix := by
  unfold repairability Fits
  rw [← isPassed_iff]
  cases o.isPassed with
  | true => exact ⟨fun _ => .inl rfl, fun _ => ⟨false, rfl⟩⟩
  | false =>
    cases o.canAutoFix with
    | null => exact ⟨fun _ => .inr (.inl rfl), fun _ => ⟨r.canAutoFix, rfl⟩⟩
    | _ => simp

end

end LooseOutcome

namespace Evaluation

open Checked LooseOutcome

/-- **The complaints about an outcome are about the fields that do not fit**, and there is a verdict if
all fit. -/
theorem blames_looseVerdict (r : Rule) (o : LooseOutcome) :
    (looseVerdict r o).Blames fun place => ∃ f : Field, place = [f.name] ∧ ¬o.Fits f := by
  have hseverity : Schema.oneOf Severity.all Severity.name (.str r.severity.name) =
      .accepted r.severity := by
    cases r.severity <;> rfl
  have hcategory : Schema.nullable (Schema.oneOf Category.all Category.name) (.str r.category.name) =
      .accepted (some r.category) := by
    cases r.category <;> rfl
  have hfields := (blames_accepted r.id).map Verdict.mk
    |>.seq (blames_accepted r.name)
    |>.seq ((Schema.simple_oneOf Status.all Status.name o.status).inside "status")
    |>.seq ((Schema.simple_oneOf Severity.all Severity.name (.str r.severity.name)).inside "severity")
    |>.seq ((Schema.simple_nullable (Schema.simple_oneOf Category.all Category.name)
      (.str r.category.name)).inside "category")
    |>.seq ((Schema.simple_text o.message).inside "message")
    |>.seq ((Schema.simple_nullable Schema.simple_text o.filePath).inside "file_path")
    |>.seq ((Schema.simple_nullable Schema.simple_integer o.lineNumber).inside "line_number")
    |>.seq (blames_accepted (if o.isPassed then [] else r.remediation))
    |>.seq ((Schema.simple_truth (o.repairability r)).inside "can_auto_fix")
    |>.seq ((Schema.simple_members o.context).inside "context")
    |>.seqLeft (blames_accepted ())
    |>.seqLeft (blames_accepted ())
  refine hfields.congr fun place => ?_
  simp only [hseverity, hcategory, fits_status, fits_message, fits_filePath, fits_lineNumber,
    fits_canAutoFix, fits_context, Field.exists_iff, Field.name, accepted.injEq, exists_eq',
    not_true_eq_false, and_false, false_or, or_false, or_assoc]

/-- The check of a rule answers, in time, with an outcome that does not fit. -/
def Spoils (cat : Catalog) (t : Tree) (p : Package) (s : Binary64) (r : Rule) : Prop :=
  s.isPositive = true ∧ ∃ o, answer? cat t p r = some (.loose o) ∧ ∃ f : Field, ¬o.Fits f

section
variable {cat : Catalog} {t : Tree} {p : Package} {s : Binary64} {r : Rule} {rules : List Rule}
  {o : LooseOutcome}

/-! ## One outcome -/

theorem settle_loose (hs : s.isPositive = true) :
    settle r (.seconds s) (.loose o) = (looseVerdict r o).toExcept := by
  rw [settle, hs]
  rfl

theorem evaluateRule_of_answer {d : Deadline} {a : Answer} (h : answer? cat t p r = some a) :
    evaluateRule cat t p d r = settle r d a := by
  obtain ⟨check, hc, rfl⟩ := Option.map_eq_some_iff.mp h
  rw [evaluateRule, hc]

theorem evaluateRule_of_misfit (hs : s.isPositive = true)
    (ha : answer? cat t p r = some (.loose o)) (hf : ∃ f : Field, ¬o.Fits f) : ∃ cs,
      (∀ place, place ∈ cs.map (·.place) ↔ ∃ f : Field, place = [f.name] ∧ ¬o.Fits f) ∧
        evaluateRule cat t p (.seconds s) r = .error (.malformed cs) := by
  obtain ⟨f, hf⟩ := hf
  have hplace : ∃ f' : Field, [f.name] = [f'.name] ∧ ¬o.Fits f' := ⟨f, rfl, hf⟩
  obtain ⟨cs, hread, hcs⟩ := (blames_looseVerdict r o).exists_rejected hplace
  rw [evaluateRule_of_answer ha, settle_loose hs]
  exact ⟨cs, hcs, toExcept_eq_error.mpr ⟨cs, hread, rfl⟩⟩

theorem settle_of_missed {a : Answer} (hs : s.isPositive = false) :
    settle r (.seconds s) a = .ok (verdict r (timedOut s)) := by
  unfold settle
  simp only [hs, Bool.not_false, if_true]

theorem exists_evaluateRule_of_missed (hs : s.isPositive = false) :
    ∃ v, evaluateRule cat t p (.seconds s) r = .ok v := by
  unfold evaluateRule
  split
  · exact ⟨_, rfl⟩
  · exact ⟨_, settle_of_missed hs⟩

theorem exists_evaluateRule_iff :
    (∃ v, evaluateRule cat t p (.seconds s) r = .ok v) ↔ ¬Spoils cat t p s r := by
  constructor
  · rintro ⟨v, hv⟩ ⟨hs, o, ha, hf⟩
    obtain ⟨cs, -, herror⟩ := evaluateRule_of_misfit hs ha hf
    cases hv.symm.trans herror
  · intro hfine
    cases hs : s.isPositive with
    | false => exact exists_evaluateRule_of_missed hs
    | true =>
      by_cases hloose : ∃ o, answer? cat t p r = some (.loose o)
      · obtain ⟨o, ha⟩ := hloose
        have hall : ∀ place, ¬∃ f : Field, place = [f.name] ∧ ¬o.Fits f :=
          fun place ⟨f, _, hf⟩ => hfine ⟨hs, o, ha, f, hf⟩
        obtain ⟨v, hv⟩ := (blames_looseVerdict r o).accepted_iff.mpr hall
        rw [evaluateRule_of_answer ha, settle_loose hs]
        exact ⟨v, toExcept_eq_ok.mpr hv⟩
      · exact ⟨_, evaluateRule_eq_ownVerdict fun o ha => hloose ⟨o, ha⟩⟩

/-! ## All rules -/

theorem exists_evaluate_iff : (∃ vs, evaluate cat t p (.seconds s) rules = .ok vs) ↔
    ∀ r ∈ rules, ¬Spoils cat t p s r := by
  constructor
  · rintro ⟨vs, hvs⟩ r hr
    obtain ⟨v, -, hv⟩ := evaluate_mem hvs hr
    exact exists_evaluateRule_iff.mp ⟨v, hv⟩
  · exact fun hfine => evaluate_ok fun r hr => exists_evaluateRule_iff.mpr (hfine r hr)

/-- **An outcome that does not fit ends the evaluation**, and so the audit, with complaints about its
fields. There is a verdict for each rule if and only if there is no such outcome, and of several ones
the first counts. -/
theorem evaluation_malformed (a : Auditor) (t : Tree) (p : Package) (s : Binary64)
    (rules : List Rule) :
    ((∃ vs, ComesTo a.catalog t p (.seconds s) rules (.ok vs)) ↔
      ∀ r ∈ rules, ¬Spoils a.catalog t p s r) ∧
    (∀ vs, ComesTo a.catalog t p (.seconds s) rules (.ok vs) →
      vs.map (·.ruleId) = rules.map (·.id)) ∧
    (∀ before r after o, rules = before ++ r :: after →
      (∀ r' ∈ before, ¬Spoils a.catalog t p s r') → s.isPositive = true →
      answer? a.catalog t p r = some (.loose o) → (∃ f : Field, ¬o.Fits f) → ∃ cs,
        (∀ place, place ∈ cs.map (·.place) ↔ ∃ f : Field, place = [f.name] ∧ ¬o.Fits f) ∧
        ComesTo a.catalog t p (.seconds s) rules (.error (.malformed cs))) ∧
    ∀ path opts, describe t a.settings path opts.search = .ok p → a.deadline opts = .seconds s →
      a.rules p opts = rules →
      ((∃ report, a.audit t path opts = .ok report) ↔
        a.reportFault = none ∧ ∀ r ∈ rules, ¬Spoils a.catalog t p s r) ∧
      ∀ cs, ComesTo a.catalog t p (.seconds s) rules (.error (.malformed cs)) →
        a.audit t path opts = .error (.auditFailed path (Fault.malformed cs).message) := by
  simp only [comesTo_iff]
  refine ⟨exists_evaluate_iff, fun vs hvs => ruleIds_evaluate hvs, ?_, ?_⟩
  · rintro before r after o rfl hbefore hs ha hf
    obtain ⟨cs, hcs, herror⟩ := evaluateRule_of_misfit hs ha hf
    exact ⟨cs, hcs,
      evaluate_error (fun r' hr' => exists_evaluateRule_iff.mpr (hbefore r' hr')) herror⟩
  · rintro path opts hp hd rfl
    have hverdicts : a.verdicts t p opts = evaluate a.catalog t p (.seconds s) (a.rules p opts) := by
      rw [← hd]
      rfl
    refine ⟨?_, fun cs hcs => ?_⟩
    · rw [← exists_evaluate_iff, ← hverdicts]
      constructor
      · rintro ⟨report, hreport⟩
        obtain ⟨hnone, p', vs, hp', hvs, -⟩ := audit_eq_ok.mp hreport
        cases hp.symm.trans hp'
        exact ⟨hnone, vs, hvs⟩
      · rintro ⟨hnone, vs, hvs⟩
        exact ⟨_, audit_eq_ok.mpr ⟨hnone, p, vs, hp, hvs, rfl⟩⟩
    · rw [← hverdicts] at hcs
      rw [Auditor.audit, Auditor.report, hp]
      simp only [bind, Except.bind, hcs]
      rfl

end

/-! ### A line that is no number -/

namespace Unnumbered

def outcome : LooseOutcome := ⟨.str "WARNING", .str "It is odd", .null, .str "many", .obj [], .null⟩

def auditor : Auditor where
  settings := .default
  catalog := ⟨[Mixed.rule "odd", Mixed.rule "fine"],
    [("odd", fun _ _ => .loose outcome), ("fine", fun _ _ => .outcome (.passed "It is there"))], false⟩
  reportFault := none

def tree : Tree := ⟨[(["pkg"], .folder), (["pkg", "package.json"], .file [123, 125])], []⟩

def package : Package :=
  Describe.package .default ⟨.root, ["pkg"]⟩ [] [⟨"package.json", false, 2, some 1, false⟩]

theorem describe_eq : describe tree .default "/pkg" .default = .ok package := by
  have hnames : tree.names ["pkg"] = [Text.ofString "package.json"] :=
    Tree.names_of_ordered (by decide) (by decide)
  exact describe_of_names rfl rfl rfl rfl rfl rfl hnames rfl

theorem not_fits : ¬outcome.Fits .lineNumber := by
  rintro (h | ⟨i, h⟩)
  · cases h
  · cases h

end Unnumbered

open Unnumbered in
/-- There is no verdict for the rule that is passed either, and no report. -/
theorem evaluation_malformed_unnumbered :
    answer? auditor.catalog tree package (Mixed.rule "odd") = some (.loose outcome) ∧ ∃ cs,
      [Field.lineNumber.name] ∈ cs.map (·.place) ∧ [Field.message.name] ∉ cs.map (·.place) ∧
      ComesTo auditor.catalog tree package (.seconds Settings.default.ruleTimeout)
        [Mixed.rule "odd", Mixed.rule "fine"] (.error (.malformed cs)) ∧
      auditor.audit tree "/pkg" .default =
        .error (.auditFailed "/pkg" (Fault.malformed cs).message) := by
  have h := evaluation_malformed auditor tree package Settings.default.ruleTimeout
    [Mixed.rule "odd", Mixed.rule "fine"]
  obtain ⟨cs, hcs, hcomes⟩ := h.2.2.1 [] _ _ outcome rfl nofun (by decide) rfl ⟨_, not_fits⟩
  refine ⟨rfl, cs, (hcs _).mpr ⟨.lineNumber, rfl, not_fits⟩, fun hmem => ?_, hcomes,
    (h.2.2.2 "/pkg" .default describe_eq rfl rfl).2 cs hcomes⟩
  obtain ⟨f, hname, hnot⟩ := (hcs _).mp hmem
  cases f
  case message => exact hnot ⟨_, rfl⟩
  all_goals exact absurd hname (by decide)

end Evaluation

end PackageAudit
