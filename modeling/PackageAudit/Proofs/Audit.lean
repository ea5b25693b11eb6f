import PackageAudit.Audit
import PackageAudit.Proofs.Check.Builtin

/-! # The verdicts of an audit

`audit_eq_ok` and `evaluate_eq_ok` take a report apart into the description of the package and one
verdict for each rule. With the checks that come with the audit a verdict says what the check has
found, unless the deadline keeps it from answering (`status_of_settle`, `isFixable_of_settle`).
-/

namespace PackageAudit

section
variable {t : Tree} {o : AuditOptions} {path : Text}

/-- The rules that are checked for a package. -/
def Auditor.rules (a : Auditor) (p : Package) (o : AuditOptions) : List Rule :=
  a.catalog.applicable p o.included o.excluded

theorem audit_eq_ok {a : Auditor} {r : Report} : a.audit t path o = .ok r ↔
    a.reportFault = none ∧ ∃ p vs, describe t a.settings path o.search = .ok p ∧
      a.verdicts t p o = .ok vs ∧
      r = .build p vs ((a.rules p o).map (·.id)) o.excluded 0 := by
  unfold Auditor.audit Auditor.report
  cases describe t a.settings path o.search with
  | error f => simp [bind, Except.bind]
  | ok p =>
    simp only [bind, Except.bind]
    cases hv : a.verdicts t p o with
    | error f => simp [hv]
    | ok vs =>
      cases a.reportFault with
      | some f => simp [throw, throwThe, MonadExceptOf.throw]
      | none =>
        constructor
        · intro h
          cases h
          exact ⟨rfl, p, vs, rfl, hv, rfl⟩
        · rintro ⟨-, _, vs', hp, hvs, rfl⟩
          cases hp
          cases hv.symm.trans hvs
          rfl

end

section
variable {cat : Catalog} {t : Tree} {p : Package} {d : Deadline}

theorem evaluate_cons_eq_ok {r : Rule} {rules : List Rule} {vs : List Verdict} :
    evaluate cat t p d (r :: rules) = .ok vs ↔ ∃ v rest,
      Evaluation.evaluateRule cat t p d r = .ok v ∧ evaluate cat t p d rules = .ok rest ∧
        vs = v :: rest := by
  rw [evaluate]
  cases Evaluation.evaluateRule cat t p d r with
  | error f => simp
  | ok v =>
    cases evaluate cat t p d rules with
    | error f => simp
    | ok rest => simp [eq_comm]

theorem mem_evaluate {v : Verdict} : ∀ {rules : List Rule} {vs : List Verdict},
    evaluate cat t p d rules = .ok vs → v ∈ vs →
      ∃ r ∈ rules, Evaluation.evaluateRule cat t p d r = .ok v
  | [], vs, h, hv => by
    cases h
    cases hv
  | r :: rules, vs, h, hv => by
    obtain ⟨first, rest, hfirst, hrest, rfl⟩ := evaluate_cons_eq_ok.mp h
    rcases List.mem_cons.mp hv with rfl | hv
    · exact ⟨r, List.mem_cons_self, hfirst⟩
    · obtain ⟨r', hr', he⟩ := mem_evaluate hrest hv
      exact ⟨r', List.mem_cons_of_mem r hr', he⟩

theorem evaluate_mem {r : Rule} : ∀ {rules : List Rule} {vs : List Verdict},
    evaluate cat t p d rules = .ok vs → r ∈ rules →
      ∃ v ∈ vs, Evaluation.evaluateRule cat t p d r = .ok v
  | r' :: rules, vs, h, hr => by
    obtain ⟨first, rest, hfirst, hrest, rfl⟩ := evaluate_cons_eq_ok.mp h
    rcases List.mem_cons.mp hr with rfl | hr
    · exact ⟨first, List.mem_cons_self, hfirst⟩
    · obtain ⟨v, hv, he⟩ := evaluate_mem hrest hr
      exact ⟨v, List.mem_cons_of_mem first hv, he⟩

theorem evaluate_ok : ∀ {rules : List Rule},
    (∀ r ∈ rules, ∃ v, Evaluation.evaluateRule cat t p d r = .ok v) →
      ∃ vs, evaluate cat t p d rules = .ok vs
  | [], _ => ⟨[], rfl⟩
  | r :: rules, h => by
    obtain ⟨v, hv⟩ := h r List.mem_cons_self
    obtain ⟨vs, hvs⟩ := evaluate_ok fun r' hr => h r' (List.mem_cons_of_mem r hr)
    exact ⟨v :: vs, evaluate_cons_eq_ok.mpr ⟨v, vs, hv, hvs, rfl⟩⟩

theorem evaluate_error {before after : List Rule} {r : Rule} {f : Fault}
    (hbefore : ∀ r' ∈ before, ∃ v, Evaluation.evaluateRule cat t p d r' = .ok v)
    (hr : Evaluation.evaluateRule cat t p d r = .error f) :
    evaluate cat t p d (before ++ r :: after) = .error f := by
  induction before with
  | nil => rw [List.nil_append, evaluate, hr]
  | cons r' before ih =>
    obtain ⟨⟨v, hv⟩, hrest⟩ := List.forall_mem_cons.mp hbefore
    rw [List.cons_append, evaluate, hv, ih hrest]

end

namespace Evaluation

section
variable {r : Rule} {v : Verdict}

/-- A verdict that is read keeps the rule and the message of its record. -/
theorem fields_of_read {ms : Json.Members} (h : Verdict.read ms = .accepted v) :
    Schema.required ms "rule_id" Schema.text = .accepted v.ruleId ∧
    Schema.required ms "message" Schema.text = .accepted v.message := by
  unfold Verdict.read at h
  simp only [Checked.seqLeft_eq_accepted, Checked.seq_eq_accepted, Checked.map_eq_accepted] at h
  obtain ⟨⟨h, -⟩, -⟩ := h
  -- one step for each of the fields behind the message, and for those between it and the rule
  iterate 5 obtain ⟨_, _, h, -, rfl⟩ := h
  obtain ⟨_, message, h, hmessage, rfl⟩ := h
  iterate 4 obtain ⟨_, _, h, -, rfl⟩ := h
  obtain ⟨id, hid, rfl⟩ := h
  exact ⟨hid, hmessage⟩

theorem ruleId_of_looseVerdict {o : LooseOutcome} (h : looseVerdict r o = .accepted v) :
    v.ruleId = r.id :=
  (Checked.accepted.inj (fields_of_read h).1).symm

/-- **A verdict is about its rule**, whatever the check has answered. -/
theorem ruleId_of_settle {d : Deadline} {a : Answer} (h : settle r d a = .ok v) :
    v.ruleId = r.id := by
  unfold settle at h
  split at h
  · cases h
  · cases h
    rfl
  · split at h
    · cases h
      rfl
    · split at h
      · cases h
        rfl
      · exact ruleId_of_looseVerdict (Checked.toExcept_eq_ok.mp h)
      · cases h
        rfl
      · cases h
        rfl
      · cases h
        rfl

theorem ruleId_of_evaluateRule {cat : Catalog} {t : Tree} {p : Package} {d : Deadline}
    (h : evaluateRule cat t p d r = .ok v) : v.ruleId = r.id := by
  unfold evaluateRule at h
  split at h
  · cases h
    rfl
  · exact ruleId_of_settle h

end

/-- Is there time for a check to answer? -/
def HasTime (d : Deadline) : Prop := ∃ x, d = .seconds x ∧ x.isPositive = true

/-- The outcome of a check that answers in time. -/
def found? (d : Deadline) (e : Except Fault Outcome) : Option Outcome :=
  match d with
  | .seconds x => if x.isPositive then e.toOption else none
  | .beyond _ => none

theorem found?_eq_some {d : Deadline} {e : Except Fault Outcome} {out : Outcome} :
    found? d e = some out ↔ HasTime d ∧ e = .ok out := by
  unfold found? HasTime
  cases d with
  | beyond n => simp
  | seconds x =>
    cases hx : x.isPositive <;> cases e <;> simp [hx, Except.toOption]

section
variable {r : Rule} {d : Deadline} {e : Except Fault Outcome} {v : Verdict}

theorem ofFault_error (s : Binary64) (f : Fault) :
    (ofFault s f).status = .error ∧ (ofFault s f).canAutoFix = some false := by
  unfold ofFault
  split
  · exact ⟨rfl, rfl⟩
  · split <;> exact ⟨rfl, rfl⟩
  · exact ⟨rfl, rfl⟩
  · exact ⟨rfl, rfl⟩

theorem settle_ofExcept (h : settle r d (.ofExcept e) = .ok v) : v.ruleId = r.id ∧
    match found? d e with
    | some out => v = verdict r out
    | none => v.status = .error := by
  unfold settle at h
  unfold found?
  split at h
  · cases h
  · cases h
    exact ⟨rfl, rfl⟩
  · next s =>
    by_cases hs : s.isPositive = true
    · simp only [hs, Bool.not_true, Bool.false_eq_true, if_false] at h
      cases e with
      | ok out =>
        cases h
        simp only [hs, if_true, Except.toOption]
        exact ⟨rfl, trivial⟩
      | error f =>
        cases h
        simp only [hs, if_true, Except.toOption]
        exact ⟨rfl, (ofFault_error s f).1⟩
    · simp only [hs, Bool.not_false, if_true] at h
      cases h
      simp only [hs]
      exact ⟨rfl, rfl⟩

theorem settle_ok (hd : d ≠ .beyond true) : ∃ v, settle r d (.ofExcept e) = .ok v := by
  unfold settle
  split
  · exact absurd rfl hd
  · exact ⟨_, rfl⟩
  · split
    · exact ⟨_, rfl⟩
    · cases e <;> exact ⟨_, rfl⟩

theorem status_of_settle (h : settle r d (.ofExcept e) = .ok v) :
    v.status = .pass ↔ ∃ out, found? d e = some out ∧ out.status = .pass := by
  obtain ⟨-, hv⟩ := settle_ofExcept h
  split at hv
  · next out hf =>
    subst hv
    rw [hf]
    exact ⟨fun hp => ⟨out, rfl, hp⟩, fun ⟨_, he, hp⟩ => Option.some.inj he ▸ hp⟩
  · next hf =>
    rw [hv, hf]
    exact ⟨nofun, fun ⟨_, he, _⟩ => nomatch he⟩

theorem isFixable_of_settle (h : settle r d (.ofExcept e) = .ok v) :
    v.isFixable = true ↔ ∃ out, found? d e = some out ∧ out.status = .fail ∧
      out.canAutoFix.getD r.canAutoFix = true := by
  obtain ⟨-, hv⟩ := settle_ofExcept h
  unfold Verdict.isFixable
  split at hv
  · next out hf =>
    subst hv
    rw [hf]
    cases hs : out.status <;> simp [verdict, hs]
  · next hf =>
    rw [hv, hf]
    simp

end

end Evaluation

theorem ruleIds_evaluate {cat : Catalog} {t : Tree} {p : Package} {d : Deadline} :
    ∀ {rules : List Rule} {vs : List Verdict}, evaluate cat t p d rules = .ok vs →
      vs.map (·.ruleId) = rules.map (·.id)
  | [], vs, h => by
    cases h
    rfl
  | r :: rules, vs, h => by
    obtain ⟨v, rest, hv, hrest, rfl⟩ := evaluate_cons_eq_ok.mp h
    rw [List.map_cons, List.map_cons, Evaluation.ruleId_of_evaluateRule hv,
      ruleIds_evaluate hrest]

/-! ## The rules that come with the audit -/

namespace BuiltinCheck

theorem evaluateRule_builtin (s : Settings) (c : BuiltinCheck) (t : Tree) (p : Package)
    (d : Deadline) : Evaluation.evaluateRule (.builtin s) t p d c.rule =
      Evaluation.settle c.rule d (.ofExcept (c.outcome s t p)) := by
  cases c <;> rfl

theorem rule_mem_builtin {s : Settings} {r : Rule} :
    r ∈ (Catalog.builtin s).rules ↔ ∃ c : BuiltinCheck, r = c.rule := by
  unfold Catalog.builtin
  rw [List.mem_map]
  refine exists_congr fun c => ?_
  cases c <;> simp [all, eq_comm]

theorem rule_id_inj {c c' : BuiltinCheck} (h : c.rule.id = c'.rule.id) : c = c' := by
  revert h
  cases c <;> cases c' <;> decide

end BuiltinCheck

/-- The auditor with the rules that come with the audit. -/
def Auditor.builtin (s : Settings) : Auditor := ⟨s, .builtin s, none⟩

/-- The time that a check has. -/
def Auditor.deadline (a : Auditor) (o : AuditOptions) : Deadline :=
  o.ruleTimeout.getD (.seconds a.settings.ruleTimeout)

/-- **A verdict on one of the rules that come with the audit says what the rule's check has found.** -/
theorem verdict_builtin {s : Settings} {t : Tree} {path : Text} {o : AuditOptions} {r : Report}
    (h : (Auditor.builtin s).audit t path o = .ok r) {v : Verdict} (hv : v ∈ r.verdicts) :
    ∃ p, describe t s path o.search = .ok p ∧ ∃ c : BuiltinCheck, v.ruleId = c.rule.id ∧
      (v.status = .pass ↔
        Evaluation.HasTime ((Auditor.builtin s).deadline o) ∧ c.Passes s t p) ∧
      (v.isFixable = true ↔
        Evaluation.HasTime ((Auditor.builtin s).deadline o) ∧ c.Repairable s t p) := by
  obtain ⟨-, p, vs, hp, hvs, rfl⟩ := audit_eq_ok.mp h
  obtain ⟨rule, hrule, he⟩ := mem_evaluate hvs hv
  obtain ⟨c, rfl⟩ := BuiltinCheck.rule_mem_builtin.mp (List.mem_filter.mp hrule).1
  have hset := (BuiltinCheck.evaluateRule_builtin s c t p _).symm.trans he
  refine ⟨p, hp, c, (Evaluation.settle_ofExcept hset).1, ?_, ?_⟩
  · rw [Evaluation.status_of_settle hset]
    simp only [Evaluation.found?_eq_some, and_assoc, exists_and_left]
    rfl
  · rw [Evaluation.isFixable_of_settle hset]
    simp only [Evaluation.found?_eq_some, and_assoc, exists_and_left]
    rfl

/-! ## The rules that a report passes -/

/-- The report has a verdict on a rule, and the rule is passed. -/
def Report.Passed (r : Report) (id : Text) : Prop := ∃ v, r.verdict? id = some v ∧ v.status = .pass

section
variable {s : Settings} {t t' : Tree} {path path' : Text} {o : AuditOptions} {r : Report}
  {p p' : Package} {c : BuiltinCheck}

theorem rules_builtin_eq (p p' : Package) (o : AuditOptions) :
    (Auditor.builtin s).rules p o = (Auditor.builtin s).rules p' o := by
  unfold Auditor.rules Catalog.applicable
  refine List.filter_congr fun rule hrule => ?_
  obtain ⟨c, rfl⟩ := BuiltinCheck.rule_mem_builtin.mp hrule
  have happlies : c.rule.appliesTo p = c.rule.appliesTo p' := by cases c <;> rfl
  rw [happlies]

/-- A report has one verdict for each rule that is checked. -/
theorem ruleIds_of_audit (h : (Auditor.builtin s).audit t path o = .ok r) (p : Package) :
    r.verdicts.map (·.ruleId) = ((Auditor.builtin s).rules p o).map (·.id) := by
  obtain ⟨-, p', vs, -, hvs, rfl⟩ := audit_eq_ok.mp h
  rw [rules_builtin_eq p p']
  exact ruleIds_evaluate hvs

theorem ruleIds_sublist (h : (Auditor.builtin s).audit t path o = .ok r) :
    (r.verdicts.map (·.ruleId)).Sublist (BuiltinCheck.all.map fun c => c.rule.id) := by
  obtain ⟨-, p, -⟩ := audit_eq_ok.mp h
  rw [ruleIds_of_audit h p]
  have hall : (Catalog.builtin s).rules.map (·.id) = BuiltinCheck.all.map fun c => c.rule.id := by
    simp [Catalog.builtin]
  exact hall ▸ List.filter_sublist.map _

theorem nodup_ruleIds (h : (Auditor.builtin s).audit t path o = .ok r) :
    (r.verdicts.map (·.ruleId)).Nodup := by
  have hids : (BuiltinCheck.all.map fun c => c.rule.id).Nodup := by decide
  exact hids.sublist (ruleIds_sublist h)

/-- Where one audit has come to a report, so does every other one with the same options of a package
that can be described. -/
theorem audit_again (h : (Auditor.builtin s).audit t path o = .ok r)
    (hp' : describe t' s path' o.search = .ok p') :
    ∃ r', (Auditor.builtin s).audit t' path' o = .ok r' := by
  obtain ⟨-, p, vs, -, hvs, -⟩ := audit_eq_ok.mp h
  have hagain : ∃ vs', (Auditor.builtin s).verdicts t' p' o = .ok vs' := by
    refine evaluate_ok fun rule hrule => ?_
    change rule ∈ (Auditor.builtin s).rules p' o at hrule
    rw [rules_builtin_eq p' p] at hrule
    obtain ⟨v, -, hv⟩ := evaluate_mem hvs hrule
    obtain ⟨c, rfl⟩ := BuiltinCheck.rule_mem_builtin.mp (List.mem_filter.mp hrule).1
    have hset := (BuiltinCheck.evaluateRule_builtin s c t p _).symm.trans hv
    have hdeadline : (Auditor.builtin s).deadline o ≠ .beyond true := fun hd => by
      unfold Auditor.deadline at hd
      rw [hd] at hset
      cases hset
    obtain ⟨v', hv'⟩ := Evaluation.settle_ok (r := c.rule) (e := c.outcome s t' p') hdeadline
    exact ⟨v', (BuiltinCheck.evaluateRule_builtin s c t' p' _).trans hv'⟩
  obtain ⟨vs', hvs'⟩ := hagain
  exact ⟨_, audit_eq_ok.mpr ⟨rfl, p', vs', hp', hvs', rfl⟩⟩

theorem verdict_builtin_of_id (h : (Auditor.builtin s).audit t path o = .ok r)
    (hp : describe t s path o.search = .ok p) {v : Verdict} (hv : v ∈ r.verdicts)
    (hid : v.ruleId = c.rule.id) :
    (v.status = .pass ↔
      Evaluation.HasTime ((Auditor.builtin s).deadline o) ∧ c.Passes s t p) ∧
    (v.isFixable = true ↔
      Evaluation.HasTime ((Auditor.builtin s).deadline o) ∧ c.Repairable s t p) := by
  obtain ⟨p', hp', c', hid', hpass, hfix⟩ := verdict_builtin h hv
  obtain rfl := Except.ok.inj (hp.symm.trans hp')
  obtain rfl := BuiltinCheck.rule_id_inj (hid.symm.trans hid')
  exact ⟨hpass, hfix⟩

/-- **A report passes a rule if and only if the rule is checked, there is time to do so, and its check
passes.** -/
theorem passed_builtin (h : (Auditor.builtin s).audit t path o = .ok r)
    (hp : describe t s path o.search = .ok p) : r.Passed c.rule.id ↔
      c.rule.id ∈ r.verdicts.map (·.ruleId) ∧
        Evaluation.HasTime ((Auditor.builtin s).deadline o) ∧ c.Passes s t p := by
  constructor
  · rintro ⟨v, hv, hpass⟩
    have hmem := List.mem_of_find?_eq_some hv
    have hid : v.ruleId = c.rule.id := by simpa using List.find?_some hv
    exact ⟨hid ▸ List.mem_map_of_mem hmem, (verdict_builtin_of_id h hp hmem hid).1.mp hpass⟩
  · rintro ⟨hmem, hpass⟩
    obtain ⟨v, hv, hid⟩ := List.mem_map.mp hmem
    cases hfind : r.verdict? c.rule.id with
    | none =>
      refine absurd hid ?_
      simpa using List.find?_eq_none.mp hfind v hv
    | some found =>
      have hfound : found.ruleId = c.rule.id := by simpa using List.find?_some hfind
      exact ⟨found, hfind,
        (verdict_builtin_of_id h hp (List.mem_of_find?_eq_some hfind) hfound).1.mpr hpass⟩

end

end PackageAudit
