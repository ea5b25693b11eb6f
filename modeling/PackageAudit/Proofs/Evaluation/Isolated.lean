import PackageAudit.Proofs.Evaluation.Tasks
import PackageAudit.Report.Basic
import Mathlib.Data.List.Forall2

/-! # Rules do not disturb each other

A rule's verdict depends on the rule and on the answer of its own check only (`ownVerdict`), and
`Describes` is all that it says. `evaluate_isolated`: that is what an evaluation answers, for each rule
and whatever the checks of the others do, unless a check answers with an outcome whose fields do not fit.
-/

namespace PackageAudit

namespace Evaluation

/-- What the check of a rule answers, if the rule has one. -/
def answer? (cat : Catalog) (t : Tree) (p : Package) (r : Rule) : Option Answer :=
  (cat.check? r.id).map fun check => check t p

/-- If the answer is an outcome, its fields fit. -/
def Fits (a : Option Answer) : Prop := ∀ o, a ≠ some (.loose o)

/-- The outcome that a check has found in time. -/
def inTime (s : Binary64) : Option Answer → Option Outcome
  | some (.outcome o) => if s.isPositive then some o else none
  | _ => none

/-- The outcome that is made of an answer that came in time. -/
def heard (s : Binary64) (r : Rule) : Answer → Outcome
  | .outcome o => o
  | .other v => ofOther r v
  | .raised f => ofFault s f
  | .loose _ | .late => timedOut s

/-- The verdict of a rule for the answer of its own check. -/
def ownVerdict (s : Binary64) (r : Rule) : Option Answer → Verdict
  | none => verdict r (unimplemented r)
  | some a => verdict r (if s.isPositive then heard s r a else timedOut s)

/-- The outcome leaves it to the rule whether a repair is possible, or says itself that it is. -/
def Allows (r : Rule) (o : Outcome) : Prop :=
  o.canAutoFix = some true ∨ o.canAutoFix = none ∧ r.canAutoFix = true

/-- What a verdict says of its rule and of the answer of the rule's check. -/
structure Describes (s : Binary64) (r : Rule) (a : Option Answer) (v : Verdict) : Prop where
  ruleId : v.ruleId = r.id
  ruleName : v.ruleName = r.name
  severity : v.severity = r.severity
  category : v.category = some r.category
  missing : a = none → v.status = .fail ∧ v.canAutoFix = false
  /-- The check has raised a fault, answered by something that is no outcome, or not in time. -/
  broken : a ≠ none → inTime s a = none → v.status = .error ∧ v.canAutoFix = false
  found : ∀ o, inTime s a = some o → v.status = o.status ∧ v.message = o.message ∧
    v.filePath = o.filePath ∧ v.lineNumber = o.lineNumber ∧ v.context = o.context
  canAutoFix : v.canAutoFix = true ↔ ∃ o, inTime s a = some o ∧ o.status ≠ .pass ∧ Allows r o

section
variable {cat : Catalog} {t : Tree} {p : Package} {s : Binary64} {r : Rule} {rules : List Rule}
  {o : Outcome} {a : Option Answer} {v : Verdict}

/-! ## The verdict of one rule -/

theorem canAutoFix_verdict : (verdict r o).canAutoFix = true ↔ o.status ≠ .pass ∧ Allows r o := by
  have hne : (o.status != .pass) = true ↔ o.status ≠ .pass := bne_iff_ne
  unfold verdict Allows
  simp only [Bool.and_eq_true, hne]
  refine and_congr_right fun _ => ?_
  cases o.canAutoFix with
  | none => simp
  | some b => simp

theorem canAutoFix_verdict_unfixable (h : o.canAutoFix = some false) :
    (verdict r o).canAutoFix = false := by
  rw [Bool.eq_false_iff, ne_eq, canAutoFix_verdict]
  rintro ⟨-, ht | ⟨hn, -⟩⟩
  · rw [h] at ht
    cases ht
  · rw [h] at hn
    cases hn

theorem heard_error {a : Answer} (h : ∀ o, a ≠ .outcome o) :
    (heard s r a).status = .error ∧ (heard s r a).canAutoFix = some false := by
  cases a with
  | outcome o => exact absurd rfl (h o)
  | loose o => exact ⟨rfl, rfl⟩
  | other v => exact ⟨rfl, rfl⟩
  | raised f => exact ofFault_error s f
  | late => exact ⟨rfl, rfl⟩

theorem describes_missing : Describes s r none (verdict r (unimplemented r)) where
  ruleId := rfl
  ruleName := rfl
  severity := rfl
  category := rfl
  missing _ := ⟨rfl, canAutoFix_verdict_unfixable rfl⟩
  broken h := absurd rfl h
  found _ h := nomatch h
  canAutoFix := by
    rw [canAutoFix_verdict_unfixable rfl]
    simp [inTime]

theorem describes_broken {a : Answer} (hnone : inTime s (some a) = none) (hs : o.status = .error)
    (hfix : o.canAutoFix = some false) : Describes s r (some a) (verdict r o) where
  ruleId := rfl
  ruleName := rfl
  severity := rfl
  category := rfl
  missing h := nomatch h
  broken _ _ := ⟨hs, canAutoFix_verdict_unfixable hfix⟩
  found _ h := nomatch hnone.symm.trans h
  canAutoFix := by
    rw [canAutoFix_verdict_unfixable hfix, hnone]
    simp

theorem describes_found (hs : s.isPositive = true) :
    Describes s r (some (.outcome o)) (verdict r o) := by
  have hin : inTime s (some (.outcome o)) = some o := if_pos hs
  exact {
    ruleId := rfl
    ruleName := rfl
    severity := rfl
    category := rfl
    missing := nofun
    broken := fun _ h => nomatch hin.symm.trans h
    found := fun o' h => by
      cases hin.symm.trans h
      exact ⟨rfl, rfl, rfl, rfl, rfl⟩
    canAutoFix := by
      rw [canAutoFix_verdict, hin]
      simp }

/-- **A rule's verdict describes the rule and the answer of its own check.** -/
theorem describes_ownVerdict (s : Binary64) (r : Rule) (a : Option Answer) :
    Describes s r a (ownVerdict s r a) := by
  cases a with
  | none => exact describes_missing
  | some a =>
    unfold ownVerdict
    cases hs : s.isPositive with
    | false =>
      have hnone : inTime s (some a) = none := by
        unfold inTime
        split
        · rw [hs]
          rfl
        · rfl
      exact describes_broken hnone rfl rfl
    | true =>
      by_cases hout : ∃ o, a = .outcome o
      · obtain ⟨o, rfl⟩ := hout
        exact describes_found hs
      · have hnot : ∀ o, a ≠ .outcome o := fun o h => hout ⟨o, h⟩
        have hnone : inTime s (some a) = none := by
          unfold inTime
          split
          · next o h => exact absurd (Option.some.inj h) (hnot o)
          · rfl
        exact describes_broken hnone (heard_error hnot).1 (heard_error hnot).2

theorem Describes.of_isFixable (h : Describes s r a v) (hv : v.isFixable = true) :
    ∃ o, inTime s a = some o ∧ o.status = .fail ∧ Allows r o := by
  obtain ⟨hfix, hfail⟩ := (Bool.and_eq_true _ _).mp hv
  obtain ⟨o, hin, -, hallows⟩ := h.canAutoFix.mp hfix
  exact ⟨o, hin, (h.found o hin).1.symm.trans (eq_of_beq hfail), hallows⟩

/-! ## The verdicts of all rules -/

theorem settle_eq_ownVerdict {a : Answer} (h : Fits (some a)) :
    settle r (.seconds s) a = .ok (ownVerdict s r (some a)) := by
  unfold settle ownVerdict
  cases hs : s.isPositive with
  | false => simp only [hs, Bool.not_false, Bool.false_eq_true, if_true, if_false]
  | true =>
    simp only [hs, Bool.not_true, Bool.false_eq_true, if_true, if_false]
    cases a with
    | loose o => exact absurd rfl (h o)
    | outcome o => rfl
    | other v => rfl
    | raised f => rfl
    | late => rfl

theorem evaluateRule_eq_ownVerdict (h : Fits (answer? cat t p r)) :
    evaluateRule cat t p (.seconds s) r = .ok (ownVerdict s r (answer? cat t p r)) := by
  unfold answer? at h ⊢
  unfold evaluateRule
  cases hc : cat.check? r.id with
  | none => rfl
  | some check =>
    rw [hc] at h
    exact settle_eq_ownVerdict h

theorem evaluate_eq_map (h : ∀ r ∈ rules, Fits (answer? cat t p r)) :
    evaluate cat t p (.seconds s) rules =
      .ok (rules.map fun r => ownVerdict s r (answer? cat t p r)) := by
  induction rules with
  | nil => rfl
  | cons r rules ih =>
    obtain ⟨hr, hrest⟩ := List.forall_mem_cons.mp h
    exact evaluate_cons_eq_ok.mpr ⟨_, _, evaluateRule_eq_ownVerdict hr, ih hrest, rfl⟩

/-- **Rules do not disturb each other.** The evaluation ends, whatever the checks do and in whatever
order the threads and the loop go on, with one verdict for each rule, in order. A verdict is made of its
rule and of what the rule's own check answers, and nothing counts as repairable but what a check has
found in time. -/
theorem evaluate_isolated (hfit : ∀ r ∈ rules, Fits (answer? cat t p r)) : ∃ vs,
    evaluate cat t p (.seconds s) rules = .ok vs ∧
    Ends cat t p (.seconds s) (fun st => st.phase = .ended (.ok vs)) (.start rules) ∧
    (∀ st result, Reaches cat t p (.seconds s) (.start rules) st → st.phase = .ended result →
      result = .ok vs) ∧
    vs = rules.map (fun r => ownVerdict s r (answer? cat t p r)) ∧
    List.Forall₂ (fun r v => Describes s r (answer? cat t p r) v) rules vs ∧
    ∀ report : Report, report.verdicts = vs → ∀ v ∈ report.fixableViolations,
      ∃ r ∈ rules, v = ownVerdict s r (answer? cat t p r) ∧
        ∃ o, inTime s (answer? cat t p r) = some o ∧ o.status = .fail ∧ Allows r o := by
  have hvs : evaluate cat t p (.seconds s) rules =
      .ok (rules.map fun r => ownVerdict s r (answer? cat t p r)) := evaluate_eq_map hfit
  refine ⟨_, hvs, hvs ▸ evaluation_ends, ?_, rfl, ?_, ?_⟩
  · intro st result hreach hp
    exact (ended_of_reaches hreach hp).trans hvs
  · rw [List.forall₂_map_right_iff]
    apply List.forall₂_same.mpr
    intro r _
    exact describes_ownVerdict s r _
  · intro report hreport v hv
    obtain ⟨hmem, hfix⟩ := List.mem_filter.mp hv
    rw [hreport] at hmem
    obtain ⟨r, hr, rfl⟩ := List.mem_map.mp hmem
    exact ⟨r, hr, rfl, (describes_ownVerdict s r _).of_isFixable hfix⟩

end

namespace Mixed

def tree : Tree := ⟨[], []⟩

def package : Package := ⟨"a", "a", "/a", .utility, "1.0.0", [], [], [], 0⟩

/-- A rule that says that it can be repaired. -/
def rule (id : Text) : Rule :=
  ⟨id, id, [], .structural, .error, .everywhere, true, [], true, .low, []⟩

/-- One check never answers, one raises a fault, one answers with a text, and one with an outcome. -/
def catalog : Catalog where
  rules := []
  checks := [("stuck", fun _ _ => .late),
    ("broken", fun _ _ => .raised (.raised "RuntimeError" "disk on fire")),
    ("odd", fun _ _ => .other (.str "PASS")), ("failing", fun _ _ => .outcome (.failed "missing"))]
  frozen := false

/-- One rule comes twice, and one has no check. -/
def rules : List Rule :=
  [rule "failing", rule "stuck", rule "broken", rule "odd", rule "unknown", rule "failing"]

/-- A second. -/
def deadline : Binary64 := .ofInt 1

/-- Only the rule whose check answers with an outcome is fixable, both times. -/
theorem evaluate_isolated_mixed : (∀ r ∈ rules, Fits (answer? catalog tree package r)) ∧ ∃ vs,
    evaluate catalog tree package (.seconds deadline) rules = .ok vs ∧
    Ends catalog tree package (.seconds deadline) (fun st => st.phase = .ended (.ok vs))
      (.start rules) ∧
    vs.map (fun v => (v.status, v.isFixable)) = [(.fail, true), (.error, false), (.error, false),
      (.error, false), (.fail, false), (.fail, true)] := by
  have hfit : ∀ r ∈ rules, Fits (answer? catalog tree package r) := by
    simp only [rules, List.forall_mem_cons]
    exact ⟨nofun, nofun, nofun, nofun, nofun, nofun, nofun⟩
  obtain ⟨vs, hvs, hends, -, rfl, -, -⟩ := evaluate_isolated (s := deadline) hfit
  exact ⟨hfit, _, hvs, hends, by decide⟩

end Mixed

end Evaluation

end PackageAudit
