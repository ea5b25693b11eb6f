import PackageAudit.Proofs.Evaluation.Malformed

/-! # Faults and missed deadlines

A check that raises a fault and one that does not answer in time both cost their rule an error, with
different messages. They are told apart by the kind of the fault only (`tells_ofFault`,
`isLate_ofFault`): what reports that time has run out is taken for a missed deadline, whoever raises it,
and what ends an iteration never comes through. `faults_told_iff` says so of the evaluation of a rule.
-/

namespace PackageAudit

namespace Evaluation

/-- The verdict tells of a fault of this kind. -/
def Tells (kind : Text) (v : Verdict) : Prop :=
  Text.ofString "Rule execution failed: " <+: v.message ∧
    v.context.get? "error_type" = some (.str kind)

/-- The message is about a missed deadline. -/
def IsLate (message : Text) : Prop := Text.ofString "Rule execution timed out after " <+: message

/-- The kind of the fault is lost. A kind derived from what ends an iteration survives only by the name
that the waiting gives to its own fault. -/
def Masked (f : Fault) : Prop :=
  (∃ kind text, f = .outOfTime kind text) ∨
    ∃ kind text, f = .endOfIteration kind text ∧ kind ≠ "RuntimeError"

/-- The fault is taken for a missed deadline. -/
def TakenForLate (f : Fault) : Prop :=
  (∃ kind text, f = .outOfTime kind text) ∨ ∃ text, f = .endOfIteration endOfIteration text

/-- The message of an outcome that the check itself has found. -/
def ownMessage? : Answer → Option Text
  | .outcome o => some o.message
  | .loose o =>
    match o.message with
    | .str t => some t
    | _ => none
  | _ => none

section
variable {cat : Catalog} {t : Tree} {p : Package} {s : Binary64} {r : Rule} {check : Check}
  {kind kind' reason : Text} {a : Answer} {v : Verdict}

/-! ## The two messages -/

theorem isLate_timedOut (s : Binary64) : IsLate (timedOut s).message := by
  rw [IsLate, timedOut, Outcome.unfixable, Outcome.plain, List.append_assoc]
  exact List.prefix_append _ _

theorem not_isLate_broken (reason kind : Text) : ¬IsLate (broken reason kind).message := by
  rintro ⟨rest, h⟩
  -- the first difference is after the words that both messages begin with
  have hletter : some (CodePoint.ofChar 't') = some (CodePoint.ofChar 'f') :=
    congrArg (fun message : Text => message[15]?) h
  exact absurd hletter (by decide)

theorem not_tells_timedOut : ¬Tells kind (verdict r (timedOut s)) := fun h => nomatch h.2

theorem tells_broken_iff : Tells kind (verdict r (broken reason kind')) ↔ kind' = kind := by
  have hcontext : (verdict r (broken reason kind')).context.get? "error_type" =
      some (.str kind') := rfl
  have hmessage : Text.ofString "Rule execution failed: " <+:
      (verdict r (broken reason kind')).message := List.prefix_append _ _
  rw [Tells, hcontext, Option.some.injEq, Json.str.injEq]
  exact and_iff_right hmessage

/-! ## One fault -/

/-- **What is told of a fault** is its kind, unless it is masked. -/
theorem tells_ofFault (s : Binary64) (r : Rule) (f : Fault) :
    Tells f.kindName (verdict r (ofFault s f)) ↔ ¬Masked f := by
  cases f with
  | outOfTime kind text =>
    exact iff_of_false not_tells_timedOut fun h => h (.inl ⟨kind, text, rfl⟩)
  | endOfIteration kind text =>
    have hmasked : Masked (.endOfIteration kind text) ↔ kind ≠ "RuntimeError" := by
      simp [Masked]
    rw [hmasked, not_not]
    by_cases hkind : kind = endOfIteration
    · rw [ofFault, if_pos hkind]
      exact iff_of_false not_tells_timedOut (hkind ▸ by decide)
    · rw [ofFault, if_neg hkind, tells_broken_iff]
      exact eq_comm
  | failure g => cases g <;> exact iff_of_true (tells_broken_iff.mpr rfl) (by simp [Masked])
  | _ => exact iff_of_true (tells_broken_iff.mpr rfl) (by simp [Masked])

theorem isLate_ofFault (s : Binary64) (f : Fault) : IsLate (ofFault s f).message ↔ TakenForLate f := by
  cases f with
  | outOfTime kind text => exact iff_of_true (isLate_timedOut s) (.inl ⟨kind, text, rfl⟩)
  | endOfIteration kind text =>
    have htaken : TakenForLate (.endOfIteration kind text) ↔ kind = endOfIteration := by
      simp [TakenForLate]
    rw [htaken]
    by_cases hkind : kind = endOfIteration
    · rw [ofFault, if_pos hkind]
      exact iff_of_true (isLate_timedOut s) hkind
    · rw [ofFault, if_neg hkind]
      exact iff_of_false (not_isLate_broken _ _) hkind
  | failure g => cases g <;> exact iff_of_false (not_isLate_broken _ _) (by simp [TakenForLate])
  | _ => exact iff_of_false (not_isLate_broken _ _) (by simp [TakenForLate])

/-! ## One rule -/

theorem comesTo_singleton_iff {d : Deadline} :
    ComesTo cat t p d [r] (.ok [v]) ↔ evaluateRule cat t p d r = .ok v := by
  rw [comesTo_iff, evaluate_cons_eq_ok]
  constructor
  · rintro ⟨first, rest, hv, -, heq⟩
    cases heq
    exact hv
  · exact fun hv => ⟨v, [], hv, rfl, rfl⟩

theorem message_of_looseVerdict {o : LooseOutcome} (h : looseVerdict r o = .accepted v) :
    o.message = .str v.message :=
  Schema.text_eq_accepted.mp (Checked.inside_eq_accepted.mp (fields_of_read h).2)

/-- What a check answers is taken for a missed deadline, or says itself that it is one. -/
theorem isLate_of_settle (hs : s.isPositive = true) (h : settle r (.seconds s) a = .ok v) :
    IsLate v.message ↔ a = .late ∨ (∃ f, a = .raised f ∧ TakenForLate f) ∨
      ∃ message, ownMessage? a = some message ∧ IsLate message := by
  cases a with
  | loose o =>
    rw [settle_loose hs, Checked.toExcept_eq_ok] at h
    simp [ownMessage?, message_of_looseVerdict h]
  | outcome o =>
    rw [settle, hs] at h
    cases h
    simp [ownMessage?, verdict]
  | other w =>
    rw [settle, hs] at h
    cases h
    exact iff_of_false (not_isLate_broken _ "RuleExecutionError") (by simp [ownMessage?])
  | raised f =>
    rw [settle, hs] at h
    cases h
    simp [ownMessage?, verdict, isLate_ofFault]
  | late =>
    rw [settle, hs] at h
    cases h
    exact iff_of_true (isLate_timedOut s) (.inl rfl)

/-- **Faults are told apart from missed deadlines, unless their kind is masked.** A check that raises a
fault before the deadline costs its rule an error, which tells of the kind of the fault if and only if the
fault is not masked. A message about a missed deadline comes of one, of a fault that is taken for one,
or is the check's own. -/
theorem faults_told_iff (cat : Catalog) (t : Tree) (p : Package) (s : Binary64) (r : Rule)
    (hc : cat.check? r.id = some check) :
    (∀ f, s.isPositive = true → check t p = .raised f → ∃ v,
      ComesTo cat t p (.seconds s) [r] (.ok [v]) ∧ v.ruleId = r.id ∧ v.status = .error ∧
      (Tells f.kindName v ↔ ¬Masked f)) ∧
    ∀ v, ComesTo cat t p (.seconds s) [r] (.ok [v]) →
      (IsLate v.message ↔ s.isPositive = false ∨ check t p = .late ∨
        (∃ f, check t p = .raised f ∧ TakenForLate f) ∨
        ∃ message, ownMessage? (check t p) = some message ∧ IsLate message) := by
  have hanswer : answer? cat t p r = some (check t p) := by rw [answer?, hc, Option.map_some]
  have hrule : ∀ d, evaluateRule cat t p d r = settle r d (check t p) :=
    fun d => evaluateRule_of_answer hanswer
  refine ⟨fun f hs hf => ⟨verdict r (ofFault s f), ?_, rfl, (ofFault_error s f).1,
    tells_ofFault s r f⟩, fun v hv => ?_⟩
  · rw [comesTo_singleton_iff, hrule, hf, settle, hs]
    rfl
  · rw [comesTo_singleton_iff, hrule] at hv
    cases hs : s.isPositive with
    | false =>
      rw [settle_of_missed hs] at hv
      cases hv
      exact iff_of_true (isLate_timedOut s) (.inl rfl)
    | true =>
      rw [isLate_of_settle hs hv]
      simp

end

/-! ### Faults of checks that answer in time -/

namespace Prompt

/-- The rule's check raises a fault. -/
def raising (f : Fault) : Catalog :=
  ⟨[Mixed.rule "prompt"], [("prompt", fun _ _ => .raised f)], false⟩

end Prompt

open Prompt Mixed in
/-- Time has run out elsewhere, or a file is missing. -/
theorem faults_told_prompt :
    (∃ v, ComesTo (raising (.outOfTime "TimeoutError" "upstream")) tree package
        (.seconds deadline) [rule "prompt"] (.ok [v]) ∧ v.status = .error ∧ IsLate v.message ∧
        ¬Tells "TimeoutError" v) ∧
      ∃ v, ComesTo (raising (.raised "FileNotFoundError" "a.txt")) tree package
        (.seconds deadline) [rule "prompt"] (.ok [v]) ∧ v.status = .error ∧ Tells "FileNotFoundError" v ∧
        ¬IsLate v.message := by
  have hlate := faults_told_iff (raising (.outOfTime "TimeoutError" "upstream")) tree package
    deadline (rule "prompt") rfl
  have htold := faults_told_iff (raising (.raised "FileNotFoundError" "a.txt")) tree package
    deadline (rule "prompt") rfl
  obtain ⟨v, hv, -, hstatus, htells⟩ := hlate.1 _ (by decide) rfl
  obtain ⟨w, hw, -, hstatus', htells'⟩ := htold.1 _ (by decide) rfl
  refine ⟨⟨v, hv, hstatus, ?_, fun h => htells.mp h (.inl ⟨_, _, rfl⟩)⟩,
    ⟨w, hw, hstatus', htells'.mpr (by simp [Masked]), fun h => ?_⟩⟩
  · exact (hlate.2 v hv).mpr (.inr (.inr (.inl ⟨_, rfl, .inl ⟨_, _, rfl⟩⟩)))
  · have htime : deadline.isPositive = true := by decide
    have hcases := (htold.2 w hw).mp h
    simp [ownMessage?, TakenForLate, htime] at hcases

end Evaluation

end PackageAudit
