import PackageAudit.Deadline
import PackageAudit.Rule.Catalog

/-! # Evaluating rules

Every rule gets one verdict, in order. A check that raises a fault, answers with something that is
no outcome or does not answer in time costs its own rule an error and nothing else. Only two things
end the evaluation: an outcome record whose fields do not fit, and a missed deadline that cannot be
shown because it is a number beyond all others.
-/

namespace PackageAudit

namespace Evaluation

/-- The outcome of a rule without a check. -/
def unimplemented (r : Rule) : Outcome :=
  (Outcome.failed ("Rule " ++ r.id ++ " is not implemented")).unfixable

/-- The outcome of a check that did not answer in time. -/
def timedOut (deadline : Binary64) : Outcome :=
  let seconds := Layout.deadline.roundedText deadline
  (Outcome.plain .error ("Rule execution timed out after " ++ seconds ++ "s")).unfixable

/-- The outcome of a check that raised a fault of some kind. -/
def broken (reason kind : Text) : Outcome :=
  ((Outcome.plain .error ("Rule execution failed: " ++ reason)).detailed
    [("error_type", .str kind)]).unfixable

/-- The kind of the faults that end an iteration. -/
def endOfIteration : Text := "StopIteration"

/-- The outcome of a check that raised a fault. A failed check gives its reason; the others their
message, or the name of their kind if they have none. Nobody hears of what ends an iteration, so that
the deadline passes, and a kind derived from it ends the waiting itself, as another fault. -/
def ofFault (deadline : Binary64) : Fault → Outcome
  | .outOfTime _ _ => timedOut deadline
  | .endOfIteration kind _ =>
    if kind = endOfIteration then timedOut deadline
    else broken "coroutine raised StopIteration" "RuntimeError"
  | .failure (.checkFailed rule reason) => broken reason (Failure.checkFailed rule reason).kindName
  | f => broken (if f.message.isEmpty then f.kindName else f.message) f.kindName

/-- The outcome of a check that answered with something else. -/
def ofOther (r : Rule) (v : Json) : Outcome :=
  let reason := "check returned " ++ v.kindName ++ ", not CheckOutcome"
  broken reason (Failure.checkFailed r.id reason).kindName

/-- The verdict for an outcome. What passes needs no remediation and no repair. -/
def verdict (r : Rule) (o : Outcome) : Verdict where
  ruleId := r.id
  ruleName := r.name
  status := o.status
  severity := r.severity
  category := some r.category
  message := o.message
  filePath := o.filePath
  lineNumber := o.lineNumber
  remediation := if o.status = .pass then [] else r.remediation
  canAutoFix := o.status != .pass && o.canAutoFix.getD r.canAutoFix
  context := o.context

/-- The verdict for an outcome record of any fields, if the fields fit. -/
def looseVerdict (r : Rule) (o : LooseOutcome) : Checked Verdict :=
  Verdict.read
    [("rule_id", .str r.id), ("rule_name", .str r.name), ("status", o.status),
      ("severity", .str r.severity.name), ("category", .str r.category.name),
      ("message", o.message), ("file_path", o.filePath), ("line_number", o.lineNumber),
      ("remediation", .str (if o.isPassed then [] else r.remediation)),
      ("can_auto_fix", o.repairability r), ("context", o.context)]

/-- The verdict for an answer. A deadline that is not positive is always missed, and for one that is
beyond all numbers the check cannot be started. -/
def settle (r : Rule) (deadline : Deadline) (a : Answer) : Except Fault Verdict :=
  match deadline with
  | .beyond true => .error (.overflow .conversion)
  | .beyond false =>
    let f := Fault.overflow .conversion
    .ok (verdict r (broken f.message f.kindName))
  | .seconds s =>
    if !s.isPositive then .ok (verdict r (timedOut s))
    else
      match a with
      | .outcome o => .ok (verdict r o)
      | .loose o => (looseVerdict r o).toExcept
      | .other v => .ok (verdict r (ofOther r v))
      | .raised f => .ok (verdict r (ofFault s f))
      | .late => .ok (verdict r (timedOut s))

/-- The verdict of one rule. -/
def evaluateRule (cat : Catalog) (t : Tree) (p : Package) (deadline : Deadline) (r : Rule) :
    Except Fault Verdict :=
  match cat.check? r.id with
  | none => .ok (verdict r (unimplemented r))
  | some check => settle r deadline (check t p)

end Evaluation

/-- The verdicts of rules, in order. -/
def evaluate (cat : Catalog) (t : Tree) (p : Package) (deadline : Deadline) :
    List Rule → Except Fault (List Verdict)
  | [] => .ok []
  | r :: rules =>
    match Evaluation.evaluateRule cat t p deadline r with
    | .error f => .error f
    | .ok v =>
      match evaluate cat t p deadline rules with
      | .ok vs => .ok (v :: vs)
      | .error f => .error f

end PackageAudit
