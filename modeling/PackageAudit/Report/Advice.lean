import PackageAudit.Report.Metrics
import PackageAudit.Report.Score

/-! # Recommendations

Violations of one category that are remedied in the same way make one recommendation, in the order of
their first occurrence. It has the priority of the worst of them and names the rules. A last line
names the rules whose violations can be repaired automatically.
-/

namespace PackageAudit

/-- How urgent a recommendation is. -/
inductive Priority where
  | high
  | medium
  | low
deriving Repr, DecidableEq

namespace Priority

def name : Priority → Text
  | high => "HIGH"
  | medium => "MEDIUM"
  | low => "LOW"

/-- The priority of a severity. -/
def ofSeverity : Severity → Priority
  | .critical => high
  | .error => medium
  | _ => low

end Priority

/-- What is recommended for the violations of one topic. -/
structure Recommendation where
  priority : Priority
  /-- The category and the remedy of the violations. -/
  topic : Text × Text
  /-- The rules that are violated, once each in order of first occurrence. -/
  rules : List Text
deriving DecidableEq

/-- The line that shows a recommendation. -/
def Recommendation.line (r : Recommendation) : Text :=
  "[" ++ r.priority.name ++ "] " ++ r.topic.1 ++ ": " ++ r.topic.2 ++ " (" ++
    Text.join ", " r.rules ++ ")"

namespace Advice

/-- The category and the remedy of a violation. -/
def topic (v : Verdict) : Text × Text :=
  let remedy := if v.remediation.isEmpty then v.message else v.remediation
  ((v.category.map Category.name).getD "general", remedy)

/-- The rules of verdicts, once each in order of first occurrence. -/
def rules (vs : List Verdict) : List Text := Metrics.occurring (vs.map (·.ruleId))

/-- The more costly of two severities, the first of two equally costly ones. -/
def costlier (a b : Severity) : Severity := if a.penalty < b.penalty then b else a

/-- The most costly severity of verdicts, the first one of several. -/
def worst : List Verdict → Severity
  | [] => .warning
  | v :: vs => (vs.map (·.severity)).foldl costlier v.severity

/-- The violations under their topics, one after the other. -/
def groups (vs : List Verdict) : List ((Text × Text) × List Verdict) :=
  Metrics.breakdown (fun v => if v.isViolation then some (topic v) else none) []
    (fun group v => group ++ [v]) vs

/-- The recommendations for verdicts. -/
def recommendations (vs : List Verdict) : List Recommendation :=
  (groups vs).map fun g => ⟨.ofSeverity (worst g.2), g.1, rules g.2⟩

/-- The line about automatic repairs of these rules. -/
def repairLine (ids : List Text) : Text :=
  "Run auto-fix to resolve " ++ Text.ofNat ids.length ++ " violation(s) automatically (" ++
    Text.join ", " ids ++ ")"

/-- The lines about automatic repairs, if any is possible. -/
def repairLines (vs : List Verdict) : List Text :=
  match rules (vs.filter (·.isFixable)) with
  | [] => []
  | ids => [repairLine ids]

/-- The lines of advice for verdicts. -/
def lines (vs : List Verdict) : List Text :=
  (recommendations vs).map (·.line) ++ repairLines vs

end Advice

end PackageAudit
