import PackageAudit.Decimal.Binary64
import PackageAudit.Fault
import PackageAudit.Report.Advice
import PackageAudit.Report.Changes

/-! # Reports

A report holds the verdicts for one package and what follows from them: score, status, counts and
recommendations. A report that is read from a record keeps the score and status it is given.
-/

namespace PackageAudit

/-- The outcome of auditing one package. -/
structure Report where
  packageId : Text
  packageName : Text
  packagePath : Text
  packageKind : PackageKind
  score : Nat
  status : Status
  verdicts : List Verdict
  recommendations : List Text
  metrics : Metrics
  /-- The rules that were checked. -/
  included : List Text
  /-- The rules that were left out. -/
  excluded : List Text
  filesScanned : Nat
  /-- Milliseconds. -/
  totalTime : Int
  changes : Option Changes

namespace Report

/-- The verdicts that are violations. -/
def violations (r : Report) : List Verdict := r.verdicts.filter (·.isViolation)

/-- The violations that can be repaired automatically. -/
def fixableViolations (r : Report) : List Verdict := r.verdicts.filter (·.isFixable)

/-- The first verdict for a rule. -/
def verdict? (r : Report) (id : Text) : Option Verdict := r.verdicts.find? (·.ruleId == id)

/-- The report for the verdicts on a package. -/
def build (p : Package) (vs : List Verdict) (included excluded : List Text) (totalTime : Int) :
    Report where
  packageId := p.id
  packageName := p.name
  packagePath := p.path
  packageKind := p.kind
  score := Score.ofVerdicts vs
  status := .ofVerdicts vs
  verdicts := vs
  recommendations := Advice.lines vs
  metrics := .ofVerdicts vs
  included := included
  excluded := excluded
  filesScanned := p.regularFiles.length
  totalTime := totalTime
  changes := none

/-- The changes of a report from an earlier one. -/
def changesFrom (after before : Report) : Changes :=
  .between after.verdicts before.verdicts after.score before.score

/-- The number of rules that were checked per second; zero if no time has passed. A time of more
seconds than there are numbers for is a fault. -/
def rulesPerSecond (r : Report) : Except Fault Binary64 :=
  match Binary64.ofRatio false r.totalTime.natAbs 1000 with
  | .infinite _ => .error (.overflow .quotient)
  | seconds =>
    if r.totalTime ≤ 0 then .ok (Binary64.zero false)
    else .ok ((Binary64.ofInt r.verdicts.length).div seconds)

/-- Looks at the members of a report record that are not kept: its own name and date, and what
follows from its verdicts. -/
def look (ms : Json.Members) : Checked Unit :=
  Schema.unkept ms "report_id" Schema.text
    <* Schema.unkept ms "timestamp" Schema.moment
    <* Schema.unkept ms "metrics" (Schema.record Metrics.look)
    <* Schema.unkept ms "performance" (Schema.record fun ms =>
      Schema.unkept ms "total_time" Schema.integer
        <* Schema.unkept ms "rules_per_second" Schema.number
        <* Schema.unkept ms "files_scanned" Schema.integer)

/-- The rules that a record says were checked, and those that were left out. -/
def readRules (ms : Json.Members) : Checked (List Text × List Text) :=
  Prod.mk
    <$> Schema.defaulted ms "included_rules" (Schema.list Schema.text) []
    <*> Schema.defaulted ms "excluded_rules" (Schema.list Schema.text) []

/-- Reads a report record, whose verdicts have been read before. -/
def read (ms : Json.Members) (vs : List Verdict) : Checked Report :=
  (fun id name path kind score status lines rules changes =>
      Report.mk id name path kind score status vs lines .none rules.1 rules.2 0 0 changes)
    <$> Schema.required ms "module_id" Schema.text
    <*> Schema.required ms "module_name" Schema.text
    <*> Schema.required ms "module_path" Schema.text
    <*> Schema.required ms "module_type" (Schema.oneOf PackageKind.all PackageKind.name)
    <*> Schema.required ms "overall_score" Schema.percentage
    <*> Schema.required ms "status" (Schema.oneOf Status.all Status.name)
    <*> Schema.defaulted ms "recommendations" (Schema.list Schema.text) []
    <*> Schema.defaulted ms "validation_config" (Schema.record readRules) ([], [])
    <*> Schema.defaulted ms "changes_since_previous"
      (Schema.nullable (Schema.record Changes.read)) none
    <* look ms

end Report

end PackageAudit
