import PackageAudit.Evaluation
import PackageAudit.Package.Describe
import PackageAudit.Report.Basic

/-! # Auditing one package

A package is described, its rules are selected and evaluated, and the verdicts make the report. A
failure of the audit is passed on; any other fault becomes the failure of this audit.
-/

namespace PackageAudit

/-- The options of an audit. -/
structure AuditOptions where
  /-- Only these rules are checked, unless there are none. -/
  included : List Text
  excluded : List Text
  search : SearchOptions
  /-- Seconds that a check may take; the settings decide if nothing is given. -/
  ruleTimeout : Option Deadline

/-- The options when nothing is said about them. -/
def AuditOptions.default : AuditOptions := ⟨[], [], .default, none⟩

/-- What audits are made with. -/
structure Auditor where
  settings : Settings
  catalog : Catalog
  /-- A fault that ends every audit when its report is made; nothing in normal operation. -/
  reportFault : Option Fault

namespace Auditor

/-- The verdicts on a package and the rules that were checked. -/
def verdicts (a : Auditor) (t : Tree) (p : Package) (o : AuditOptions) :
    Except Fault (List Verdict) :=
  evaluate a.catalog t p (o.ruleTimeout.getD (.seconds a.settings.ruleTimeout))
    (a.catalog.applicable p o.included o.excluded)

/-- The report on a package, or what went wrong. -/
def report (a : Auditor) (t : Tree) (path : Text) (o : AuditOptions) : Except Fault Report := do
  let p ← describe t a.settings path o.search
  let vs ← a.verdicts t p o
  match a.reportFault with
  | some f => throw f
  | none =>
    let rules := a.catalog.applicable p o.included o.excluded
    return .build p vs (rules.map (·.id)) o.excluded 0

/-- A fault as the failure of the audit of a path. -/
def asFailure (path : Text) : Fault → Failure
  | .failure f => f
  | f => .auditFailed path f.message

/-- The report on the package that a path stands for. -/
def audit (a : Auditor) (t : Tree) (path : Text) (o : AuditOptions) : Except Failure Report :=
  match a.report t path o with
  | .ok r => .ok r
  | .error f => .error (asFailure path f)

end Auditor

end PackageAudit
