import PackageAudit.Rule.Basic

/-! # Verdicts

A verdict is the result of one rule for one package. `fail` and `error` are violations; the statuses
are ordered from good to bad by `Status.rank`.
-/

namespace PackageAudit

/-- The result of a rule, or of a whole package. -/
inductive Status where
  | pass
  | fail
  | warning
  | partly
  | error
deriving Repr, DecidableEq

namespace Status

def all : List Status := [pass, fail, warning, partly, error]

def name : Status → Text
  | pass => "PASS"
  | fail => "FAIL"
  | warning => "WARNING"
  | partly => "PARTIAL"
  | error => "ERROR"

/-- How bad a status is. -/
def rank : Status → Nat
  | pass => 0
  | partly => 1
  | warning => 2
  | fail => 3
  | error => 4

end Status

/-- The result of one rule for one package. -/
structure Verdict where
  ruleId : Text
  ruleName : Text
  status : Status
  severity : Severity
  category : Option Category
  message : Text
  filePath : Option Text
  lineNumber : Option Int
  remediation : Text
  canAutoFix : Bool
  context : Json.Members

namespace Verdict

/-- Does the verdict say that the rule is violated? -/
def isViolation (v : Verdict) : Bool := v.status == .fail || v.status == .error

/-- Is it a violation that can be repaired automatically? -/
def isFixable (v : Verdict) : Bool := v.canAutoFix && v.status == .fail

/-- Reads a verdict record. Its identifier and the time that the check took are not kept. -/
def read (ms : Json.Members) : Checked Verdict :=
  Verdict.mk
    <$> Schema.required ms "rule_id" Schema.text
    <*> Schema.defaulted ms "rule_name" Schema.text ""
    <*> Schema.required ms "status" (Schema.oneOf Status.all Status.name)
    <*> Schema.required ms "severity" (Schema.oneOf Severity.all Severity.name)
    <*> Schema.defaulted ms "category"
      (Schema.nullable (Schema.oneOf Category.all Category.name)) none
    <*> Schema.required ms "message" Schema.text
    <*> Schema.defaulted ms "file_path" (Schema.nullable Schema.text) none
    <*> Schema.defaulted ms "line_number" (Schema.nullable Schema.integer) none
    <*> Schema.defaulted ms "remediation" Schema.text ""
    <*> Schema.defaulted ms "can_auto_fix" Schema.truth false
    <*> Schema.defaulted ms "context" Schema.members []
    <* Schema.unkept ms "result_id" Schema.text
    <* Schema.unkept ms "execution_time" Schema.integer

end Verdict

end PackageAudit
