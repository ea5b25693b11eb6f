import PackageAudit.Report.Metrics

/-! # Changes between two reports

Rules are compared by name; if a name has several verdicts, the last one counts, at the place of the
first. A violation is new if its rule was not violated before, and a regression if the rule had
passed. A violation is fixed if its rule passes now.
-/

namespace PackageAudit

/-- The differences of a report from an earlier one. -/
structure Changes where
  scoreChange : Int
  newViolations : List Text
  fixedViolations : List Text
  regressions : List Text
deriving DecidableEq

namespace Changes

/-- The verdict that counts for a rule. -/
def last? (vs : List Verdict) (id : Text) : Option Verdict := vs.reverse.find? (·.ruleId == id)

/-- Is the rule violated? -/
def violated (vs : List Verdict) (id : Text) : Bool := (last? vs id).any (·.isViolation)

/-- Is the rule passed? -/
def passes (vs : List Verdict) (id : Text) : Bool := (last? vs id).any (·.status == .pass)

/-- The rules of verdicts, once each in order of first occurrence. -/
def rules (vs : List Verdict) : List Text := Metrics.occurring (vs.map (·.ruleId))

/-- The changes from the verdicts `before` to the verdicts `after`. -/
def between (after before : List Verdict) (scoreAfter scoreBefore : Int) : Changes :=
  let new := (rules after).filter fun id => violated after id && !violated before id
  { scoreChange := scoreAfter - scoreBefore
    newViolations := new
    fixedViolations := (rules before).filter fun id => violated before id && passes after id
    regressions := new.filter (passes before) }

/-- Reads a record of changes. It has to name the report that it compares with. -/
def read (ms : Json.Members) : Checked Changes :=
  Changes.mk
    <$> Schema.defaulted ms "score_change" Schema.integer 0
    <*> Schema.defaulted ms "new_violations" (Schema.list Schema.text) []
    <*> Schema.defaulted ms "fixed_violations" (Schema.list Schema.text) []
    <*> Schema.defaulted ms "regressions" (Schema.list Schema.text) []
    <* Schema.required ms "previous_report_id" Schema.text

end Changes

end PackageAudit
