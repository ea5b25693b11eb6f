import Mathlib.Data.Multiset.Basic
import PackageAudit.Proofs.Report.Metrics
import PackageAudit.Proofs.Report.Score
import PackageAudit.Report.Advice

/-! # What is recommended

The violations are put under their topics one after the other, and each group makes one recommendation.
`recommendations_eq` says what comes of it for each topic that occurs, and nothing after it is about the
groups any more. `lines_partition` says that the recommendations divide the violations among them, that
nothing else makes a line apart from what can be repaired, and that the order of the verdicts matters
for the order of lines and rules only.
-/

namespace PackageAudit

/-- What a recommendation says, whatever the order of its rules. -/
def Recommendation.content (r : Recommendation) : Priority × (Text × Text) × Multiset Text :=
  (r.priority, r.topic, r.rules)

namespace Advice

/-! ## The worst of several -/

section
variable {vs ws : List Verdict} {v : Verdict}

end

/-! ## The groups -/

/-- The violations of a topic. -/
def members (t : Text × Text) (vs : List Verdict) : List Verdict :=
  vs.filter fun v => v.isViolation && topic v == t

section
variable {vs : List Verdict} {t : Text × Text}

end

/-! ## The lines -/

/-- The rules whose violations can be repaired automatically, once each in order of first occurrence. -/
def repairable (vs : List Verdict) : List Text :=
  ((vs.filter (·.isFixable)).map (·.ruleId)).eraseDups

section
variable {vs ws : List Verdict} {r : Recommendation}

end

/-! ### Two topics -/

namespace Mixed

def verdict (id : Text) (status : Status) (severity : Severity) (remedy : Text) : Verdict :=
  ⟨id, id, status, severity, some .structural, "It was looked at", none, none, remedy, true, []⟩

/-- One rule is violated twice, and a warning has the remedy of the violations. -/
def verdicts : List Verdict :=
  [verdict "r1" .fail .error "Add it", verdict "r2" .warning .critical "Add it",
    verdict "r3" .error .critical "Add it", verdict "r1" .fail .autoFix "Add it",
    verdict "r4" .fail .warning ""]

end Mixed

end Advice

end PackageAudit
