import PackageAudit.Verdict
import PackageAudit.Decimal.Rounding

/-! # Scores

A package starts with a hundred points and loses the penalty of each verdict's severity, all of it
for a violation and half of it for a warning or a partial pass. The score is rounded, a half going
to the even neighbour, and never below zero. Penalties are counted in half points here.
-/

namespace PackageAudit

/-- The points that a violation costs. -/
def Severity.penalty : Severity → Nat
  | .critical => 25
  | .error => 15
  | .warning => 5
  | .autoFix => 5

/-- The part of the penalty that a status costs, in halves. -/
def Status.halfWeight : Status → Nat
  | .pass => 0
  | .partly => 1
  | .warning => 1
  | .fail => 2
  | .error => 2

namespace Score

/-- The penalties of verdicts, in half points. -/
def penaltyHalves : List Verdict → Nat
  | [] => 0
  | v :: vs => v.severity.penalty * v.status.halfWeight + penaltyHalves vs

/-- The score of verdicts. -/
def ofVerdicts (vs : List Verdict) : Nat := roundDiv (200 - penaltyHalves vs) 2

end Score

namespace Status

/-- The worse of two statuses, the first of two equally bad ones. -/
def worse (a b : Status) : Status := if a.rank < b.rank then b else a

/-- The worse of two statuses has the greater rank. -/
theorem rank_worse (a b : Status) : (worse a b).rank = max a.rank b.rank := by
  unfold worse
  split <;> omega

/-- The worst status of verdicts; `pass` if there are none. -/
def ofVerdicts (vs : List Verdict) : Status := (vs.map (·.status)).foldl worse .pass

end Status

end PackageAudit
