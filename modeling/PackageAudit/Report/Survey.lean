import PackageAudit.Report.Basic

/-! # Surveys of many reports
-/

namespace PackageAudit

/-- How many reports have a score of ninety or more, of eighty or more, of seventy or more, and of
less. -/
structure ScoreBands where
  excellent : Nat
  good : Nat
  fair : Nat
  poor : Nat
deriving Repr, DecidableEq

namespace ScoreBands

/-- No scores. -/
def zero : ScoreBands := ⟨0, 0, 0, 0⟩

/-- One more score. -/
def add (b : ScoreBands) (score : Nat) : ScoreBands :=
  if 90 ≤ score then { b with excellent := b.excellent + 1 }
  else if 80 ≤ score then { b with good := b.good + 1 }
  else if 70 ≤ score then { b with fair := b.fair + 1 }
  else { b with poor := b.poor + 1 }

end ScoreBands

/-- What many reports say together. -/
structure Survey where
  totalPackages : Nat
  averageScore : Nat
  bands : ScoreBands
  /-- The statuses that occur, with their counts. -/
  byStatus : List (Status × Nat)
  /-- The rules that are violated most, with the number of violations. -/
  topViolations : List (Text × Nat)
  packageScores : List (Text × Nat × Status)
deriving DecidableEq

namespace Survey

/-- The most rules that a survey lists. -/
def maxTopViolations : Nat := 10

/-- The bands of scores, one after the other. -/
def bandsOf (scores : List Nat) : ScoreBands := scores.foldl ScoreBands.add .zero

/-- What occurs, with the number of times, in the order of first occurrence. -/
def counts {α : Type} [DecidableEq α] (xs : List α) : List (α × Nat) :=
  Metrics.breakdown some 0 (fun n _ => n + 1) xs

/-- The rules that are violated, once for each violation. -/
def violatedRules (rs : List Report) : List Text :=
  rs.flatMap fun r => r.violations.map (·.ruleId)

/-- The rules that are violated, with the number of violations. -/
def ruleCounts (rs : List Report) : List (Text × Nat) := counts (violatedRules rs)

/-- The rules by falling number of violations; equal numbers keep the order of first occurrence. -/
def ranking (rs : List Report) : List (Text × Nat) :=
  (ruleCounts rs).mergeSort fun a b => b.2 ≤ a.2

/-- The scores of reports together. -/
def totalScore : List Report → Nat
  | [] => 0
  | r :: rs => r.score + totalScore rs

/-- The survey of reports. -/
def ofReports (rs : List Report) : Survey where
  totalPackages := rs.length
  averageScore := roundDiv (totalScore rs) rs.length
  bands := bandsOf (rs.map (·.score))
  byStatus := counts (rs.map (·.status))
  topViolations := (ranking rs).take maxTopViolations
  packageScores := rs.map fun r => (r.packageId, r.score, r.status)

end Survey

end PackageAudit
