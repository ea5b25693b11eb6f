import PackageAudit.Verdict

/-! # Counting verdicts
-/

namespace PackageAudit

/-- How many verdicts passed and how many did not. -/
structure Tally where
  passed : Nat
  failed : Nat
deriving Repr, DecidableEq

/-- A tally that also says how many verdicts went into it. -/
structure FullTally extends Tally where
  total : Nat
deriving Repr, DecidableEq

/-- The counts of a list of verdicts. The breakdowns list what occurs, in the order of first
occurrence. -/
structure Metrics where
  total : Nat
  passed : Nat
  failed : Nat
  warnings : Nat
  partials : Nat
  errors : Nat
  bySeverity : List (Severity × Tally)
  byCategory : List (Category × FullTally)
  fixable : Nat
deriving DecidableEq

namespace Tally

/-- No verdicts. -/
def zero : Tally := ⟨0, 0⟩

/-- One more verdict. -/
def add (t : Tally) (v : Verdict) : Tally :=
  if v.status = .pass then { t with passed := t.passed + 1 } else { t with failed := t.failed + 1 }

end Tally

namespace FullTally

/-- No verdicts. -/
def zero : FullTally := ⟨.zero, 0⟩

/-- One more verdict. -/
def add (t : FullTally) (v : Verdict) : FullTally := ⟨t.toTally.add v, t.total + 1⟩

end FullTally

namespace Metrics

/-- The number of verdicts of a status. -/
def having (s : Status) (vs : List Verdict) : Nat := vs.countP (·.status == s)

/-- What occurs first, once each. -/
def occurring {α : Type} [BEq α] (xs : List α) : List α :=
  (xs.foldl (fun seen x => if seen.contains x then seen else x :: seen) []).reverse

/-- No counts at all. -/
def none : Metrics := ⟨0, 0, 0, 0, 0, 0, [], [], 0⟩

section
variable {ι κ α : Type} [DecidableEq κ]

/-- Changes what stands under a key, in its place; a new key comes last. -/
def change (k : κ) (start : α) (f : α → α) : List (κ × α) → List (κ × α)
  | [] => [(k, f start)]
  | x :: rest => if x.1 = k then (k, f x.2) :: rest else x :: change k start f rest

/-- Items put under their keys, one after the other. Those without a key are left out. -/
def breakdown (key : ι → Option κ) (start : α) (add : α → ι → α) (items : List ι) :
    List (κ × α) :=
  items.foldl (fun entries x =>
    match key x with
    | some k => change k start (add · x) entries
    | .none => entries) []

end

/-- The counts of verdicts. -/
def ofVerdicts (vs : List Verdict) : Metrics where
  total := vs.length
  passed := having .pass vs
  failed := having .fail vs
  warnings := having .warning vs
  partials := having .partly vs
  errors := having .error vs
  bySeverity := breakdown (fun v => some v.severity) Tally.zero Tally.add vs
  byCategory := breakdown (·.category) FullTally.zero FullTally.add vs
  fixable := vs.countP (·.isFixable)

/-- Reads the counts of a record, as far as they are whole numbers. -/
def readCounts (names : List Text) (ms : Json.Members) : Checked Unit :=
  (Checked.all (names.map fun name => Schema.unkept ms name Schema.integer)).map fun _ => ()

/-- The names of the plain counts in a record. -/
def countNames : List Text :=
  ["total_rules", "passed_rules", "failed_rules", "warning_rules", "partial_rules", "error_rules",
    "auto_fixable_violations"]

/-- Looks at a record of counts, which has to fit and is not kept. -/
def look (ms : Json.Members) : Checked Unit :=
  readCounts countNames ms
    <* Schema.unkept ms "severity_breakdown"
      (Schema.table (Schema.record (readCounts ["passed", "failed"])))
    <* Schema.unkept ms "category_breakdown"
      (Schema.table (Schema.record (readCounts ["passed", "failed", "total"])))

end Metrics

end PackageAudit
