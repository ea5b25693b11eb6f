import PackageAudit.Fault
import PackageAudit.Package.Manifest
import PackageAudit.Settings
import PackageAudit.Verdict

/-! # Repairs

A remedy answers a violation with a plan: files to write and directories to make, all relative to
the package's root. It may look at the tree and does not change it. This module has the plans, the
options of a repair run and the records of what it did.
-/

namespace PackageAudit

/-- One step of a plan: a file with its content, or a directory. -/
structure Action where
  /-- Where it goes, seen from the package's root. A step without a path cannot be carried out. -/
  path : Option Text
  description : Text
  content : Option Text
deriving DecidableEq

/-- What a remedy may look at. -/
structure Site where
  tree : Tree
  root : Path
  settings : Settings

/-- How a violation is answered. -/
abbrev Remedy := Site → Verdict → Except Fault (List Action)

/-- The options of a repair run. -/
structure RepairOptions where
  /-- Plans are made and nothing is written. -/
  dryRun : Bool
  /-- Files are copied before they are overwritten. -/
  backupFiles : Bool
  /-- Where the copies go, seen from the package's root; the settings decide if nothing is given. -/
  backupDirectory : Option Path
  /-- The most files that are written; the settings decide if nothing is given. -/
  maxFiles : Option Int
  /-- Repairs of high risk are allowed. -/
  aggressive : Bool
  included : List Text
  excluded : List Text
  /-- Whether a repair of high risk is confirmed, which may depend on the tree; all are if nothing is
  given. -/
  confirms : Option (Tree → Verdict → Bool)

/-- How the repair of a violation ended. -/
inductive RepairStatus where
  | success
  | failed
  | skipped
deriving Repr, DecidableEq

def RepairStatus.name : RepairStatus → Text
  | .success => "success"
  | .failed => "failed"
  | .skipped => "skipped"

/-- What became of one violation. -/
structure RepairOutcome where
  ruleId : Text
  status : RepairStatus
  risk : Risk
  filePath : Option Text
  applied : List Text
  backupPath : Option Text
  errorMessage : Option Text
deriving DecidableEq

/-- What a repair run did. -/
structure RepairSummary where
  packagePath : Text
  dryRun : Bool
  total : Nat
  outcomes : List RepairOutcome
deriving DecidableEq

namespace RepairSummary

/-- The number of violations that ended in one way. -/
def ending (s : RepairSummary) (e : RepairStatus) : Nat := s.outcomes.countP (·.status == e)

/-- The files of the violations that were repaired, once each. -/
def modifiedFiles (s : RepairSummary) : List Text :=
  (((s.outcomes.filter (·.status == .success)).filterMap (·.filePath)).filter (· ≠ [])).eraseDups

/-- The number of violations for which a copy was kept. -/
def backups (s : RepairSummary) : Nat := s.outcomes.countP (·.backupPath.isSome)

end RepairSummary

end PackageAudit
