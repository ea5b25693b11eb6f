import PackageAudit.Json.Interchange
import PackageAudit.Json.Reader
import PackageAudit.LogLevel
import PackageAudit.Schema
import PackageAudit.Tree.Fault

/-! # Failures and faults

A `Failure` is an answer of the audit itself: it names the package, rule or batch item that it
concerns. A `Fault` is anything that can end an operation, a failure among them; the others come
from files, from records that do not fit, or from a check or repair that somebody has registered.
`message` is the text that users see and `kindName` the name that they tell the kinds apart by.
-/

namespace PackageAudit

/-- Failures of the audit. -/
inductive Failure where
  | general (text : Text)
  | noPackage (path reason : Text)
  | unloadable (path reason : Text)
  | nothingFound (root : Text)
  | checkFailed (rule reason : Text)
  | repairFailed (rule reason : Text)
  | batchStopped (item reason : Text)
  | auditFailed (path reason : Text)
  | catalogFrozen (rule : Text)
deriving DecidableEq

namespace Failure

/-- The words for a failure. -/
def message : Failure → Text
  | general text => text
  | noPackage path reason =>
    let place : Text := "No module found at: " ++ path
    if reason.isEmpty then place else place ++ " (" ++ reason ++ ")"
  | unloadable path reason => "Failed to load module at " ++ path ++ ": " ++ reason
  | nothingFound root => "No modules found under: " ++ root
  | checkFailed rule reason => "Rule " ++ rule ++ " failed: " ++ reason
  | repairFailed rule reason => "Auto-fix for " ++ rule ++ " failed: " ++ reason
  | batchStopped item reason => "Batch validation stopped at " ++ item ++ ": " ++ reason
  | auditFailed path reason => "Module validation failed for " ++ path ++ ": " ++ reason
  | catalogFrozen rule => "Cannot register rule " ++ rule ++ ": catalog is frozen"

/-- The name of the kind of a failure. -/
def kindName : Failure → Text
  | general _ => "ComplianceError"
  | noPackage _ _ => "ModuleRootNotFoundError"
  | unloadable _ _ => "ModuleLoadError"
  | nothingFound _ => "NoModulesFoundError"
  | checkFailed _ _ => "RuleExecutionError"
  | repairFailed _ _ => "AutoFixError"
  | batchStopped _ _ => "BatchValidationError"
  | auditFailed _ _ => "ValidationProcessError"
  | catalogFrozen _ => "CatalogFrozenError"

/-- The named parts of a failure. -/
def fields : Failure → List (Text × Text)
  | general _ => []
  | noPackage path reason => [("path", path), ("reason", reason)]
  | unloadable path reason => [("path", path), ("reason", reason)]
  | nothingFound root => [("root_path", root)]
  | checkFailed rule reason => [("rule_id", rule), ("reason", reason)]
  | repairFailed rule reason => [("rule_id", rule), ("reason", reason)]
  | batchStopped item reason => [("item", item), ("reason", reason)]
  | auditFailed path reason => [("path", path), ("reason", reason)]
  | catalogFrozen rule => [("rule_id", rule)]

/-- The text of a general failure: its only part, or a list of its parts. -/
def generalText : List Text → Text
  | [] => []
  | [a] => a
  | parts => "(" ++ Text.join ", " (parts.map Text.quoted) ++ ")"

/-- A failure from the name of its kind and its parts in order, if they are as many as it has. -/
def ofParts? (kind : Text) (parts : List Text) : Option Failure :=
  if kind = "ComplianceError" then some (general (generalText parts))
  else
    match parts with
    | [a] =>
      if kind = "ModuleRootNotFoundError" then some (noPackage a [])
      else if kind = "NoModulesFoundError" then some (nothingFound a)
      else if kind = "CatalogFrozenError" then some (catalogFrozen a)
      else none
    | [a, b] =>
      if kind = "ModuleRootNotFoundError" then some (noPackage a b)
      else if kind = "ModuleLoadError" then some (unloadable a b)
      else if kind = "RuleExecutionError" then some (checkFailed a b)
      else if kind = "AutoFixError" then some (repairFailed a b)
      else if kind = "BatchValidationError" then some (batchStopped a b)
      else if kind = "ValidationProcessError" then some (auditFailed a b)
      else none
    | _ => none

/-- The names of the parts of a kind of failure. -/
def partNames (kind : Text) : List Text :=
  if kind = "NoModulesFoundError" then ["root_path"]
  else if kind = "CatalogFrozenError" then ["rule_id"]
  else if kind = "BatchValidationError" then ["item", "reason"]
  else if kind = "RuleExecutionError" ∨ kind = "AutoFixError" then ["rule_id", "reason"]
  else ["path", "reason"]

/-- The least number of parts of a kind of failure. -/
def leastParts (kind : Text) : Nat :=
  if kind = "ModuleRootNotFoundError" then 1 else (partNames kind).length

/-- Why so many parts make no failure of a kind. The failure that is made counts as one more. -/
def partsMessage (kind : Text) (given : Nat) : Text :=
  let most := (partNames kind).length
  let least := leastParts kind
  let missing := ((partNames kind).take least).drop given
  let plural : Text := if missing.length = 1 then "" else "s"
  let range : Text :=
    if least = most then Text.ofNat (most + 1)
    else "from " ++ Text.ofNat (least + 1) ++ " to " ++ Text.ofNat (most + 1)
  kind ++ ".__init__() " ++
    if given < least then
      "missing " ++ Text.ofNat missing.length ++ " required positional argument" ++ plural ++
        ": " ++ Text.join " and " (missing.map Text.quoted)
    else
      "takes " ++ range ++ " positional arguments but " ++ Text.ofNat (given + 1) ++ " were given"

end Failure

/-- What a whole number is too large for. -/
inductive Overflow where
  /-- It is to be one of the binary64 numbers. -/
  | conversion
  /-- Its quotient is to be one of them. -/
  | quotient
deriving Repr, DecidableEq

/-- The words for an overflow. -/
def Overflow.message : Overflow → Text
  | .conversion => "int too large to convert to float"
  | .quotient => "integer division result too large for a float"

/-- Whatever can end an operation. -/
inductive Fault where
  | failure (f : Failure)
  | file (f : FileFault)
  /-- A whole number in a manifest has too many digits. -/
  | integerTooLong (digits : Nat)
  | malformed (complaints : List Complaint)
  /-- A registered check or repair reports that it ran out of time itself. -/
  | outOfTime (kind text : Text)
  /-- A registered check or repair lets out what ends an iteration, or a kind derived from it. -/
  | endOfIteration (kind text : Text)
  /-- A number is too large for what is to be done with it. -/
  | overflow (o : Overflow)
  /-- A record cannot be shown to other programs. -/
  | unexchangeable (u : Json.Unexchangeable)
  /-- A log level is asked for by the name of something else. -/
  | noThreshold (term : LogLevel.Term)
  /-- A registered check or repair raises something of its own. -/
  | raised (kind text : Text)

namespace Fault

/-- The words for a fault. -/
def message : Fault → Text
  | failure f => f.message
  | file f => f.message
  | integerTooLong digits =>
    "Exceeds the limit (" ++ Text.ofNat Json.maxIntegerDigits ++
      " digits) for integer string conversion: value has " ++ Text.ofNat digits ++
      " digits; use sys.set_int_max_str_digits() to increase the limit"
  | malformed cs => Text.ofNat cs.length ++ " fields do not fit"
  | outOfTime _ text => text
  | endOfIteration _ text => text
  | overflow o => o.message
  | unexchangeable u => u.message
  | noThreshold .messageFormat => LogLevel.messageFormat.quoted
  | noThreshold .formatStyles => "unhashable type: 'dict'"
  | raised _ text => text

/-- The name of the kind of a fault. -/
def kindName : Fault → Text
  | failure f => f.kindName
  | file f => f.kindName
  | integerTooLong _ => "ValueError"
  | malformed _ => "ValidationError"
  | outOfTime kind _ => kind
  | endOfIteration kind _ => kind
  | overflow _ => "OverflowError"
  | unexchangeable u => u.kindName
  | noThreshold .messageFormat => "KeyError"
  | noThreshold .formatStyles => "TypeError"
  | raised kind _ => kind

/-- What a registered check or repair raises, by name and text. A missing key is shown in quotes. -/
def ofHook (rule kind : Text) (text : Option Text) : Fault :=
  let words := text.getD []
  if kind = "RuleExecutionError" then failure (.checkFailed "R" words)
  else if kind = "AutoFixError" then failure (.repairFailed rule words)
  else if kind = "TimeoutError" then outOfTime kind words
  else if kind = "StopIteration" then endOfIteration kind words
  else if kind = "KeyError" then raised kind ((text.map Text.quoted).getD [])
  else raised kind words

end Fault

namespace Checked

variable {α : Type}

/-- A value that was read, or the fault that it does not fit. -/
def toExcept : Checked α → Except Fault α
  | accepted a => .ok a
  | rejected cs => .error (.malformed cs)

theorem toExcept_eq_ok {x : Checked α} {a : α} : x.toExcept = .ok a ↔ x = accepted a := by
  cases x <;> simp [toExcept]

theorem toExcept_eq_error {x : Checked α} {f : Fault} :
    x.toExcept = .error f ↔ ∃ cs, x = rejected cs ∧ f = .malformed cs := by
  cases x <;> simp [toExcept, eq_comm]

end Checked

end PackageAudit
