import PackageAudit.Fault
import PackageAudit.Tree.Basic
import PackageAudit.Verdict

/-! # Checks

A check looks at a package and answers. Checks that come with the audit answer with an `Outcome` or
a fault; a check that somebody registers may also answer with a record whose fields have no fitting
types, with something that is no outcome at all, or not in time. A check is a function of the tree
and the package.
-/

namespace PackageAudit

/-- What a check has found. -/
structure Outcome where
  status : Status
  message : Text
  filePath : Option Text
  lineNumber : Option Int
  context : Json.Members
  /-- Nothing leaves it to the rule whether a repair is possible. -/
  canAutoFix : Option Bool

namespace Outcome

/-- An outcome that only says how the check ended. -/
def plain (status : Status) (message : Text) : Outcome := ⟨status, message, none, none, [], none⟩

/-- The check is passed. -/
def passed (message : Text) : Outcome := plain .pass message

/-- The check is failed. -/
def failed (message : Text) : Outcome := plain .fail message

/-- The outcome is about a file. -/
def about (o : Outcome) (path : Text) : Outcome := { o with filePath := some path }

/-- The outcome is about a line of a file. -/
def atLine (o : Outcome) (line : Nat) : Outcome := { o with lineNumber := some line }

/-- The outcome with details. -/
def detailed (o : Outcome) (context : Json.Members) : Outcome := { o with context := context }

/-- The outcome cannot be repaired, whatever the rule says. -/
def unfixable (o : Outcome) : Outcome := { o with canAutoFix := some false }

end Outcome

/-- The fields of an outcome record whose values may be anything. -/
structure LooseOutcome where
  status : Json
  message : Json
  filePath : Json
  lineNumber : Json
  context : Json
  canAutoFix : Json

namespace LooseOutcome

/-- Is the status the word for a check that is passed? -/
def isPassed (o : LooseOutcome) : Bool :=
  match o.status with
  | .str t => t == Status.pass.name
  | _ => false

/-- What stands for the possibility of a repair: none for what is passed, and the rule's own word if
nothing is said. -/
def repairability (r : Rule) (o : LooseOutcome) : Json :=
  if o.isPassed then .bool false
  else
    match o.canAutoFix with
    | .null => .bool r.canAutoFix
    | v => v

end LooseOutcome

/-- How a check answers. -/
inductive Answer where
  | outcome (o : Outcome)
  | loose (o : LooseOutcome)
  /-- A value that is no outcome. -/
  | other (v : Json)
  | raised (f : Fault)
  /-- The answer does not come before the deadline. -/
  | late

/-- A check of a package. -/
abbrev Check := Tree → Package → Answer

/-- The answer of a check that ends with an outcome or a fault. -/
def Answer.ofExcept : Except Fault Outcome → Answer
  | .ok o => .outcome o
  | .error f => .raised f

end PackageAudit
