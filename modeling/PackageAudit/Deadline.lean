import PackageAudit.Decimal.Layout

/-! # Deadlines

A check has a number of seconds to answer. Whole numbers may be larger than any binary64 number;
with them no clock can be set.
-/

namespace PackageAudit

/-- The seconds that a check may take. -/
inductive Deadline where
  | seconds (x : Binary64)
  /-- A whole number beyond the range of binary64 numbers. -/
  | beyond ( negative : Bool)
deriving Repr, DecidableEq

namespace Deadline

/-- A whole number of seconds. -/
def ofInt (i : Int) : Deadline :=
  match Binary64.ofInt i with
  | .infinite negative => beyond negative
  | x => seconds x

end Deadline

end PackageAudit
