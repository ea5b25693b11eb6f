import PackageAudit.Check.Basic

/-! # The catalog

The catalog holds the rules in the order in which they were first registered, and a check for some
rule names. Registering a rule again replaces it in its place and keeps its check unless a new one
is given; a check may come before its rule. After `freeze` nothing can be registered any more.
-/

namespace PackageAudit

/-- Rules and checks. -/
structure Catalog where
  rules : List Rule
  checks : List (Text × Check)
  frozen : Bool

/-- How a rule's violations are repaired. -/
structure Strategy where
  ruleId : Text
  risk : Risk
  category : Category
  description : Text
deriving DecidableEq

namespace Catalog

/-- No rules and no checks. -/
def empty : Catalog := ⟨[], [], false⟩

/-- The rule in its place among those of the same name, or at the end. -/
def putRule (r : Rule) : List Rule → List Rule
  | [] => [r]
  | x :: rest => if x.id = r.id then r :: rest else x :: putRule r rest

theorem map_id_putRule_of_mem {r : Rule} {rs : List Rule} (h : r.id ∈ rs.map (·.id)) :
    (putRule r rs).map (·.id) = rs.map (·.id) := by
  induction rs with
  | nil => simp at h
  | cons x rest ih =>
    simp only [putRule]
    split
    · next hx => simp [hx]
    · next hx =>
      rcases List.mem_cons.mp h with h | h
      · exact absurd h.symm hx
      · rw [List.map_cons, List.map_cons, ih h]

theorem map_id_putRule_of_notMem {r : Rule} {rs : List Rule} (h : r.id ∉ rs.map (·.id)) :
    (putRule r rs).map (·.id) = rs.map (·.id) ++ [r.id] := by
  induction rs with
  | nil => rfl
  | cons x rest ih =>
    rw [List.map_cons, List.mem_cons, not_or] at h
    simp only [putRule, if_neg (Ne.symm h.1), List.map_cons, ih h.2, List.cons_append]

theorem find?_putRule_self (r : Rule) (rs : List Rule) :
    (putRule r rs).find? (·.id == r.id) = some r := by
  induction rs with
  | nil => simp [putRule]
  | cons x rest ih =>
    simp only [putRule]
    split
    · simp
    · next h => simpa [h] using ih

theorem find?_putRule_of_ne {r : Rule} {id : Text} (h : id ≠ r.id) (rs : List Rule) :
    (putRule r rs).find? (·.id == id) = rs.find? (·.id == id) := by
  induction rs with
  | nil => simp [putRule, Ne.symm h]
  | cons x rest ih =>
    simp only [putRule]
    split
    · next hx => simp [hx, Ne.symm h]
    · simp only [List.find?_cons]
      split
      · rfl
      · exact ih

/-- The check of a name replaced or added. -/
def putCheck (id : Text) (c : Check) : List (Text × Check) → List (Text × Check)
  | [] => [(id, c)]
  | x :: rest => if x.1 = id then (id, c) :: rest else x :: putCheck id c rest

/-- Adds or replaces a rule, with its check if one is given. -/
def register (cat : Catalog) (r : Rule) (check : Option Check) : Except Failure Catalog :=
  if cat.frozen then .error (.catalogFrozen r.id)
  else
    .ok { cat with
      rules := putRule r cat.rules
      checks := match check with
        | some c => putCheck r.id c cat.checks
        | none => cat.checks }

/-- Adds or replaces the check of a name. -/
def registerCheck (cat : Catalog) (id : Text) (c : Check) : Except Failure Catalog :=
  if cat.frozen then .error (.catalogFrozen id)
  else .ok { cat with checks := putCheck id c cat.checks }

/-- Refuses further registration. -/
def freeze (cat : Catalog) : Catalog := { cat with frozen := true }

/-- The rule of a name. -/
def rule? (cat : Catalog) (id : Text) : Option Rule := cat.rules.find? (·.id == id)

/-- The check of a name. -/
def check? (cat : Catalog) (id : Text) : Option Check := (cat.checks.find? (·.1 == id)).map (·.2)

/-- The rules that are checked for a package, in order: those that apply to it, are named by
`included` unless that is empty, and are not named by `excluded`. -/
def applicable (cat : Catalog) (p : Package) (included excluded : List Text) : List Rule :=
  cat.rules.filter fun r =>
    r.appliesTo p && (included.isEmpty || included.contains r.id) && !excluded.contains r.id

/-- How the rules with automatic repairs are repaired. -/
def strategies (cat : Catalog) : List Strategy :=
  (cat.rules.filter (·.canAutoFix)).map fun r =>
    ⟨r.id, r.risk, r.category, if r.remediation.isEmpty then r.description else r.remediation⟩

/-- The risk of repairing a rule; it is medium for an unknown rule. -/
def risk (cat : Catalog) (id : Text) : Risk := ((cat.rule? id).map (·.risk)).getD .medium

end Catalog

end PackageAudit
