import PackageAudit.Proofs.Distinct
import PackageAudit.Proofs.Rule.Catalog

/-! # What a catalog has been told

A catalog is what the calls that were not refused have made of it (`accepted`): for each name the rule
and the check that were given last, the rules in the order in which their names came first.
`Told.call` is about one call and `registry_ofCalls` about any calls.
-/

namespace PackageAudit

theorem findRev?_concat {α : Type} (p : α → Bool) (xs : List α) (a : α) :
    (xs ++ [a]).findRev? p = if p a then some a else xs.findRev? p := by
  rw [List.findRev?_eq_find?_reverse, List.findRev?_eq_find?_reverse, List.reverse_concat,
    List.find?_cons]
  cases p a <;> rfl

namespace Catalog

/-! ## Calls and their refusal -/

/-- What a call answers. -/
def attempt (cat : Catalog) : Call → Except Failure Catalog
  | .register r check => cat.register r check
  | .registerCheck id c => cat.registerCheck id c
  | .freeze => .ok cat.freeze

/-- The rule that a call gives. -/
def Call.rule? : Call → Option Rule
  | .register r _ => some r
  | _ => none

/-- The check that a call gives, with the name that it is for. -/
def Call.check? : Call → Option (Text × Check)
  | .register r check => check.map (r.id, ·)
  | .registerCheck id c => some (id, c)
  | .freeze => none

/-- The calls that are not refused, one after the other. -/
def accepted (cat : Catalog) : List Call → List Call
  | [] => []
  | c :: calls =>
    match cat.attempt c with
    | .ok cat' => c :: accepted cat' calls
    | .error _ => accepted cat calls

/-- The rules that were registered by calls. -/
def registered (calls : List Call) : List Rule := (accepted empty calls).filterMap Call.rule?

/-- The checks that were registered by calls, each with its name. -/
def given (calls : List Call) : List (Text × Check) := (accepted empty calls).filterMap Call.check?

section
variable {cat cat' : Catalog} {c : Call} {calls : List Call}

theorem call_eq (cat : Catalog) (c : Call) : cat.call c = (cat.attempt c).toOption.getD cat := by
  cases c <;> rfl

theorem attempt_of_unfrozen (h : cat.frozen = false) (c : Call) :
    cat.attempt c = .ok (cat.call c) := by
  cases c <;> simp [attempt, call, register, registerCheck, h, Except.toOption]

theorem attempt_of_frozen (h : cat.frozen = true) (c : Call) :
    cat.attempt c = match c with
      | .register r _ => .error (.catalogFrozen r.id)
      | .registerCheck id _ => .error (.catalogFrozen id)
      | .freeze => .ok cat := by
  cases c with
  | register r check => exact if_pos h
  | registerCheck id c => exact if_pos h
  | freeze =>
    obtain ⟨rules, checks, frozen⟩ := cat
    cases h
    rfl

theorem call_of_frozen (h : cat.frozen = true) (c : Call) : cat.call c = cat := by
  rw [call_eq, attempt_of_frozen h]
  cases c <;> rfl

/-- **A frozen catalog stays as it is**, whatever the calls. -/
theorem foldl_call_of_frozen (h : cat.frozen = true) (calls : List Call) :
    calls.foldl call cat = cat := by
  induction calls with
  | nil => rfl
  | cons c calls ih => rw [List.foldl_cons, call_of_frozen h, ih]

theorem ofCalls_concat (calls : List Call) (c : Call) :
    ofCalls (calls ++ [c]) = (ofCalls calls).call c := List.foldl_concat ..

theorem frozen_call_of_ne (h : c ≠ .freeze) (hopen : cat.frozen = false) :
    (cat.call c).frozen = false := by
  cases c <;> simp_all [call, register, registerCheck, Except.toOption]

theorem frozen_ofCalls (calls : List Call) :
    (ofCalls calls).frozen = true ↔ .freeze ∈ calls := by
  induction calls using List.reverseRecOn with
  | nil => simp [ofCalls, empty]
  | append_singleton calls c ih =>
    rw [ofCalls_concat, List.mem_append, List.mem_singleton]
    cases hfrozen : (ofCalls calls).frozen with
    | true =>
      rw [call_of_frozen hfrozen]
      exact iff_of_true hfrozen (.inl (ih.mp hfrozen))
    | false =>
      have hnot : .freeze ∉ calls := ih.not.mp (Bool.eq_false_iff.mp hfrozen)
      by_cases hc : c = .freeze
      · subst hc
        exact iff_of_true rfl (.inr rfl)
      · rw [frozen_call_of_ne hc hfrozen]
        simp [hnot, Ne.symm hc]

theorem accepted_concat (cat : Catalog) (calls : List Call) (c : Call) :
    accepted cat (calls ++ [c]) = accepted cat calls ++ accepted (calls.foldl call cat) [c] := by
  induction calls generalizing cat with
  | nil => rfl
  | cons d calls ih =>
    simp only [List.cons_append, accepted, List.foldl_cons, call_eq]
    cases cat.attempt d with
    | ok cat' => exact congrArg (d :: ·) (ih cat')
    | error f => exact ih cat

theorem find?_putCheck_self (id : Text) (c : Check) (checks : List (Text × Check)) :
    (putCheck id c checks).find? (·.1 == id) = some (id, c) := by
  induction checks with
  | nil => simp [putCheck]
  | cons x rest ih =>
    simp only [putCheck]
    split
    · simp
    · next h => simpa [h] using ih

theorem find?_putCheck_of_ne {id id' : Text} (h : id' ≠ id) (c : Check)
    (checks : List (Text × Check)) :
    (putCheck id c checks).find? (·.1 == id') = checks.find? (·.1 == id') := by
  induction checks with
  | nil => simp [putCheck, Ne.symm h]
  | cons x rest ih =>
    simp only [putCheck]
    split
    · next hx => simp [hx, Ne.symm h]
    · simp only [List.find?_cons]
      split
      · rfl
      · exact ih

/-! ## One call -/

/-- A catalog holds what it was told last for each name, the rules in the order of their names. -/
structure Told (cat : Catalog) (rules : List Rule) (checks : List (Text × Check)) : Prop where
  ids : cat.rules.map (·.id) = (rules.map (·.id)).eraseDups
  rule : ∀ id, cat.rule? id = rules.findRev? (·.id == id)
  check : ∀ id, cat.check? id = (checks.findRev? (·.1 == id)).map (·.2)

variable {rules : List Rule} {checks : List (Text × Check)}

theorem Told.putRule (h : Told cat rules checks) (r : Rule) :
    Told { cat with rules := Catalog.putRule r cat.rules } (rules ++ [r]) checks := by
  refine ⟨?_, fun id => ?_, h.check⟩
  · rw [List.map_append, List.map_singleton, eraseDups_concat]
    have hmem : r.id ∈ cat.rules.map (·.id) ↔ r.id ∈ rules.map (·.id) := by
      rw [h.ids, List.mem_eraseDups]
    split
    · next hr => rw [← h.ids, map_id_putRule_of_mem (hmem.mpr hr)]
    · next hr => rw [← h.ids, map_id_putRule_of_notMem (hmem.not.mpr hr)]
  · rw [findRev?_concat]
    split
    · next hr =>
      obtain rfl := eq_of_beq hr
      exact find?_putRule_self r cat.rules
    · next hr =>
      rw [← h.rule]
      exact find?_putRule_of_ne (fun heq => hr (beq_iff_eq.mpr heq.symm)) cat.rules

theorem Told.putCheck (h : Told cat rules checks) (id : Text) (c : Check) :
    Told { cat with checks := Catalog.putCheck id c cat.checks } rules (checks ++ [(id, c)]) := by
  refine ⟨h.ids, h.rule, fun id' => ?_⟩
  rw [findRev?_concat]
  split
  · next hid =>
    obtain rfl := eq_of_beq hid
    exact congrArg (Option.map (·.2)) (find?_putCheck_self id c cat.checks)
  · next hid =>
    rw [← h.check]
    exact congrArg (Option.map (·.2))
      (find?_putCheck_of_ne (fun heq => hid (beq_iff_eq.mpr heq.symm)) c cat.checks)

/-- **What a call does to a catalog that is not frozen**: it is told what the call gives. -/
theorem Told.call (h : Told cat rules checks) (hopen : cat.frozen = false) (c : Call) :
    Told (cat.call c) (rules ++ [c].filterMap Call.rule?)
      (checks ++ [c].filterMap Call.check?) := by
  cases c with
  | register r check =>
    cases check with
    | none =>
      have hcall : cat.call (.register r none) =
          { cat with rules := Catalog.putRule r cat.rules } := by
        simp [Catalog.call, register, hopen, Except.toOption]
      rw [hcall]
      change Told _ (rules ++ [r]) (checks ++ [])
      rw [List.append_nil]
      exact h.putRule r
    | some c =>
      have hcall : cat.call (.register r (some c)) = { cat with
          rules := Catalog.putRule r cat.rules
          checks := Catalog.putCheck r.id c cat.checks } := by
        simp [Catalog.call, register, hopen, Except.toOption]
      rw [hcall]
      exact (h.putRule r).putCheck r.id c
  | registerCheck id c =>
    have hcall : cat.call (.registerCheck id c) =
        { cat with checks := Catalog.putCheck id c cat.checks } := by
      simp [Catalog.call, registerCheck, hopen, Except.toOption]
    rw [hcall]
    change Told _ (rules ++ []) (checks ++ [(id, c)])
    rw [List.append_nil]
    exact h.putCheck id c
  | freeze =>
    change Told cat.freeze (rules ++ []) (checks ++ [])
    rw [List.append_nil, List.append_nil]
    exact ⟨h.ids, h.rule, h.check⟩

/-! ## All calls -/

theorem accepted_of_unfrozen (h : cat.frozen = false) (c : Call) : accepted cat [c] = [c] := by
  simp only [accepted, attempt_of_unfrozen h]

theorem accepted_of_frozen (h : cat.frozen = true) (c : Call) :
    (accepted cat [c]).filterMap Call.rule? = [] ∧ (accepted cat [c]).filterMap Call.check? = [] := by
  simp only [accepted, attempt_of_frozen h]
  cases c <;> exact ⟨rfl, rfl⟩

/-- **A catalog holds what it was told**, by the calls that were not refused. -/
theorem told_ofCalls (calls : List Call) :
    Told (ofCalls calls) (registered calls) (given calls) := by
  -- on the last call, which is accepted or refused by what the others have made
  induction calls using List.reverseRecOn with
  | nil => exact ⟨rfl, fun _ => rfl, fun _ => rfl⟩
  | append_singleton calls c ih =>
    rw [ofCalls_concat]
    unfold registered given at ih ⊢
    rw [accepted_concat, List.filterMap_append, List.filterMap_append]
    cases hfrozen : (ofCalls calls).frozen with
    | true =>
      obtain ⟨hrules, hchecks⟩ := accepted_of_frozen hfrozen c
      rw [call_of_frozen hfrozen]
      unfold ofCalls at hrules hchecks
      rw [hrules, hchecks, List.append_nil, List.append_nil]
      exact ih
    | false =>
      have hone : accepted (calls.foldl call empty) [c] = [c] := accepted_of_unfrozen hfrozen c
      rw [hone]
      exact ih.call hfrozen c

theorem accepted_of_notMem (h : .freeze ∉ calls) : accepted empty calls = calls := by
  induction calls using List.reverseRecOn with
  | nil => rfl
  | append_singleton calls c ih =>
    have hnot : .freeze ∉ calls := fun hmem => h (List.mem_append_left _ hmem)
    have hopen : (ofCalls calls).frozen = false :=
      Bool.eq_false_iff.mpr ((frozen_ofCalls calls).not.mpr hnot)
    rw [accepted_concat, ih hnot]
    exact congrArg (calls ++ ·) (accepted_of_unfrozen hopen c)

/-- A rule of a catalog is the one of its name. -/
theorem rule?_of_mem (hnodup : (cat.rules.map (·.id)).Nodup) {r : Rule} (hr : r ∈ cat.rules) :
    cat.rule? r.id = some r := by
  unfold rule?
  have hsome : (cat.rules.find? (·.id == r.id)).isSome :=
    List.find?_isSome.mpr ⟨r, hr, beq_self_eq_true r.id⟩
  obtain ⟨x, hx⟩ := Option.isSome_iff_exists.mp hsome
  have hid : x.id = r.id := by simpa using List.find?_some hx
  rw [hx, List.inj_on_of_nodup_map hnodup (List.mem_of_find?_eq_some hx) hr hid]

/-- **What is true of a catalog that calls have made.** Its rules have distinct names, in the order in
which these came first, and are the last ones for their names. Its check for a name is the last one
that was given for it, with a rule or without. Once it is frozen, and not before, calls are refused,
and leave it as it is. Which rules apply, how they are repaired and at what risk depends on its rules
alone. -/
structure Registry (cat : Catalog) (calls : List Call) : Prop where
  nodup : (cat.rules.map (·.id)).Nodup
  ids : cat.rules.map (·.id) = ((registered calls).map (·.id)).eraseDups
  last : ∀ r ∈ cat.rules, (registered calls).findRev? (·.id == r.id) = some r
  rule : ∀ id, cat.rule? id = (registered calls).findRev? (·.id == id)
  check : ∀ id, cat.check? id = ((given calls).findRev? (·.1 == id)).map (·.2)
  frozen : cat.frozen = true ↔ .freeze ∈ calls
  accepting : .freeze ∉ calls → accepted empty calls = calls
  refusing : .freeze ∈ calls → (∀ r check, cat.register r check = .error (.catalogFrozen r.id)) ∧
    (∀ id c, cat.registerCheck id c = .error (.catalogFrozen id)) ∧
    ∀ later, ofCalls (calls ++ later) = cat
  determined : ∀ other : Catalog, other.rules = cat.rules →
    other.applicable = cat.applicable ∧ other.strategies = cat.strategies ∧ other.risk = cat.risk

/-- What is decided by the rules of a catalog is decided by them alone. -/
theorem views_of_rules {cat other : Catalog} (h : other.rules = cat.rules) :
    other.applicable = cat.applicable ∧ other.strategies = cat.strategies ∧ other.risk = cat.risk := by
  refine ⟨?_, ?_, ?_⟩
  · funext p included excluded
    rw [applicable, h]
    rfl
  · rw [strategies, h]
    rfl
  · funext id
    rw [risk, rule?, h]
    rfl

/-- **Every catalog that calls have made is a registry**, whatever the calls and whichever are
refused. -/
theorem registry_ofCalls (calls : List Call) : Registry (ofCalls calls) calls := by
  have htold := told_ofCalls calls
  have hnodup := nodup_ids_ofCalls calls
  refine ⟨hnodup, htold.ids, fun r hr => ?_, htold.rule, htold.check, frozen_ofCalls calls,
    accepted_of_notMem, fun hfreeze => ?_, fun other => views_of_rules⟩
  · rw [← htold.rule]
    exact rule?_of_mem hnodup hr
  · have hfrozen := (frozen_ofCalls calls).mpr hfreeze
    refine ⟨fun r check => if_pos hfrozen, fun id c => if_pos hfrozen, fun later => ?_⟩
    unfold ofCalls at hfrozen ⊢
    rw [List.foldl_append, foldl_call_of_frozen hfrozen]

/-- A rule that is registered again keeps its place and its check. -/
example (r : Rule) (c : Check) :
    let calls := [.register { r with id := "A" } (some c), .register { r with id := "B" } none,
      .register { r with id := "A", name := "Renamed" } none, .freeze,
      .register { r with id := "C" } none]
    (ofCalls calls).rules = [{ r with id := "A", name := "Renamed" }, { r with id := "B" }] ∧
      (ofCalls calls).check? "A" = some c :=
  ⟨rfl, rfl⟩

end

end Catalog

end PackageAudit
