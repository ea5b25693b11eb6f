import PackageAudit.Proofs.Repair.Copies
import PackageAudit.Proofs.Repair.Step

/-! # The plans that a run carries out

`carriedIn` lists the plans that a run carries out, each with the bench that it starts on and with its
violation. A run that writes and in which nothing fails carries each of them out to its end
(`result_of_unfailed`), has one success for each (`successes_eq`) and its journal is theirs
(`journal_eq`).
-/

namespace PackageAudit

open PackageAudit.Tree (Change Sound Grows)

namespace Repair

/-! ## From bench to bench -/

/-- What comes of a bench in a run: its tree has grown, and the stamp has not gone back. -/
def Onward (b b' : Bench) : Prop :=
  Sound b.tree → Sound b'.tree ∧ b.clock ≤ b'.clock ∧ Grows b.tree b'.tree

theorem Onward.refl (b : Bench) : Onward b b := fun h => ⟨h, Nat.le_refl _, Grows.refl b.tree⟩

theorem Onward.trans {b₁ b₂ b₃ : Bench} (h₁ : Onward b₁ b₂) (h₂ : Onward b₂ b₃) : Onward b₁ b₃ := by
  intro h
  obtain ⟨hs₂, hc₂, hg₂⟩ := h₁ h
  obtain ⟨hs₃, hc₃, hg₃⟩ := h₂ hs₂
  exact ⟨hs₃, Nat.le_trans hc₂ hc₃, hg₂.trans hg₃⟩

theorem onward_perform {p : Plan} (hp : p.Rooted) (b : Bench) (a : Action) :
    Onward b (perform p b a).1 := by
  intro h
  have ha := account_perform hp h a
  exact ⟨ha.sound, clock_perform p b a, ha.grows⟩

section
variable {p : Plan} (hp : p.Rooted)

include hp

/-- The tree that an action of a plan is carried out on has come of the first one, and the last one
comes of what the action leaves. -/
theorem grows_of_performed (ruleId : Text) (kept : Option Text) {b : Bench} (hs : Sound b.tree)
    {actions : List Action} {y : Bench × Action} (hy : y ∈ performed p b actions) :
    Sound y.1.tree ∧ Grows b.tree y.1.tree ∧
      Grows (perform p y.1 y.2).1.tree (performAll p ruleId b kept actions).1.tree := by
  obtain ⟨hbefore, hafter⟩ :=
    performed_between Onward.refl Onward.trans (onward_perform hp) ruleId kept y hy
  obtain ⟨hsound, -, hg⟩ := hbefore hs
  exact ⟨hsound, hg, (hafter (account_perform hp hsound y.2).sound).2.2⟩

/-- So it is with an action of a run, whose stamp has not gone back either. -/
theorem grows_of_performedIn {s : Progress} {vs : List Verdict} (hs : Sound s.bench.tree)
    {y : Bench × Action} (hy : y ∈ performedIn p s vs) :
    Sound y.1.tree ∧ s.bench.clock ≤ y.1.clock ∧ Grows s.bench.tree y.1.tree ∧
      Grows (perform p y.1 y.2).1.tree (repairAll p s vs).1.bench.tree := by
  obtain ⟨hbefore, hafter⟩ :=
    performedIn_between Onward.refl Onward.trans (onward_perform hp) y hy
  obtain ⟨hsound, hclock, hg⟩ := hbefore hs
  exact ⟨hsound, hclock, hg, (hafter (account_perform hp hsound y.2).sound).2.2⟩

end

/-! ## The plans of a run -/

/-- A plan that is carried out for a violation, with the bench that it starts on. -/
structure Carried where
  bench : Bench
  violation : Verdict
  actions : List Action

namespace Carried

/-- What comes of carrying out a plan. -/
def result (p : Plan) (x : Carried) : Bench × Except Fault (Option Text) :=
  performAll p x.violation.ruleId x.bench none x.actions

/-- Where the first copy is that a plan makes, if it ends well and makes one. -/
def kept (p : Plan) (x : Carried) : Option Text := (x.result p).2.toOption.join

/-- The changes that a plan makes. -/
def changes (p : Plan) (x : Carried) : List Change :=
  (performed p x.bench x.actions).flatMap fun y => changesOf p y.1 y.2

/-- The path that the outcome of a plan is about: of the files that it writes the first, or else that of
the violation. -/
def main (x : Carried) : Option Text := (targets x.actions).head?.getD x.violation.filePath

/-- The success that a plan ends in, if it ends well. -/
def success (p : Plan) (x : Carried) : RepairOutcome :=
  succeeded (p.catalog.risk x.violation.ruleId) x.violation x.actions (x.kept p)

end Carried

/-- The plan that is carried out for a violation, if there is one. -/
def carriedFor (p : Plan) (s : Progress) (v : Verdict) : List Carried :=
  ((planned p s v).map (Carried.mk s.bench v)).toList

/-- The plans that a run carries out, in order. -/
def carriedIn (p : Plan) (s : Progress) : List Verdict → List Carried
  | [] => []
  | v :: vs =>
    carriedFor p s v ++
      match repairOne p s v with
      | (s, .ok _) => carriedIn p s vs
      | (_, .error _) => []

section
variable {p : Plan} {s s' : Progress} {v : Verdict} {vs : List Verdict} {out : RepairOutcome}
  {outs : List RepairOutcome}

theorem performedIn_eq : performedIn p s vs =
    (carriedIn p s vs).flatMap fun x => performed p x.bench x.actions := by
  induction vs generalizing s with
  | nil => rfl
  | cons v vs ih =>
    have hfor : performedFor p s v =
        (carriedFor p s v).flatMap fun x => performed p x.bench x.actions := by
      unfold performedFor carriedFor
      cases planned p s v with
      | none => rfl
      | some actions => exact (List.append_nil _).symm
    rw [performedIn, carriedIn, List.flatMap_append, hfor]
    cases repairOne p s v with
    | mk s' res =>
      cases res with
      | ok out => exact congrArg (List.append _) ih
      | error f => rfl

theorem mem_performedIn_iff {y : Bench × Action} : y ∈ performedIn p s vs ↔
    ∃ x ∈ carriedIn p s vs, y ∈ performed p x.bench x.actions := by
  rw [performedIn_eq, List.mem_flatMap]

theorem journal_eq : journal p s vs = (carriedIn p s vs).flatMap (·.changes p) := by
  rw [journal, performedIn_eq, List.flatMap_assoc]
  rfl

theorem mem_carriedIn {x : Carried} (h : x ∈ carriedIn p s vs) : ∃ before after s₁ outs,
    vs = before ++ x.violation :: after ∧ repairAll p s before = (s₁, .ok outs) ∧
      x.bench = s₁.bench ∧ planned p s₁ x.violation = some x.actions := by
  induction vs generalizing s with
  | nil => exact absurd h List.not_mem_nil
  | cons v vs ih =>
    rcases List.mem_append.mp h with h | h
    · obtain ⟨actions, hplan, rfl⟩ := Option.map_eq_some_iff.mp (Option.mem_toList.mp h)
      exact ⟨[], vs, s, [], rfl, rfl, rfl, hplan⟩
    · cases hone : repairOne p s v with
      | mk s' res =>
        rw [hone] at h
        cases res with
        | error f => cases h
        | ok out =>
          obtain ⟨before, after, s₁, outs, rfl, hbefore, hbench, hplan⟩ := ih h
          exact ⟨v :: before, after, s₁, out :: outs, rfl,
            repairAll_cons_eq_ok.mpr ⟨s', out, outs, hone, hbefore, rfl⟩, hbench, hplan⟩

/-! ## Runs in which nothing fails -/

/-- A violation that is treated without failing is skipped or has its plan carried out. -/
theorem repairOne_of_unfailed (hd : p.options.dryRun = false)
    (h : repairOne p s v = (s', .ok out)) (hout : out.status ≠ .failed) :
    (carriedFor p s v = [] ∧ s' = s ∧ out.status = .skipped ∧ out.backupPath = none) ∨
      ∃ x, carriedFor p s v = [x] ∧ x.bench = s.bench ∧ x.violation = v ∧
        x.result p = (s'.bench, .ok (x.kept p)) ∧ out = x.success p := by
  have hnone : out.status = .skipped → carriedFor p s v = [] := by
    intro hskipped
    unfold carriedFor
    cases hplan : planned p s v with
    | none => rfl
    | some actions =>
      obtain ⟨hplans, hl, -⟩ := planned_eq_some.mp hplan
      rw [repairOne_of_plans hplans, carryOut_eq _ hl hd] at h
      split at h <;> cases h <;> cases hskipped
  cases step_iff.mpr h with
  | held h => exact .inl ⟨hnone rfl, rfl, rfl, rfl⟩
  | unanswered hgate h => exact .inl ⟨hnone rfl, rfl, rfl, rfl⟩
  | gaveUp h => exact absurd rfl hout
  | overLimit h hl => exact .inl ⟨hnone rfl, rfl, rfl, rfl⟩
  | foretold h hl hdry => rw [hd] at hdry; cases hdry
  | refused h hl hd hall => exact absurd rfl hout
  | @done actions b kept hplans hl hd hall =>
    have hkept : Carried.kept p ⟨s.bench, v, actions⟩ = kept := by
      rw [Carried.kept, Carried.result, hall]
      rfl
    refine .inr ⟨⟨s.bench, v, actions⟩, ?_, rfl, rfl, by rw [hkept]; exact hall, ?_⟩
    · unfold carriedFor
      rw [planned_eq_some.mpr ⟨hplans, hl, hd⟩]
      rfl
    · rw [Carried.success, hkept]

/-- **Where nothing fails each plan is carried out to its end**, and the successes of the run are
theirs. -/
theorem successes_eq (hd : p.options.dryRun = false) (h : repairAll p s vs = (s', .ok outs))
    (hout : ∀ out ∈ outs, out.status ≠ .failed) :
    (∀ x ∈ carriedIn p s vs, (x.result p).2 = .ok (x.kept p)) ∧
      outs.filter (·.status == .success) = (carriedIn p s vs).map (·.success p) ∧
      ∀ out ∈ outs, out.status ≠ .success → out.backupPath = none := by
  induction vs generalizing s outs with
  | nil =>
    cases h
    exact ⟨fun _ hx => absurd hx List.not_mem_nil, rfl, fun _ hout => absurd hout List.not_mem_nil⟩
  | cons v vs ih =>
    obtain ⟨s₁, out, rest, hone, hrest, rfl⟩ := repairAll_cons_eq_ok.mp h
    obtain ⟨hends, hsuccesses, hothers⟩ :=
      ih hrest fun out' hmem => hout out' (List.mem_cons_of_mem out hmem)
    unfold carriedIn
    rw [hone]
    rcases repairOne_of_unfailed hd hone (hout out List.mem_cons_self) with
      ⟨hnone, rfl, hskipped, hbackup⟩ | ⟨x, hfor, -, -, hresult, rfl⟩
    · rw [hnone, List.filter_cons_of_neg (by simp [hskipped])]
      exact ⟨hends, hsuccesses, List.forall_mem_cons.mpr ⟨fun _ => hbackup, hothers⟩⟩
    · have hsuccess : (x.success p).status = .success := rfl
      rw [hfor, List.filter_cons_of_pos (by rw [hsuccess]; rfl), List.singleton_append, List.map_cons,
        hsuccesses]
      exact ⟨List.forall_mem_cons.mpr ⟨by rw [hresult], hends⟩, rfl,
        List.forall_mem_cons.mpr ⟨absurd hsuccess, hothers⟩⟩

end

end Repair

end PackageAudit
