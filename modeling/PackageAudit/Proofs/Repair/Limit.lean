import PackageAudit.Proofs.Distinct
import PackageAudit.Proofs.Repair.Isolated

/-! # The limit on files

A run counts the files of the plans that it accepts, each once, before anything is written and also if
nothing is. A plan is refused if its files would bring the count over the limit; that does not keep a
later plan with fewer new files from being accepted.

* `touched_repairAll`: what a run has counted are the files of the plans that it has accepted.
* `limit_kept`: so the limit holds all along the run (`LimitKept`).
-/

namespace PackageAudit

open PackageAudit.Tree (Change Sound)

/-- Where a change has written the content of a plan. -/
def Tree.Change.writtenAt? (t : Tree) : Change → Option Location
  | made _ => none
  | written q _ => t.landing q
  | copied _ _ => none

theorem Tree.Change.writtenAt?_eq_some {t : Tree} {c : Change} {k : Location} :
    c.writtenAt? t = some k ↔ ∃ q bytes, c = .written q bytes ∧ t.landing q = some k := by
  cases c <;> simp [writtenAt?]

namespace Repair

/-! ## The plans that a run accepts -/

/-- The plan that the remedy of a violation makes, if nothing holds the violation back. -/
def planOf (p : Plan) (s : Progress) (v : Verdict) : Option (List Action) :=
  match gate p s.bench.tree (p.catalog.risk v.ruleId) v, p.remedies.find? v.ruleId with
  | none, some remedy => (remedy ⟨s.bench.tree, p.root, p.settings⟩ v).toOption
  | _, _ => none

/-- Does the treatment of a violation end in its being skipped? -/
def endsSkipped : Except Fault RepairOutcome → Bool
  | .ok out => out.status == .skipped
  | .error _ => false

/-- The plan that is accepted for a violation: it is made, and the violation is not skipped. -/
def acceptedFor (p : Plan) (s : Progress) (v : Verdict) : Option (List Action) :=
  if endsSkipped (repairOne p s v).2 then none else planOf p s v

/-- The plans that a run accepts, in order. -/
def acceptedIn (p : Plan) (s : Progress) : List Verdict → List (List Action)
  | [] => []
  | v :: vs =>
    (acceptedFor p s v).toList ++
      match repairOne p s v with
      | (s, .ok _) => acceptedIn p s vs
      | (_, .error _) => []

/-- The paths of the files that plans write, once each. -/
def filesOf (plans : List (List Action)) : List (Option Text) := (plans.flatMap targets).eraseDups

/-- The files that a run has written for its plans, once each. -/
def writtenFiles (p : Plan) (s : Progress) (vs : List Verdict) : List Location :=
  ((journal p s vs).filterMap (·.writtenAt? (repairAll p s vs).1.bench.tree)).eraseDups

/-- Why a plan that goes over the limit is not carried out. -/
def Plan.limitReason (p : Plan) : Text := "File limit reached (" ++ Text.ofInt p.limit ++ " files)"

section
variable {p : Plan} {s s' : Progress} {v : Verdict} {vs : List Verdict} {actions : List Action}

theorem planOf_eq_some : planOf p s v = some actions ↔ Plans p s v actions := by
  unfold planOf
  constructor
  · intro h
    split at h
    · next remedy hgate hfind =>
      cases hmade : remedy ⟨s.bench.tree, p.root, p.settings⟩ v with
      | error f =>
        rw [hmade] at h
        cases h
      | ok made =>
        rw [hmade] at h
        cases h
        exact ⟨remedy, ⟨hgate, hfind⟩, hmade⟩
    · cases h
  · rintro ⟨remedy, hasks, hmade⟩
    simp only [hasks.gate, hasks.remedy, hmade]
    rfl

theorem planOf_eq_none (h : ∀ actions, ¬ Plans p s v actions) : planOf p s v = none := by
  cases hplan : planOf p s v with
  | none => rfl
  | some actions => exact absurd (planOf_eq_some.mp hplan) (h actions)

theorem touched_repairOne : (repairOne p s v).1.touched =
    match acceptedFor p s v with
    | some actions => addTargets s.touched actions
    | none => s.touched := by
  have hplans : ∀ {actions}, Plans p s v actions → planOf p s v = some actions := planOf_eq_some.mpr
  have hnone : ∀ {f}, Raises p s v f → planOf p s v = none := by
    rintro f ⟨remedy, hasks, hraised⟩
    refine planOf_eq_none ?_
    rintro actions ⟨remedy', hasks', hmade⟩
    cases hasks.remedy.symm.trans hasks'.remedy
    rw [hraised] at hmade
    cases hmade
  unfold acceptedFor
  cases hone : repairOne p s v with
  | mk s' res =>
    cases step_iff.mpr hone with
    | held h => rfl
    | unanswered hgate h => rfl
    | gaveUp h => rw [hnone h, ite_self]
    | raised h hf => rw [hnone h, ite_self]
    | overLimit h hl => rfl
    | foretold h hl hd => rw [hplans h]; rfl
    | done h hl hd hall => rw [hplans h]; rfl
    | refused h hl hd hall => rw [hplans h]; rfl
    | broken h hl hd hall hf => rw [hplans h]; rfl

theorem touched_foldl :
    (repairAll p s vs).1.touched = (acceptedIn p s vs).foldl addTargets s.touched := by
  induction vs generalizing s with
  | nil => rfl
  | cons v vs ih =>
    have hfirst := @touched_repairOne p s v
    have hstep : (repairOne p s v).1.touched =
        (acceptedFor p s v).toList.foldl addTargets s.touched := by
      rw [hfirst]
      cases acceptedFor p s v <;> rfl
    rw [repairAll_cons_fst, acceptedIn, List.foldl_append]
    cases hone : repairOne p s v with
    | mk s' res =>
      rw [hone] at hstep
      cases res with
      | ok out => exact ih.trans (congrArg (fun touched => List.foldl addTargets touched _) hstep)
      | error f => exact hstep

theorem addTargets_eraseDups (xs : List (Option Text)) (actions : List Action) :
    addTargets xs.eraseDups actions = (xs ++ targets actions).eraseDups := by
  have hfold : ∀ ys xs : List (Option Text),
      ys.foldl (fun seen x => if seen.contains x then seen else seen ++ [x]) xs.eraseDups =
        (xs ++ ys).eraseDups := by
    intro ys
    induction ys with
    | nil => simp
    | cons y ys ih =>
      intro xs
      have hstep : (if xs.eraseDups.contains y then xs.eraseDups else xs.eraseDups ++ [y]) =
          (xs ++ [y]).eraseDups := by
        rw [eraseDups_concat]
        simp
      rw [List.foldl_cons, hstep, ih, List.append_assoc, List.singleton_append]
  exact hfold (targets actions) xs

theorem foldl_addTargets (plans done : List (List Action)) :
    plans.foldl addTargets (filesOf done) = filesOf (done ++ plans) := by
  induction plans generalizing done with
  | nil => rw [List.append_nil, List.foldl_nil]
  | cons actions plans ih =>
    have hstep : addTargets (filesOf done) actions = filesOf (done ++ [actions]) := by
      unfold filesOf
      rw [addTargets_eraseDups, List.flatMap_append, List.flatMap_singleton]
    rw [List.foldl_cons, hstep, ih, List.append_assoc, List.singleton_append]

/-- **What a run has counted are the files of the plans that it has accepted.** -/
theorem touched_repairAll (b : Bench) :
    (repairAll p ⟨b, []⟩ vs).1.touched = filesOf (acceptedIn p ⟨b, []⟩ vs) := by
  have hcount := foldl_addTargets (acceptedIn p ⟨b, []⟩ vs) []
  rw [touched_foldl]
  exact hcount

theorem overLimit_iff (b : Bench) (actions : List Action) :
    OverLimit p (repairAll p ⟨b, []⟩ vs).1 actions ↔
      p.limit < (filesOf (acceptedIn p ⟨b, []⟩ vs ++ [actions])).length := by
  have hadd := foldl_addTargets [actions] (acceptedIn p ⟨b, []⟩ vs)
  rw [List.foldl_cons, List.foldl_nil] at hadd
  rw [OverLimit, touched_repairAll, hadd]

/-! ## The limit holds -/

theorem limit_repairOne (h : (s.touched.length : Int) ≤ p.limit) :
    ((repairOne p s v).1.touched.length : Int) ≤ p.limit := by
  cases hone : repairOne p s v with
  | mk s' res =>
    cases step_iff.mpr hone with
    | held _ => exact h
    | unanswered _ _ => exact h
    | gaveUp _ => exact h
    | raised _ _ => exact h
    | overLimit _ _ => exact h
    | foretold _ hl _ => exact Int.not_lt.mp hl
    | done _ hl _ _ => exact Int.not_lt.mp hl
    | refused _ hl _ _ => exact Int.not_lt.mp hl
    | broken _ hl _ _ _ => exact Int.not_lt.mp hl

theorem limit_repairAll (h : (s.touched.length : Int) ≤ p.limit) :
    ((repairAll p s vs).1.touched.length : Int) ≤ p.limit := by
  induction vs generalizing s with
  | nil => exact h
  | cons v vs ih =>
    have hfirst := @limit_repairOne p s v h
    rw [repairAll_cons_fst]
    cases hone : repairOne p s v with
    | mk s' res =>
      rw [hone] at hfirst
      cases res with
      | ok out => exact ih hfirst
      | error f => exact hfirst

theorem acceptedFor_of_planned (h : planned p s v = some actions) :
    acceptedFor p s v = some actions := by
  obtain ⟨hplans, hl, hd⟩ := planned_eq_some.mp h
  have hskipped : endsSkipped (repairOne p s v).2 = false := by
    rw [repairOne_of_plans hplans, carryOut_eq _ hl hd]
    split <;> rfl
  unfold acceptedFor
  rw [hskipped]
  exact planOf_eq_some.mpr hplans

/-- What is carried out belongs to a plan that was accepted. -/
theorem accepted_of_performed {x : Bench × Action} (h : x ∈ performedIn p s vs) :
    ∃ actions ∈ acceptedIn p s vs, x.2 ∈ actions := by
  induction vs generalizing s with
  | nil => cases h
  | cons v vs ih =>
    unfold acceptedIn
    rcases mem_performedIn_cons.mp h with h | ⟨s', out, hone, h⟩
    · obtain ⟨actions, hplan, hx⟩ := mem_performedFor.mp h
      refine ⟨actions, List.mem_append_left _ ?_, mem_performed hx⟩
      rw [acceptedFor_of_planned hplan]
      exact List.mem_singleton_self actions
    · obtain ⟨actions, hactions, hx⟩ := ih h
      rw [hone]
      exact ⟨actions, List.mem_append_right _ hactions, hx⟩

theorem mem_targets_iff {path : Option Text} :
    path ∈ targets actions ↔ ∃ a ∈ actions, a.path = path ∧ a.content.isSome = true := by
  unfold targets
  simp only [List.mem_map, List.mem_filter]
  constructor
  · rintro ⟨a, ⟨ha, hc⟩, rfl⟩
    exact ⟨a, ha, rfl, hc⟩
  · rintro ⟨a, ha, rfl, hc⟩
    exact ⟨a, ⟨ha, hc⟩, rfl⟩

theorem mem_filesOf {plans : List (List Action)} {path : Option Text} :
    path ∈ filesOf plans ↔ ∃ actions ∈ plans, path ∈ targets actions := by
  rw [filesOf, List.mem_eraseDups, List.mem_flatMap]

/-- A file that a run has written is at the path of an action that writes. -/
theorem exists_performed_of_written {k : Location} (h : k ∈ writtenFiles p s vs) :
    ∃ y ∈ performedIn p s vs, ∃ path, y.2.path = some path ∧ y.2.content.isSome ∧
      (repairAll p s vs).1.bench.tree.landing (p.target path) = some k := by
  rw [writtenFiles, List.mem_eraseDups, List.mem_filterMap] at h
  obtain ⟨c, hc, hk⟩ := h
  obtain ⟨q, bytes, rfl, hland⟩ := Tree.Change.writtenAt?_eq_some.mp hk
  obtain ⟨⟨b, a⟩, hy, hc⟩ := List.mem_flatMap.mp hc
  obtain ⟨path, hpath, heffect⟩ := effect_of_mem_changesOf hc
  generalize hcontent : a.content = content at heffect
  cases heffect with
  | content => exact ⟨⟨b, a⟩, hy, path, hpath, by rw [hcontent]; rfl, hland⟩

/-- It is among the files of a plan that the run has accepted. -/
theorem of_mem_writtenFiles {k : Location} (h : k ∈ writtenFiles p s vs) :
    ∃ path, some path ∈ filesOf (acceptedIn p s vs) ∧
      (repairAll p s vs).1.bench.tree.landing (p.target path) = some k := by
  obtain ⟨y, hy, path, hpath, hcontent, hland⟩ := exists_performed_of_written h
  obtain ⟨actions, hactions, ha⟩ := accepted_of_performed hy
  have htarget : some path ∈ targets actions := mem_targets_iff.mpr ⟨y.2, ha, hpath, hcontent⟩
  exact ⟨path, mem_filesOf.mpr ⟨actions, hactions, htarget⟩, hland⟩

theorem length_writtenFiles_le :
    (writtenFiles p s vs).length ≤ (filesOf (acceptedIn p s vs)).length := by
  have hsub : writtenFiles p s vs ⊆ (filesOf (acceptedIn p s vs)).filterMap fun path =>
      path.bind fun path => (repairAll p s vs).1.bench.tree.landing (p.target path) := by
    intro k hk
    obtain ⟨path, hpath, hland⟩ := of_mem_writtenFiles hk
    exact List.mem_filterMap.mpr ⟨some path, hpath, hland⟩
  exact Nat.le_trans (List.subperm_of_subset (nodup_eraseDups _) hsub).length_le
    (List.length_filterMap_le _ _)

/-- Every outcome ends in one of three ways. -/
theorem length_eq_endings (summary : RepairSummary) : summary.outcomes.length =
    summary.ending .success + summary.ending .failed + summary.ending .skipped := by
  unfold RepairSummary.ending
  induction summary.outcomes with
  | nil => rfl
  | cons out outs ih =>
    simp only [List.length_cons, List.countP_cons, ih]
    cases out.status <;> simp <;> omega

/-- **The limit on files is kept** all along a run over violations, whatever its remedies plan and also
if it ends with a fault. -/
structure LimitKept (p : Plan) (b : Bench) (path : Text) (vs : List Verdict) : Prop where
  /-- At no point do the plans that were accepted write more files than the limit allows. -/
  accepted : ∀ done rest, vs = done ++ rest →
    (filesOf (acceptedIn p ⟨b, []⟩ done)).length ≤ p.limit
  written : ∀ done rest, vs = done ++ rest → (writtenFiles p ⟨b, []⟩ done).length ≤ p.limit
  /-- A plan is refused exactly if its files would bring the count over the limit. -/
  refused : ∀ done v rest actions, vs = done ++ v :: rest →
    Plans p (repairAll p ⟨b, []⟩ done).1 v actions →
    ((repairOne p (repairAll p ⟨b, []⟩ done).1 v).2 =
        .ok (skip (p.catalog.risk v.ruleId) v p.limitReason) ↔
      p.limit < (filesOf (acceptedIn p ⟨b, []⟩ done ++ [actions])).length)
  /-- A plan that writes no file that is not counted already is not skipped. -/
  free : ∀ done v rest actions, vs = done ++ v :: rest →
    Plans p (repairAll p ⟨b, []⟩ done).1 v actions →
    (∀ path ∈ targets actions, path ∈ filesOf (acceptedIn p ⟨b, []⟩ done)) →
    ∀ out, (repairOne p (repairAll p ⟨b, []⟩ done).1 v).2 = .ok out → out.status ≠ .skipped
  /-- A summary has the outcome of each violation, and the three ways to end are all. -/
  summed : ∀ summary,
    (repair p.catalog p.remedies p.settings b path vs p.options).2 = .ok summary →
    (∀ done v rest, vs = done ++ v :: rest → ∃ out, summary.outcomes[done.length]? = some out ∧
      (repairOne p (repairAll p ⟨b, []⟩ done).1 v).2 = .ok out) ∧
    summary.total = summary.ending .success + summary.ending .failed + summary.ending .skipped

/-- A plan is skipped only for the limit. -/
theorem skipped_iff_of_plans (h : Plans p s v actions) {out : RepairOutcome}
    (hone : (repairOne p s v).2 = .ok out) : out.status = .skipped ↔ OverLimit p s actions := by
  rw [repairOne_of_plans h] at hone
  by_cases hl : OverLimit p s actions
  · rw [carryOut_of_limit _ hl] at hone
    cases hone
    exact iff_of_true rfl hl
  · refine iff_of_false (fun hskipped => ?_) hl
    cases hd : p.options.dryRun with
    | true =>
      rw [carryOut_of_dryRun _ hl hd] at hone
      cases hone
      cases hskipped
    | false =>
      rw [carryOut_eq _ hl hd] at hone
      split at hone <;> cases hone <;> cases hskipped

theorem refused_iff_of_plans (h : Plans p s v actions) :
    (repairOne p s v).2 = .ok (skip (p.catalog.risk v.ruleId) v p.limitReason) ↔
      OverLimit p s actions := by
  constructor
  · exact fun hone => (skipped_iff_of_plans h hone).mp rfl
  · intro hl
    rw [repairOne_of_plans h, carryOut_of_limit _ hl]
    rfl

/-- Files that are counted already do not bring the count over the limit. -/
theorem filesOf_append_of_subset {plans : List (List Action)}
    (h : ∀ path ∈ targets actions, path ∈ filesOf plans) :
    (filesOf (plans ++ [actions])).length ≤ (filesOf plans).length := by
  refine (List.subperm_of_subset (nodup_eraseDups _) fun path hpath => ?_).length_le
  obtain ⟨actions', hactions', hmem⟩ := mem_filesOf.mp hpath
  rcases List.mem_append.mp hactions' with hold | hnew
  · exact mem_filesOf.mpr ⟨actions', hold, hmem⟩
  · exact h path (List.mem_singleton.mp hnew ▸ hmem)

/-- **A run keeps the limit on files**, for every tree, whatever links are in it, every catalog, all
remedies and options, dry or not, as long as the limit is not negative. -/
theorem limit_kept {cat : Catalog} {rs : Remedies} {st : Settings} {b : Bench} {path : Text}
    {vs : List Verdict} {o : RepairOptions} {root : Path}
    (hroot : b.tree.resolve (.ofText path) = .ok root)
    (hlimit : 0 ≤ o.maxFiles.getD st.maxFilesToFix) :
    LimitKept ⟨cat, rs, st, root, o⟩ b path vs := by
  have haccepted : ∀ done : List Verdict,
      ((filesOf (acceptedIn ⟨cat, rs, st, root, o⟩ ⟨b, []⟩ done)).length : Int) ≤
        Plan.limit ⟨cat, rs, st, root, o⟩ := by
    intro done
    rw [← touched_repairAll]
    exact limit_repairAll hlimit
  refine ⟨fun done _ _ => haccepted done, fun done _ _ => ?_, fun done v _ actions _ hplans => ?_,
    fun done v _ actions _ hplans hsub out hout => ?_, fun summary hsummary => ⟨?_, ?_⟩⟩
  · exact Int.le_trans (Int.ofNat_le.mpr length_writtenFiles_le) (haccepted done)
  · exact (refused_iff_of_plans hplans).trans (overLimit_iff b actions)
  · rw [Ne, skipped_iff_of_plans hplans hout, overLimit_iff, Int.not_lt]
    exact Int.le_trans (Int.ofNat_le.mpr (filesOf_append_of_subset hsub)) (haccepted done)
  · rintro done v rest rfl
    obtain ⟨s', hall, -⟩ := of_repair hroot hsummary
    obtain ⟨s₁, before, s₂, out, after, hdone, hone, -, houts⟩ := repairAll_split hall
    refine ⟨out, ?_, ?_⟩
    · rw [houts, ← length_outcomes hdone]
      simp
    · rw [hdone, hone]
  · obtain ⟨s', hall, -, -, htotal⟩ := of_repair hroot hsummary
    rw [htotal, ← length_outcomes hall, length_eq_endings]

/-- A plan for two files is refused where there is one left, and a later plan takes that one. -/
theorem limit_kept_after_refusal :
    let large : Remedy := fun _ _ => .ok [⟨some "a", "Wrote a", some "1"⟩,
      ⟨some "b", "Wrote b", some "2"⟩]
    let rs : Remedies :=
      [("FIRST", Sample.writing "x"), ("LARGE", large), ("LAST", Sample.writing "y")]
    let o : RepairOptions := ⟨false, false, none, some 2, false, [], [], none⟩
    let p : Plan := ⟨.empty, rs, .default, ⟨.root, ["pkg"]⟩, o⟩
    let first := [Sample.violation "FIRST"]
    let vs := first ++ [Sample.violation "LARGE", Sample.violation "LAST"]
    LimitKept p Sample.bench "/pkg" vs ∧
      (repairOne p (repairAll p ⟨Sample.bench, []⟩ first).1 (Sample.violation "LARGE")).2 =
        .ok (skip .medium (Sample.violation "LARGE") "File limit reached (2 files)") ∧
      filesOf (acceptedIn p ⟨Sample.bench, []⟩ vs) = [some ("x" : Text), some ("y" : Text)] := by
  intro large rs o p first vs
  have hkept : LimitKept p Sample.bench "/pkg" vs := limit_kept rfl (by decide)
  have hplans : Plans p (repairAll p ⟨Sample.bench, []⟩ first).1 (Sample.violation "LARGE")
      [⟨some "a", "Wrote a", some "1"⟩, ⟨some "b", "Wrote b", some "2"⟩] :=
    ⟨large, ⟨rfl, rfl⟩, rfl⟩
  refine ⟨hkept, (hkept.refused first _ _ _ rfl hplans).mpr ?_, ?_⟩
  · decide +kernel
  · decide +kernel

end

end Repair

end PackageAudit
