import PackageAudit.Report.Metrics
import PackageAudit.Proofs.Distinct

/-! # What the counts count

A breakdown is made by changing what stands under one key for each verdict. `breakdown_eq` says what
comes of it: an entry for each key that occurs, in the order of first occurrence, made of the verdicts
under that key. Nothing after it is about the changes any more. So a breakdown counts the verdicts by
their keys (`countsBy_breakdown`), and their order matters for the order of the entries only
(`same_ofVerdicts`).
-/

namespace PackageAudit

/-- The tally of verdicts. -/
def Tally.of (vs : List Verdict) : Tally :=
  ⟨vs.countP (·.status = .pass), vs.countP (·.status ≠ .pass)⟩

/-- The full tally of verdicts. -/
def FullTally.of (vs : List Verdict) : FullTally := ⟨Tally.of vs, vs.length⟩

theorem Tally.of_concat (vs : List Verdict) (v : Verdict) :
    Tally.of (vs ++ [v]) = (Tally.of vs).add v := by
  unfold Tally.of Tally.add
  by_cases h : v.status = .pass <;> simp [List.countP_append, h]

theorem Tally.foldl_add (vs : List Verdict) : vs.foldl Tally.add Tally.zero = Tally.of vs := by
  induction vs using List.reverseRecOn with
  | nil => rfl
  | append_singleton vs v ih => rw [List.foldl_concat, ih, Tally.of_concat]

theorem FullTally.foldl_add (vs : List Verdict) :
    vs.foldl FullTally.add FullTally.zero = FullTally.of vs := by
  induction vs using List.reverseRecOn with
  | nil => rfl
  | append_singleton vs v ih =>
    rw [List.foldl_concat, ih]
    simp [FullTally.of, FullTally.add, Tally.of_concat]

theorem Tally.passed_add_failed (vs : List Verdict) :
    (Tally.of vs).passed + (Tally.of vs).failed = vs.length := by
  rw [vs.length_eq_countP_add_countP (·.status = .pass)]
  simp [Tally.of]

theorem Tally.of_perm {vs ws : List Verdict} (h : vs.Perm ws) : Tally.of vs = Tally.of ws := by
  unfold Tally.of
  rw [h.countP_eq, h.countP_eq]

theorem FullTally.of_perm {vs ws : List Verdict} (h : vs.Perm ws) :
    FullTally.of vs = FullTally.of ws := by
  unfold FullTally.of
  rw [Tally.of_perm h, h.length_eq]

namespace Metrics

/-- What occurs is what is left when repetitions are erased. -/
theorem occurring_eq_eraseDups {α : Type} [BEq α] [LawfulBEq α] (xs : List α) :
    occurring xs = xs.eraseDups := by
  have hfold : xs.foldl (fun seen x => if seen.contains x then seen else x :: seen) [] =
      xs.eraseDups.reverse := by
    induction xs using List.reverseRecOn with
    | nil => rfl
    | append_singleton xs x ih =>
      rw [List.foldl_concat, ih, eraseDups_concat]
      by_cases hx : x ∈ xs <;> simp [hx]
  rw [occurring, hfold, List.reverse_reverse]

section
variable {ι κ α : Type} [DecidableEq κ] {key : ι → Option κ} {start : α} {k : κ} {ks : List κ}
  {g : κ → α} {xs ys : List ι}

/-! ## One change -/

theorem change_of_notMem (f : α → α) (h : k ∉ ks) :
    change k start f (ks.map fun x => (x, g x)) = (ks.map fun x => (x, g x)) ++ [(k, f start)] := by
  induction ks with
  | nil => rfl
  | cons x ks ih =>
    obtain ⟨hne, hnot⟩ := not_or.mp (List.mem_cons.not.mp h)
    simp only [List.map_cons, change, if_neg (Ne.symm hne), ih hnot, List.cons_append]

theorem change_of_mem (f : α → α) (hnodup : ks.Nodup) (h : k ∈ ks) :
    change k start f (ks.map fun x => (x, g x)) =
      ks.map fun x => (x, if x = k then f (g x) else g x) := by
  induction ks with
  | nil => cases h
  | cons x ks ih =>
    obtain ⟨hnot, hnodup⟩ := List.nodup_cons.mp hnodup
    by_cases hx : x = k
    · have hrest : ∀ y ∈ ks, y ≠ k := fun y hy heq => hnot (hx ▸ heq ▸ hy)
      simp +contextual [change, hx, hrest]
    · have hmem : k ∈ ks := (List.mem_cons.mp h).resolve_left (Ne.symm hx)
      simp only [List.map_cons, change, if_neg hx, ih hnodup hmem]

/-! ## All changes -/

/-- The items under a key. -/
def under (key : ι → Option κ) (k : κ) (xs : List ι) : List ι := xs.filter (key · == some k)

theorem under_eq_nil (h : k ∉ xs.filterMap key) : under key k xs = [] := by
  simpa [under] using h

theorem foldl_under_concat (add : α → ι → α) (x : ι) :
    (under key k (xs ++ [x])).foldl add start =
      if key x = some k then add ((under key k xs).foldl add start) x
      else (under key k xs).foldl add start := by
  unfold under
  by_cases h : key x = some k <;> simp [List.filter_append, h]

theorem breakdown_concat_of_none {add : α → ι → α} {x : ι} (h : key x = .none) :
    breakdown key start add (xs ++ [x]) = breakdown key start add xs := by
  simp [breakdown, h]

theorem breakdown_concat_of_some {add : α → ι → α} {x : ι} (h : key x = some k) :
    breakdown key start add (xs ++ [x]) = change k start (add · x) (breakdown key start add xs) := by
  simp [breakdown, h]

/-- **What a breakdown is**: for each key that occurs, what is made of the items under it. -/
theorem breakdown_eq (key : ι → Option κ) (start : α) (add : α → ι → α) (xs : List ι) :
    breakdown key start add xs =
      (xs.filterMap key).eraseDups.map fun k => (k, (under key k xs).foldl add start) := by
  -- on the last item, which changes one entry or brings a key that comes last on both sides
  induction xs using List.reverseRecOn with
  | nil => rfl
  | append_singleton xs x ih =>
    simp only [foldl_under_concat, List.filterMap_append]
    cases hkey : key x with
    | none => simp [breakdown_concat_of_none hkey, ih, hkey]
    | some k =>
      have hkeys : List.filterMap key [x] = [k] := by simp [hkey]
      rw [breakdown_concat_of_some hkey, ih]
      simp only [hkeys, eraseDups_concat, Option.some.injEq]
      by_cases hk : k ∈ xs.filterMap key
      · rw [change_of_mem _ (nodup_eraseDups _) (List.mem_eraseDups.mpr hk), if_pos hk]
        simp only [eq_comm]
      · have hothers : ∀ y ∈ (xs.filterMap key).eraseDups, k ≠ y := fun y hy heq =>
          hk (heq ▸ List.mem_eraseDups.mp hy)
        rw [change_of_notMem _ (List.mem_eraseDups.not.mpr hk), if_neg hk, List.map_append]
        simp +contextual [hothers, under_eq_nil hk]

/-- An entry of a breakdown is made of the items under its key. -/
theorem of_mem_breakdown {add : α → ι → α} {t : α} (h : (k, t) ∈ breakdown key start add xs) :
    t = (under key k xs).foldl add start := by
  rw [breakdown_eq] at h
  obtain ⟨x, -, heq⟩ := List.mem_map.mp h
  cases heq
  rfl

/-- A breakdown has an entry for each key that occurs, in the order of first occurrence. -/
theorem keys_breakdown (key : ι → Option κ) (start : α) (add : α → ι → α) (xs : List ι) :
    (breakdown key start add xs).map (·.1) = (xs.filterMap key).eraseDups := by
  rw [breakdown_eq, List.map_map]
  exact List.map_id _

theorem perm_breakdown (key : ι → Option κ) {add : α → ι → α}
    (hadd : ∀ {xs ys : List ι}, xs.Perm ys → xs.foldl add start = ys.foldl add start)
    (h : xs.Perm ys) : (breakdown key start add xs).Perm (breakdown key start add ys) := by
  have hunder : ∀ k, (under key k xs).foldl add start = (under key k ys).foldl add start :=
    fun k => hadd (h.filter _)
  simp only [breakdown_eq, hunder]
  exact (perm_eraseDups (h.filterMap key)).map _

theorem length_under (key : ι → Option κ) (k : κ) (xs : List ι) :
    (under key k xs).length = (xs.filterMap key).count k := by
  induction xs with
  | nil => rfl
  | cons x xs ih =>
    unfold under at ih ⊢
    cases hkey : key x with
    | none => simp [hkey, ih]
    | some y => by_cases hy : y = k <;> simp [hkey, hy, ih]

theorem countP_under (q : ι → Prop) [DecidablePred q] (xs : List ι) :
    (under key k xs).countP (q ·) = xs.countP fun x => key x = some k ∧ q x := by
  rw [under, List.countP_filter]
  refine List.countP_congr fun x _ => ?_
  simp [and_comm]

end

/-! ## What a breakdown counts -/

section
variable {κ α : Type} [DecidableEq κ] {key : Verdict → Option κ} {start : α}

/-- Entries count verdicts by their keys: they are about the keys that occur, once each, and tell what
has passed and what has not under each. -/
structure CountsBy (key : Verdict → Option κ) (tally : α → Tally) (entries : List (κ × α))
    (vs : List Verdict) : Prop where
  nodup : (entries.map (·.1)).Nodup
  keys : ∀ k, k ∈ entries.map (·.1) ↔ ∃ v ∈ vs, key v = some k
  passed : ∀ k t, (k, t) ∈ entries →
    (tally t).passed = vs.countP fun v => key v = some k ∧ v.status = .pass
  failed : ∀ k t, (k, t) ∈ entries →
    (tally t).failed = vs.countP fun v => key v = some k ∧ v.status ≠ .pass
  sum : (entries.map fun x => (tally x.2).passed + (tally x.2).failed).sum =
    vs.countP fun v => (key v).isSome

/-- **A breakdown whose entries make tallies counts the verdicts by their keys.** -/
theorem countsBy_breakdown {add : α → Verdict → α} {tally : α → Tally}
    (h : ∀ vs, tally (vs.foldl add start) = Tally.of vs) (vs : List Verdict) :
    CountsBy key tally (breakdown key start add vs) vs := by
  have hkeys := keys_breakdown key start add vs
  refine ⟨hkeys ▸ nodup_eraseDups _, fun k => ?_, fun k t hmem => ?_, fun k t hmem => ?_, ?_⟩
  · rw [hkeys, List.mem_eraseDups, List.mem_filterMap]
  · rw [of_mem_breakdown hmem, h]
    exact countP_under (fun v : Verdict => v.status = .pass) vs
  · rw [of_mem_breakdown hmem, h]
    exact countP_under (fun v : Verdict => v.status ≠ .pass) vs
  · rw [breakdown_eq, List.map_map]
    simp only [Function.comp_def, h, Tally.passed_add_failed, length_under, sum_count_eraseDups,
      List.length_filterMap_eq_countP]

end

/-! ## The counts of statuses -/

theorem length_eq_having (vs : List Verdict) : vs.length =
    having .pass vs + having .fail vs + having .warning vs + having .partly vs + having .error vs := by
  unfold having
  induction vs with
  | nil => rfl
  | cons v vs ih =>
    simp only [List.countP_cons, List.length_cons, ih]
    cases v.status <;> simp +decide <;> omega

theorem length_violations (vs : List Verdict) :
    having .fail vs + having .error vs = (vs.filter (·.isViolation)).length := by
  unfold having
  induction vs with
  | nil => rfl
  | cons v vs ih =>
    simp only [List.countP_cons, List.filter_cons, Verdict.isViolation] at ih ⊢
    cases v.status <;> simp +decide <;> omega

theorem total_of_mem_byCategory {vs : List Verdict} {x : Category × FullTally}
    (h : x ∈ (ofVerdicts vs).byCategory) : x.2.total = x.2.passed + x.2.failed := by
  obtain ⟨c, t⟩ := x
  have ht : t = FullTally.of (under (·.category) c vs) :=
    (of_mem_breakdown h).trans (FullTally.foldl_add _)
  rw [ht]
  exact (Tally.passed_add_failed _).symm

/-- Two records of counts are the same, up to the order of the entries of the breakdowns. -/
structure Same (m m' : Metrics) : Prop where
  counts : { m' with bySeverity := m.bySeverity, byCategory := m.byCategory } = m
  bySeverity : m'.bySeverity.Perm m.bySeverity
  byCategory : m'.byCategory.Perm m.byCategory

theorem same_ofVerdicts {vs ws : List Verdict} (h : vs.Perm ws) :
    Same (ofVerdicts vs) (ofVerdicts ws) := by
  refine ⟨by simp [ofVerdicts, having, h.length_eq, h.countP_eq], ?_, ?_⟩
  · refine perm_breakdown (fun v => some v.severity) (fun h => ?_) h.symm
    rw [Tally.foldl_add, Tally.foldl_add, Tally.of_perm h]
  · refine perm_breakdown (·.category) (fun h => ?_) h.symm
    rw [FullTally.foldl_add, FullTally.foldl_add, FullTally.of_perm h]

end Metrics

end PackageAudit
