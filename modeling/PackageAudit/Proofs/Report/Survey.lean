import PackageAudit.Proofs.Decimal.Order
import PackageAudit.Proofs.Report.Metrics
import PackageAudit.Proofs.Report.Penalty
import PackageAudit.Report.Survey
import Mathlib.Data.Finset.Card
import Mathlib.Data.List.Pairwise

/-! # What a survey says of its reports

A survey is made by going through the reports once, changing one band or one entry for each of them,
and by sorting the entries of the rules. `Survey.Exact` is what comes of it: every number counts what it
stands for, the average is the exact mean rounded, and the rules that are listed are the most violated
ones, of equally violated ones those that came up first. `ofReports_exact` says that every survey is
exact, that the order of the reports matters for nothing but the order of equals, and that the numbers
of two lists of reports add up.
-/

namespace PackageAudit

/-! ## Stable sorting -/

section
variable {α : Type} {le : α → α → Bool} {S : α → α → Prop} {xs : List α} {a b : α}

theorem idxOf_lt_of_sublist [DecidableEq α] (hxs : xs.Nodup) (h : [a, b].Sublist xs) :
    xs.idxOf a < xs.idxOf b := by
  have hplaces := pairwise_idxOf_eraseDups xs
  rw [eraseDups_of_nodup hxs] at hplaces
  exact List.pairwise_iff_forall_sublist.mp hplaces h

theorem sublist_or_sublist (ha : a ∈ xs) (hb : b ∈ xs) (hne : a ≠ b) :
    [a, b].Sublist xs ∨ [b, a].Sublist xs := by
  have hpairs : xs.Pairwise fun x y => [x, y].Sublist xs ∨ [y, x].Sublist xs :=
    List.pairwise_iff_forall_sublist.mpr fun h => .inl h
  have hsymm : Std.Symm fun x y => [x, y].Sublist xs ∨ [y, x].Sublist xs := ⟨fun _ _ h => h.symm⟩
  exact hpairs.forall ha hb hne

/-- **A stable sort** keeps the order of what it does not tell apart. -/
theorem pairwise_mergeSort_stable [DecidableEq α]
    (trans : ∀ a b c, le a b = true → le b c = true → le a c = true)
    (total : ∀ a b, (le a b || le b a) = true) (hxs : xs.Nodup) (h : xs.Pairwise S) :
    (xs.mergeSort le).Pairwise fun a b => le a b = true ∧ (le b a = true → S a b) := by
  have hsorted := List.pairwise_mergeSort trans total xs
  have hperm := List.mergeSort_perm xs le
  rw [List.pairwise_iff_forall_sublist] at h hsorted ⊢
  intro a b hab
  refine ⟨hsorted hab, fun hba => ?_⟩
  have hlt := idxOf_lt_of_sublist (hperm.nodup_iff.mpr hxs) hab
  have hne : a ≠ b := by
    rintro rfl
    exact Nat.lt_irrefl _ hlt
  have ha : a ∈ xs := hperm.mem_iff.mp (hab.subset (by simp))
  have hb : b ∈ xs := hperm.mem_iff.mp (hab.subset (by simp))
  rcases sublist_or_sublist ha hb hne with hbefore | hafter
  · exact h hbefore
  · -- the sort would have kept the other order too
    have hkept := List.pair_sublist_mergeSort trans total hba hafter
    exact absurd (idxOf_lt_of_sublist (hperm.nodup_iff.mpr hxs) hkept) (Nat.lt_asymm hlt)

end

namespace Survey

/-! ## Counting -/

/-- The number that stands under a key; it is zero if there is none. -/
def countIn {α : Type} [BEq α] (entries : List (α × Nat)) (a : α) : Nat := (entries.lookup a).getD 0

section
variable {α : Type} [BEq α] [LawfulBEq α] {xs : List α} {a : α}

theorem lookup_graph (g : α → Nat) (ks : List α) :
    (ks.map fun x => (x, g x)).lookup a = if a ∈ ks then some (g a) else none := by
  induction ks with
  | nil => rfl
  | cons k ks ih =>
    rw [List.map_cons, List.lookup_cons, ih]
    cases h : a == k with
    | true => simp [beq_iff_eq.mp h]
    | false => simp [beq_eq_false_iff_ne.mp h]

variable [DecidableEq α]

/-- **What counting one by one gives**: each element that occurs, with the number of times. -/
theorem counts_eq (xs : List α) : counts xs = xs.eraseDups.map fun a => (a, xs.count a) := by
  -- there is only one lawful way to compare elements
  obtain rfl : ‹BEq α› = instBEqOfDecidableEq := lawful_beq_subsingleton _ _
  have hcount : ∀ a, (Metrics.under some a xs).foldl (fun n _ => n + 1) 0 = xs.count a := by
    intro a
    rw [List.foldl_add_const, Nat.zero_add, Nat.one_mul, Metrics.length_under, List.filterMap_some]
  rw [counts, Metrics.breakdown_eq]
  simp only [hcount, List.filterMap_some]

theorem mem_counts {x : α × Nat} : x ∈ counts xs ↔ 0 < x.2 ∧ x.2 = xs.count x.1 := by
  rw [counts_eq, List.mem_map]
  constructor
  · rintro ⟨a, ha, rfl⟩
    exact ⟨List.count_pos_iff.mpr (List.mem_eraseDups.mp ha), rfl⟩
  · rintro ⟨hpos, hx⟩
    have hmem : x.1 ∈ xs := List.count_pos_iff.mp (hx ▸ hpos)
    exact ⟨x.1, List.mem_eraseDups.mpr hmem, by rw [← hx]⟩

theorem keys_counts (xs : List α) : (counts xs).map (·.1) = xs.eraseDups := by
  rw [counts_eq, List.map_map]
  exact List.map_id _

theorem countIn_counts (xs : List α) (a : α) : countIn (counts xs) a = xs.count a := by
  rw [countIn, counts_eq, lookup_graph]
  split
  · rfl
  · next h => exact (List.count_eq_zero.mpr (List.mem_eraseDups.not.mp h)).symm

end

section
variable {α : Type} [DecidableEq α] {xs ys : List α}

theorem nodup_keys_counts (xs : List α) : ((counts xs).map (·.1)).Nodup := by
  rw [keys_counts]
  exact nodup_eraseDups xs

theorem sum_counts (xs : List α) : ((counts xs).map (·.2)).sum = xs.length := by
  rw [counts_eq, List.map_map]
  exact sum_count_eraseDups xs

theorem perm_counts (h : xs.Perm ys) : (counts xs).Perm (counts ys) := by
  have hcount : ∀ a, xs.count a = ys.count a := fun a => h.count_eq a
  simp only [counts_eq, hcount]
  exact (perm_eraseDups h).map _

end

/-! ## Bands -/

/-- The scores of both. -/
instance : Add ScoreBands where
  add a b := ⟨a.excellent + b.excellent, a.good + b.good, a.fair + b.fair, a.poor + b.poor⟩

/-- One more score is added to the band that it belongs to. -/
theorem add_eq (b : ScoreBands) (s : Nat) : b.add s = b + ⟨if 90 ≤ s then 1 else 0,
    if 80 ≤ s ∧ s < 90 then 1 else 0, if 70 ≤ s ∧ s < 80 then 1 else 0, if s < 70 then 1 else 0⟩ := by
  unfold ScoreBands.add
  split_ifs <;> first | rfl | omega

theorem bandsOf_eq (scores : List Nat) : bandsOf scores =
    ⟨scores.countP (90 ≤ ·), scores.countP fun s => 80 ≤ s ∧ s < 90,
      scores.countP fun s => 70 ≤ s ∧ s < 80, scores.countP (· < 70)⟩ := by
  induction scores using List.reverseRecOn with
  | nil => rfl
  | append_singleton scores s ih =>
    rw [bandsOf, List.foldl_concat, ← bandsOf, ih, add_eq]
    simp only [List.countP_append, List.countP_singleton, decide_eq_true_eq]
    rfl

theorem bandsOf_append (xs ys : List Nat) : bandsOf (xs ++ ys) = bandsOf xs + bandsOf ys := by
  simp only [bandsOf_eq, List.countP_append]
  rfl

/-- Every score has its band. -/
theorem sum_bandsOf (scores : List Nat) : (bandsOf scores).excellent + (bandsOf scores).good +
    (bandsOf scores).fair + (bandsOf scores).poor = scores.length := by
  rw [bandsOf_eq]
  induction scores with
  | nil => rfl
  | cons s scores ih =>
    simp only [List.countP_cons, decide_eq_true_eq, List.length_cons] at ih ⊢
    split_ifs <;> omega

/-! ## Violations -/

/-- The number of violations of a rule in all reports. -/
def violationsOf (rs : List Report) (id : Text) : Nat :=
  (rs.flatMap (·.verdicts)).countP fun v => v.ruleId = id ∧ (v.status = .fail ∨ v.status = .error)

/-- The place of the first violation of a rule among all violations. -/
def firstPlace (rs : List Report) (id : Text) : Nat := (violatedRules rs).idxOf id

section
variable {rs ws : List Report} {id : Text} {x y : Text × Nat}

theorem violatedRules_eq (rs : List Report) : violatedRules rs =
    ((rs.flatMap (·.verdicts)).filter (·.isViolation)).map (·.ruleId) := by
  simp only [violatedRules, Report.violations, List.filter_flatMap, List.map_flatMap]

theorem count_violatedRules (rs : List Report) (id : Text) :
    (violatedRules rs).count id = violationsOf rs id := by
  rw [violatedRules_eq, List.count_eq_countP, List.countP_map, List.countP_filter]
  refine List.countP_congr fun v _ => ?_
  simp [Verdict.isViolation]

theorem perm_violatedRules (h : rs.Perm ws) : (violatedRules rs).Perm (violatedRules ws) :=
  h.flatMap_right _

theorem countIn_ruleCounts (rs : List Report) (id : Text) :
    countIn (ruleCounts rs) id = violationsOf rs id := by
  rw [ruleCounts, countIn_counts, count_violatedRules]

theorem violationsOf_append (rs ws : List Report) (id : Text) :
    violationsOf (rs ++ ws) id = violationsOf rs id + violationsOf ws id := by
  simp only [violationsOf, List.flatMap_append, List.countP_append]

/-! ## The ranking -/

/-- One entry comes before another: it has more violations, or as many and came up first. -/
def Ahead (rs : List Report) (x y : Text × Nat) : Prop :=
  y.2 < x.2 ∨ y.2 = x.2 ∧ firstPlace rs x.1 < firstPlace rs y.1

theorem perm_ranking (rs : List Report) : (ranking rs).Perm (ruleCounts rs) :=
  List.mergeSort_perm _ _

theorem mem_ranking : x ∈ ranking rs ↔ 0 < x.2 ∧ x.2 = violationsOf rs x.1 := by
  rw [(perm_ranking rs).mem_iff, ruleCounts, mem_counts, count_violatedRules]

theorem nodup_keys_ranking (rs : List Report) : ((ranking rs).map (·.1)).Nodup :=
  ((perm_ranking rs).map _).nodup_iff.mpr (nodup_keys_counts _)

theorem length_ranking (rs : List Report) :
    (ranking rs).length = (violatedRules rs).toFinset.card := by
  have hkeys : (violatedRules rs).eraseDups.toFinset = (violatedRules rs).toFinset :=
    Finset.ext fun id => by simp
  rw [(perm_ranking rs).length_eq, ruleCounts, ← List.length_map (·.1), keys_counts, ← hkeys,
    List.toFinset_card_of_nodup (nodup_eraseDups _)]

/-- **The ranking** goes by falling number of violations, and by first places where they are equal. -/
theorem pairwise_ranking (rs : List Report) : (ranking rs).Pairwise (Ahead rs) := by
  have hplaces : (ruleCounts rs).Pairwise fun x y => firstPlace rs x.1 < firstPlace rs y.1 := by
    have hkeys : ((ruleCounts rs).map (·.1)).Pairwise fun a b => firstPlace rs a < firstPlace rs b := by
      rw [ruleCounts, keys_counts]
      exact pairwise_idxOf_eraseDups _
    rwa [List.pairwise_map] at hkeys
  have hnodup : (ruleCounts rs).Nodup := (nodup_keys_counts _).of_map _
  refine (pairwise_mergeSort_stable ?_ ?_ hnodup hplaces).imp ?_
  · intro a b c hab hbc
    simp only [decide_eq_true_eq] at hab hbc ⊢
    omega
  · intro a b
    simp only [Bool.or_eq_true, decide_eq_true_eq]
    omega
  · intro a b ⟨hle, hplace⟩
    simp only [decide_eq_true_eq] at hle hplace
    rcases Nat.lt_or_eq_of_le hle with hlt | heq
    · exact .inl hlt
    · exact .inr ⟨heq, hplace (Nat.le_of_eq heq.symm)⟩

/-- What is not among the first entries comes after each of them. -/
theorem ahead_of_notMem_take {k : Nat} (hx : x ∈ (ranking rs).take k) (hid : 0 < violationsOf rs id)
    (hout : id ∉ ((ranking rs).take k).map (·.1)) : Ahead rs x (id, violationsOf rs id) := by
  have hsplit := pairwise_ranking rs
  have hmem : (id, violationsOf rs id) ∈ ranking rs := mem_ranking.mpr ⟨hid, rfl⟩
  rw [← List.take_append_drop k (ranking rs)] at hsplit hmem
  rcases List.mem_append.mp hmem with hin | hrest
  · exact absurd (List.mem_map_of_mem hin) hout
  · exact (List.pairwise_append.mp hsplit).2.2 x hx _ hrest

end

/-! ## The average -/

theorem totalScore_eq (rs : List Report) : totalScore rs = (rs.map (·.score)).sum := by
  induction rs with
  | nil => rfl
  | cons r rs ih => rw [totalScore, ih, List.map_cons, List.sum_cons]

/-- The exact mean of the scores. -/
def mean (rs : List Report) : ℚ := ((rs.map (·.score)).sum : ℕ) / (rs.length : ℚ)

/-- The average of equal scores is each of them. -/
theorem roundDiv_mul_length {n d : Nat} (hd : 0 < d) : roundDiv (n * d) d = n := by
  have hd' : (d : ℚ) ≠ 0 := by exact_mod_cast Nat.ne_of_gt hd
  apply roundDiv_eq hd
  rw [Nat.cast_mul, mul_div_assoc, div_self hd', mul_one]

section
variable {rs : List Report} {n : Nat}

theorem le_averageScore (hrs : rs ≠ []) (h : ∀ r ∈ rs, n ≤ r.score) :
    n ≤ (ofReports rs).averageScore := by
  have hlength : 0 < rs.length := List.length_pos_iff.mpr hrs
  have hsum : rs.length * n ≤ (rs.map (·.score)).sum := by
    simpa using List.card_nsmul_le_sum (rs.map (·.score)) n (by simpa using h)
  calc n = roundDiv (n * rs.length) rs.length := (roundDiv_mul_length hlength).symm
    _ ≤ roundDiv (totalScore rs) rs.length := by
      rw [totalScore_eq, Nat.mul_comm]
      exact roundDiv_mono hsum _

theorem averageScore_le (hrs : rs ≠ []) (h : ∀ r ∈ rs, r.score ≤ n) :
    (ofReports rs).averageScore ≤ n := by
  have hlength : 0 < rs.length := List.length_pos_iff.mpr hrs
  have hsum : (rs.map (·.score)).sum ≤ rs.length * n := by
    simpa using List.sum_le_card_nsmul (rs.map (·.score)) n (by simpa using h)
  calc roundDiv (totalScore rs) rs.length ≤ roundDiv (n * rs.length) rs.length := by
        rw [totalScore_eq, Nat.mul_comm]
        exact roundDiv_mono hsum _
    _ = n := roundDiv_mul_length hlength

/-- The average is what the exact mean rounds to. -/
theorem roundsTo_averageScore (hrs : rs ≠ []) : RoundsTo (mean rs) (ofReports rs).averageScore := by
  have hlength : 0 < rs.length := List.length_pos_iff.mpr hrs
  rw [mean, ← totalScore_eq]
  exact roundsTo_roundDiv hlength

end

/-! ## Surveys -/

/-- What a survey says is so: every number counts what it stands for, the average is the mean rounded,
and the most violated rules are listed, as many as there are places. -/
structure Exact (rs : List Report) (s : Survey) : Prop where
  total : s.totalPackages = rs.length
  excellent : s.bands.excellent = rs.countP (90 ≤ ·.score)
  good : s.bands.good = rs.countP fun r => 80 ≤ r.score ∧ r.score < 90
  fair : s.bands.fair = rs.countP fun r => 70 ≤ r.score ∧ r.score < 80
  poor : s.bands.poor = rs.countP (·.score < 70)
  bands_sum : s.bands.excellent + s.bands.good + s.bands.fair + s.bands.poor = s.totalPackages
  statuses : ∀ x, x ∈ s.byStatus ↔ 0 < x.2 ∧ x.2 = rs.countP (·.status = x.1)
  statuses_nodup : (s.byStatus.map (·.1)).Nodup
  statuses_sum : (s.byStatus.map (·.2)).sum = s.totalPackages
  average : rs ≠ [] → ∀ n : ℤ, RoundsTo (mean rs) n ↔ n = s.averageScore
  between : rs ≠ [] → ∀ low high, (∀ r ∈ rs, low ≤ r.score ∧ r.score ≤ high) →
    low ≤ s.averageScore ∧ s.averageScore ≤ high
  top_length : s.topViolations.length = min 10 (violatedRules rs).toFinset.card
  top_nodup : (s.topViolations.map (·.1)).Nodup
  top_count : ∀ x ∈ s.topViolations, 0 < x.2 ∧ x.2 = violationsOf rs x.1
  top_order : s.topViolations.Pairwise (Ahead rs)
  /-- Rules that are violated and not listed come after those that are. -/
  left_out : ∀ id, 0 < violationsOf rs id → id ∉ s.topViolations.map (·.1) →
    ∀ x ∈ s.topViolations, Ahead rs x (id, violationsOf rs id)

/-- Two surveys say the same, up to the order of equals. -/
structure Same (s s' : Survey) : Prop where
  total : s'.totalPackages = s.totalPackages
  average : s'.averageScore = s.averageScore
  bands : s'.bands = s.bands
  statuses : s'.byStatus.Perm s.byStatus

section
variable {rs ws : List Report}

theorem countP_scores (p : Nat → Prop) [DecidablePred p] (rs : List Report) :
    (rs.map (·.score)).countP (p ·) = rs.countP fun r => p r.score := by
  rw [List.countP_map]
  rfl

theorem count_statuses (rs : List Report) (s : Status) :
    (rs.map (·.status)).count s = rs.countP (·.status = s) := by
  rw [List.count_eq_countP, List.countP_map]
  exact List.countP_congr fun r _ => by simp

theorem mem_byStatus {x : Status × Nat} : x ∈ (ofReports rs).byStatus ↔
    0 < x.2 ∧ x.2 = rs.countP (·.status = x.1) := by
  rw [ofReports, mem_counts, count_statuses]

theorem exact_ofReports (rs : List Report) : Exact rs (ofReports rs) where
  total := rfl
  excellent := (congrArg ScoreBands.excellent (bandsOf_eq _)).trans (countP_scores (90 ≤ ·) rs)
  good := (congrArg ScoreBands.good (bandsOf_eq _)).trans
    (countP_scores (fun s => 80 ≤ s ∧ s < 90) rs)
  fair := (congrArg ScoreBands.fair (bandsOf_eq _)).trans
    (countP_scores (fun s => 70 ≤ s ∧ s < 80) rs)
  poor := (congrArg ScoreBands.poor (bandsOf_eq _)).trans (countP_scores (· < 70) rs)
  bands_sum := (sum_bandsOf _).trans (List.length_map _)
  statuses _ := mem_byStatus
  statuses_nodup := nodup_keys_counts _
  statuses_sum := (sum_counts _).trans (List.length_map _)
  average hrs n := by
    constructor
    · exact fun hn => hn.unique (roundsTo_averageScore hrs)
    · rintro rfl
      exact roundsTo_averageScore hrs
  between hrs low high h :=
    ⟨le_averageScore hrs fun r hr => (h r hr).1, averageScore_le hrs fun r hr => (h r hr).2⟩
  top_length := by
    rw [ofReports, List.length_take, length_ranking]
    rfl
  top_nodup := (nodup_keys_ranking rs).sublist ((List.take_sublist _ _).map _)
  top_count x hx := mem_ranking.mp (List.mem_of_mem_take hx)
  top_order := (pairwise_ranking rs).sublist (List.take_sublist _ _)
  left_out id hid hout x hx := ahead_of_notMem_take hx hid hout

theorem same_of_perm (h : rs.Perm ws) : Same (ofReports rs) (ofReports ws) where
  total := h.symm.length_eq
  average := by
    have hscores : totalScore ws = totalScore rs := by
      rw [totalScore_eq, totalScore_eq]
      exact (h.symm.map _).sum_eq
    show roundDiv (totalScore ws) ws.length = roundDiv (totalScore rs) rs.length
    rw [hscores, h.length_eq]
  bands := by
    have hscores := h.symm.map (·.score)
    show bandsOf (ws.map (·.score)) = bandsOf (rs.map (·.score))
    simp only [bandsOf_eq, hscores.countP_eq]
  statuses := perm_counts (h.symm.map _)

/-- **Surveys are exact**, their order aside they do not depend on the order of the reports, and the
numbers of two lists of reports together are the sums of those of each. -/
theorem ofReports_exact (rs : List Report) :
    Exact rs (ofReports rs) ∧
    (∀ id, countIn (ruleCounts rs) id = violationsOf rs id) ∧
    (∀ ws, rs.Perm ws →
      Same (ofReports rs) (ofReports ws) ∧ (ruleCounts ws).Perm (ruleCounts rs)) ∧
    ∀ ws,
      (ofReports (rs ++ ws)).bands = (ofReports rs).bands + (ofReports ws).bands ∧
      (∀ s, countIn (ofReports (rs ++ ws)).byStatus s =
        countIn (ofReports rs).byStatus s + countIn (ofReports ws).byStatus s) ∧
      ∀ id, countIn (ruleCounts (rs ++ ws)) id =
        countIn (ruleCounts rs) id + countIn (ruleCounts ws) id := by
  refine ⟨exact_ofReports rs, countIn_ruleCounts rs, fun ws h => ⟨same_of_perm h, ?_⟩,
    fun ws => ⟨?_, fun s => ?_, fun id => ?_⟩⟩
  · exact perm_counts (perm_violatedRules h.symm)
  · show bandsOf ((rs ++ ws).map (·.score)) = _
    rw [List.map_append, bandsOf_append]
    rfl
  · simp only [ofReports, countIn_counts, List.map_append, List.count_append]
  · rw [countIn_ruleCounts, countIn_ruleCounts, countIn_ruleCounts, violationsOf_append]

end

/-! ### Eleven rules for ten places -/

namespace Tied

def verdict (id : Text) : Verdict :=
  ⟨id, id, .fail, .warning, none, "It was looked at", none, none, [], false, []⟩

def report (score : Nat) (ids : List Text) : Report :=
  ⟨[], [], [], .utility, score, .fail, ids.map verdict, [], .none, [], [], 0, 0, none⟩

/-- Each rule is violated once. -/
def reports : List Report :=
  [report 90 ["a", "b", "c", "d", "e", "f"], report 95 ["g", "h", "i", "j", "k"]]

end Tied

open Tied in
/-- All rules are violated equally often, so that the last one is left out. The mean of 92.5 goes to the
even neighbour. -/
theorem ofReports_exact_tied :
    reports.Perm reports.reverse ∧ Same (ofReports reports) (ofReports reports.reverse) ∧
      (∀ n : ℤ, RoundsTo (mean reports) n ↔ n = 92) ∧
      (ofReports reports).topViolations.map (·.1) =
        ["a", "b", "c", "d", "e", "f", "g", "h", "i", "j"] ∧
      0 < violationsOf reports "k" ∧
      ∀ x ∈ (ofReports reports).topViolations, Ahead reports x ("k", violationsOf reports "k") := by
  have hperm : reports.Perm reports.reverse := (List.reverse_perm _).symm
  have hne : reports ≠ [] := by decide
  have hall : (ruleCounts reports).Pairwise fun a b => decide (b.2 ≤ a.2) = true := by decide
  have htop : (ofReports reports).topViolations.map (·.1) =
      ["a", "b", "c", "d", "e", "f", "g", "h", "i", "j"] := by
    rw [ofReports, ranking, List.mergeSort_of_pairwise hall]
    decide
  have hk : 0 < violationsOf reports "k" := by decide
  have h := ofReports_exact reports
  refine ⟨hperm, (h.2.2.1 _ hperm).1, h.1.average hne, htop, hk, h.1.left_out _ hk ?_⟩
  rw [htop]
  decide

end Survey

end PackageAudit
