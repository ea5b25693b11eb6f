import PackageAudit.Proofs.Batch.Outcome
import PackageAudit.Proofs.Decimal.Order

/-! # What a batch announces

The notices of a batch are determined by the order in which the results came in, which the tasks
decide: for every result its report, if there is one, and then the totals (`notices_foldl`). The
totals never go back, because rounding keeps the order (`percentage_mono`); where a chunk ends they do
not depend on the order either, because up to there the results are those of the first items
(`perm_take_parts`). What those who are told answer changes nothing (`Reaches.answered`).
-/

namespace PackageAudit

namespace Batch

/-! ## Percentages -/

namespace Ledger

theorem value_hundred : (Binary64.ofInt 100).value = 100 := by
  exact_mod_cast Binary64.value_ofInt_natCast (m := 100) (by norm_num)

theorem share_le {done total : Nat} (h : done ≤ total) :
    (done : ℚ) / total ≤ 1 :=
  div_le_one_of_le₀ (by exact_mod_cast h) (Nat.cast_nonneg total)

theorem value_whole {total : Nat} (htotal : 0 < total) :
    (Binary64.ofRatio false total total).value = 1 := by
  have hone : (total : ℚ) / total = (1 : Nat) := by
    rw [Nat.cast_one, div_self (by exact_mod_cast Nat.ne_of_gt htotal)]
  exact_mod_cast Binary64.value_ofRatio_natCast false htotal hone (by norm_num)

theorem percentage_mono {j k total : Nat} (hjk : j ≤ k) (hk : k ≤ total) :
    percentage j total ≤ percentage k total := by
  unfold percentage
  split
  · exact Nat.le_refl _
  next htotal =>
  have hpos : 0 < total := Nat.pos_of_ne_zero htotal
  have hsmall : (1 : ℚ) < 2 ^ 1023 := one_lt_pow₀ one_lt_two (by decide)
  have hshare : (j : ℚ) / total ≤ k / total :=
    div_le_div_of_nonneg_right (by exact_mod_cast hjk) (Nat.cast_nonneg total)
  have hwhole : (total : ℚ) / total = 1 := div_self (by exact_mod_cast htotal)
  have hle : (Binary64.ofRatio false k total).value ≤ 1 := by
    rw [← value_whole hpos]
    exact Binary64.value_ofRatio_mono false hpos hpos ((share_le hk).trans_eq hwhole.symm)
      (hwhole.trans_lt hsmall)
  refine Binary64.round_mono (Binary64.value_mul_mono ?_ ?_)
  · exact Binary64.value_ofRatio_mono false hpos hpos hshare
      ((share_le hk).trans_lt hsmall)
  · rw [value_hundred]
    calc (Binary64.ofRatio false k total).value * 100 ≤ 1 * 100 :=
          mul_le_mul_of_nonneg_right hle (by norm_num)
      _ < 2 ^ 7 := by norm_num
      _ ≤ 2 ^ 1023 := pow_le_pow_right₀ one_le_two (by decide)

theorem percentage_self (total : Nat) : percentage total total = 100 := by
  unfold percentage
  split
  · rfl
  next htotal =>
  refine Binary64.round_eq (Binary64.value_mul_natCast ?_ (by norm_num))
  rw [value_whole (Nat.pos_of_ne_zero htotal), value_hundred]
  norm_num

theorem percentage_le {k total : Nat} (hk : k ≤ total) : percentage k total ≤ 100 :=
  percentage_self total ▸ percentage_mono hk (Nat.le_refl total)

theorem completed_foldl (l : Ledger) (order : List Attempt) :
    (order.foldl record l).completed = l.completed + order.length := by
  induction order generalizing l with
  | nil => rfl
  | cons a order ih => rw [List.foldl_cons, ih, completed_record, List.length_cons]; omega

end Ledger

/-! ## The notices of an order of results -/

/-- Did the audit end with an error? -/
def Attempt.failed (a : Attempt) : Bool := a.error?.isSome

section

variable (total : Nat) (order : List Attempt)

/-- The totals when the first `k` results were recorded. -/
def totals (k : Nat) : Progress :=
  ⟨total, k, (order.take k).countP Attempt.failed, Ledger.percentage k total⟩

/-- What is announced of the result with a number: its report, if it has one, and then the totals
that it leads to. -/
def noticesOf (a : Attempt) (i : Nat) : List Notice :=
  (a.report?.map fun s => Notice.completed s.1 s.2).toList ++ [.progress (totals total order (i + 1))]

/-- What is announced of all results. -/
def allNotices : List Notice := order.zipIdx.flatMap fun p => noticesOf total order p.1 p.2

variable {total order}

theorem progress_foldl (total : Nat) (order : List Attempt) :
    (order.foldl Ledger.record (.start total)).progress = totals total order order.length := by
  have htotal : (order.foldl Ledger.record (.start total)).total = total := Ledger.total_foldl ..
  have hcompleted : (order.foldl Ledger.record (.start total)).completed = order.length := by
    rw [Ledger.completed_foldl]
    exact Nat.zero_add _
  have hfailed : (order.foldl Ledger.record (.start total)).failures.length =
      order.countP Attempt.failed := by
    rw [Ledger.failures_foldl]
    exact List.length_filterMap_eq_countP ..
  rw [Ledger.progress, htotal, hcompleted, hfailed, totals, List.take_length]

theorem totals_append {k : Nat} (hk : k ≤ order.length) (more : List Attempt) :
    totals total (order ++ more) k = totals total order k := by
  rw [totals, List.take_append_of_le_length hk, totals]

theorem allNotices_snoc (total : Nat) (order : List Attempt) (a : Attempt) :
    allNotices total (order ++ [a]) =
      allNotices total order ++ noticesOf total (order ++ [a]) a order.length := by
  have hbefore : (order.zipIdx.flatMap fun p => noticesOf total (order ++ [a]) p.1 p.2) =
      allNotices total order := by
    refine List.flatMap_congr fun p hp => ?_
    have hi : p.2 + 1 ≤ order.length := by simpa using Nat.succ_le_of_lt (List.snd_lt_of_mem_zipIdx hp)
    rw [noticesOf, totals_append hi]
    rfl
  rw [allNotices, List.zipIdx_append, List.flatMap_append, hbefore]
  simp

/-- **The notices are determined by the order of the results.** -/
theorem notices_foldl (total : Nat) (order : List Attempt) :
    (order.foldl Ledger.record (.start total)).notices = allNotices total order := by
  induction order using List.reverseRecOn with
  | nil => rfl
  | append_singleton order a ih =>
    have hlast : ((order.foldl Ledger.record (.start total)).record a).progress =
        totals total (order ++ [a]) (order.length + 1) := by
      have h := progress_foldl total (order ++ [a])
      rwa [List.foldl_append, List.length_append] at h
    rw [List.foldl_append, List.foldl_cons, List.foldl_nil, Ledger.notices_record, ih, hlast,
      List.append_assoc, allNotices_snoc, noticesOf]

/-- One notice for each result tells the totals, and these count up to it. -/
theorem progress_allNotices : (allNotices total order).filterMap Notice.progress? =
    (List.range order.length).map fun i => totals total order (i + 1) := by
  have hone (a : Attempt) (i : Nat) : (noticesOf total order a i).filterMap Notice.progress? =
      [totals total order (i + 1)] := by
    cases h : a.report? <;> simp [noticesOf, h, Notice.progress?, List.filterMap_cons]
  rw [allNotices, List.filterMap_flatMap]
  simp only [hone]
  rw [← List.map_eq_flatMap, List.range_eq_range', ← List.zipIdx_map_snd 0 order, List.map_map]
  rfl

theorem completed_allNotices : (allNotices total order).filterMap Notice.completed? =
    order.filterMap Attempt.report? := by
  have hone (a : Attempt) (i : Nat) : (noticesOf total order a i).filterMap Notice.completed? =
      a.report?.toList := by
    cases h : a.report? <;> simp [noticesOf, h, Notice.completed?, List.filterMap_cons]
  rw [allNotices, List.filterMap_flatMap]
  simp only [hone]
  rw [← List.zipIdx_map_fst 0 order, List.filterMap_map, List.filterMap_eq_flatMap_toList]
  simp

end

/-! ## The order and the items -/

theorem flatten_take_chunks {α : Type} (extra : Nat) (items : List α) (n : Nat) :
    ((chunks extra items).take n).flatten = items.take (n * (extra + 1)) := by
  fun_induction chunks extra items generalizing n with
  | case1 => simp
  | case2 x rest ih =>
    cases n with
    | zero => simp
    | succ n =>
      have hstep : (n + 1) * (extra + 1) = (extra + n * (extra + 1)) + 1 := by
        rw [Nat.add_mul]; omega
      rw [List.take_succ_cons, List.flatten_cons, ih, hstep, List.take_succ_cons, List.take_add]
      rfl

section

variable {audit : Text → Except Text Report} {continueOnError : Bool} {chunks : List (List Text)}

/-- A batch goes through the first chunks, and through all unless it is stopped. -/
theorem through_eq_take (audit : Text → Except Text Report) (continueOnError : Bool)
    (chunks : List (List Text)) :
    ∃ m, (through audit continueOnError chunks).1 = chunks.take m ∧
      ((through audit continueOnError chunks).2 = none → chunks.length ≤ m) := by
  induction chunks with
  | nil => exact ⟨0, rfl, fun _ => Nat.le_refl 0⟩
  | cons chunk rest ih =>
    cases h : halt continueOnError (attempts audit chunk) with
    | some f => exact ⟨1, by simp [through, h], by simp [through, h]⟩
    | none =>
      obtain ⟨m, hm, hall⟩ := ih
      exact ⟨m + 1, by simp [through, h, hm], by simpa [through, h] using hall⟩

theorem perm_parts {parts : List (List Attempt)}
    (h : List.Forall₂ (fun chunk part => List.Perm part (attempts audit chunk)) chunks parts) :
    parts.flatten.Perm (attempts audit chunks.flatten) := by
  induction h with
  | nil => exact .nil
  | cons hp _ ih => simpa [attempts] using hp.append ih

/-- Where a chunk ends, the results so far are those of the first items, whatever the order. -/
theorem perm_take_parts {defaultParallel m n : Nat} {o : Options} {items : List Text}
    {parts : List (List Attempt)}
    (h : List.Forall₂ (fun chunk part => List.Perm part (attempts audit chunk))
      ((chunked defaultParallel o items).take m) parts) :
    let size := max 1 (o.maxParallel.getD defaultParallel).toNat
    (parts.flatten.take (n * size)).Perm
      (attempts audit (items.take (min (n * size) parts.flatten.length))) := by
  intro size
  have hflatten (k : Nat) : ((chunked defaultParallel o items).take k).flatten =
      items.take (k * size) := by
    have hsize : (o.maxParallel.getD defaultParallel).toNat - 1 + 1 = size := by omega
    rw [chunked, flatten_take_chunks, hsize]
  have hperm : (parts.take n).flatten.Perm (attempts audit (items.take (min n m * size))) := by
    have hp := perm_parts (List.forall₂_take n h)
    rwa [List.take_take, hflatten] at hp
  have hlength : parts.flatten.length = min (m * size) items.length := by
    rw [length_parts h, hflatten, List.length_take]
  have hprefix : (parts.take n).flatten.length = min (min n m * size) items.length := by
    rw [hperm.length_eq, attempts, List.length_map, List.length_take]
  have hsplit : parts.flatten = (parts.take n).flatten ++ (parts.drop n).flatten := by
    rw [← List.flatten_append, List.take_append_drop]
  have hmin : min n m * size = min (n * size) (m * size) :=
    (Nat.mul_min_mul_right ..).symm
  have htake : parts.flatten.take (n * size) = (parts.take n).flatten := by
    have hfirst : parts.flatten.take (parts.take n).flatten.length = (parts.take n).flatten := by
      rw [hsplit, List.take_left]
    rw [← hfirst, List.take_eq_take_iff]
    omega
  have hitems : items.take (min n m * size) = items.take (min (n * size) parts.flatten.length) := by
    rw [List.take_eq_take_iff]
    omega
  rwa [htake, ← hitems]

end

/-! ## Answers -/

section

variable {audit : Text → Except Text Report} {continueOnError : Bool} {heard : Notice → Bool}
  {s s' start : State}

/-- A task goes on in the same way whatever the answers to the notices were. -/
theorem Step.answered (h : Step audit continueOnError heard s s')
    {given' : List (Notice × Option Text)} (hgiven' : given'.map (·.1) = s'.given.map (·.1)) :
    ∃ given : List (Notice × Option Text), given.map (·.1) = s.given.map (·.1) ∧
      Step audit continueOnError heard { s with given := given } { s' with given := given' } := by
  cases h with
  | next hp hl => exact ⟨given', hgiven', .next hp hl⟩
  | begin hp => exact ⟨given', hgiven', .begin hp⟩
  | post hp => exact ⟨given', hgiven', .post hp⟩
  | gathered hp => exact ⟨given', hgiven', .gathered hp⟩
  | joined hp hq hr hs => exact ⟨given', hgiven', .joined hp hq hr hs⟩
  | stop hp hq hr hs => exact ⟨given', hgiven', .stop hp hq hr hs⟩
  | finish hp hl => exact ⟨given', hgiven', .finish hp hl⟩
  | leave hp hr => exact ⟨given', hgiven', .leave hp hr⟩
  | take hr hq => exact ⟨given', hgiven', .take hr hq⟩
  | @announce n rest error hr =>
    rw [List.map_append] at hgiven'
    obtain ⟨given, last, rfl, hgiven, hlast⟩ := List.map_eq_append_iff.1 hgiven'
    obtain ⟨⟨m, answer⟩, rfl, rfl⟩ := List.map_eq_singleton_iff.1 hlast
    exact ⟨given, hgiven, .announce answer hr⟩
  | done hr => exact ⟨given', hgiven', .done hr⟩
  | close hr hq => exact ⟨given', hgiven', .close hr hq⟩

/-- **Every state can be reached with any other answers to the notices.** -/
theorem Reaches.answered (hstart : start.given = [])
    (h : Reaches audit continueOnError heard start s) {given : List (Notice × Option Text)}
    (hgiven : given.map (·.1) = s.given.map (·.1)) :
    Reaches audit continueOnError heard start { s with given := given } := by
  induction h generalizing given with
  | refl =>
    obtain rfl : given = [] := by simpa [hstart] using hgiven
    exact hstart ▸ .refl
  | tail _ hstep ih =>
    obtain ⟨before, hbefore, hstep'⟩ := hstep.answered hgiven
    exact .tail (ih hbefore) hstep'

end

/-! ## What is announced -/

/-- The results of a batch came in in an order, and those who are told were told of them in that
order: of each result its report, if there is one, and then the totals. A chunk has `size` items. -/
structure Announced (audit : Text → Except Text Report) (items : List Text) (size : Nat)
    (heard : Notice → Bool) (order : List Attempt) (s : State) : Prop where
  successes : s.ledger.successes = order.filterMap Attempt.report?
  failures : s.ledger.failures = order.filterMap Attempt.error?
  audited : ∀ a ∈ order, a.result = audit a.item
  /-- Chunk by chunk, each item was recorded once. -/
  chunkwise : ∀ n, ((order.take (n * size)).map (·.item)).Perm
    (items.take (min (n * size) order.length))
  given : s.given.map (·.1) = (allNotices items.length order).filter heard
  /-- The totals are told once for each result. -/
  progress : (∀ p, heard (.progress p)) → (s.given.map (·.1)).filterMap Notice.progress? =
    (List.range order.length).map fun i => totals items.length order (i + 1)
  /-- The reports are told once for each item that has one. -/
  completed : (∀ item r, heard (.completed item r)) →
    (s.given.map (·.1)).filterMap Notice.completed? = order.filterMap Attempt.report?
  failed_mono : ∀ j k, j ≤ k →
    (totals items.length order j).failed ≤ (totals items.length order k).failed
  percentage_mono : ∀ j k, j ≤ k → k ≤ items.length →
    (totals items.length order j).percentage ≤ (totals items.length order k).percentage
  percentage_le : ∀ k ≤ items.length, (totals items.length order k).percentage ≤ 100
  percentage_last : (totals items.length order items.length).percentage = 100
  /-- Where a chunk ends, the failures are those among the first items. -/
  failed_chunk : ∀ n, (totals items.length order (min (n * size) order.length)).failed =
    (items.take (min (n * size) order.length)).countP fun item => (error? audit item).isSome

section

variable {audit : Text → Except Text Report} {heard : Notice → Bool}

theorem filterMap_filter_heard {α : Type} {f : Notice → Option α} (ns : List Notice)
    (h : ∀ n, (f n).isSome → heard n) : (ns.filter heard).filterMap f = ns.filterMap f := by
  rw [List.filterMap_filter]
  refine List.filterMap_congr fun n _ => ?_
  cases hn : heard n with
  | true => rfl
  | false =>
    cases hf : f n with
    | none => rfl
    | some x => exact absurd (h n (by rw [hf]; rfl)) (by simp [hn])

/-- What a batch has announced when it has gone through its first chunks. -/
theorem announced {defaultParallel m : Nat} {o : Options} {items : List Text}
    {parts : List (List Attempt)} {s : State}
    (hparts : List.Forall₂ (fun chunk part => List.Perm part (attempts audit chunk))
      ((chunked defaultParallel o items).take m) parts)
    (hledger : s.ledger = parts.flatten.foldl Ledger.record (.start items.length))
    (hgiven : s.given.map (·.1) = s.ledger.notices.filter heard) :
    Announced audit items (max 1 (o.maxParallel.getD defaultParallel).toNat) heard parts.flatten
      s := by
  have hnotices : s.given.map (·.1) = (allNotices items.length parts.flatten).filter heard := by
    rw [hgiven, hledger, notices_foldl]
  refine {
    successes := by rw [hledger, Ledger.successes_foldl]; rfl
    failures := by rw [hledger, Ledger.failures_foldl]; rfl
    audited := fun a ha => ?_
    chunkwise := fun n => ?_
    given := hnotices
    progress := fun h => ?_
    completed := fun h => ?_
    failed_mono := fun j k hjk => List.Sublist.countP_le (List.take_sublist_take_left hjk)
    percentage_mono := fun j k hjk hk => Ledger.percentage_mono hjk hk
    percentage_le := fun k hk => Ledger.percentage_le hk
    percentage_last := Ledger.percentage_self _
    failed_chunk := fun n => ?_ }
  · have hmem := (perm_parts hparts).subset ha
    obtain ⟨item, -, rfl⟩ := List.mem_map.1 hmem
    rfl
  · have h := (perm_take_parts (n := n) hparts).map Attempt.item
    simpa [attempts, Function.comp_def] using h
  · rw [hnotices, filterMap_filter_heard _ (f := Notice.progress?), progress_allNotices]
    rintro (⟨item, r⟩ | p) hn
    · exact absurd hn (by simp [Notice.progress?])
    · exact h p
  · rw [hnotices, filterMap_filter_heard _ (f := Notice.completed?), completed_allNotices]
    rintro (⟨item, r⟩ | p) hn
    · exact h item r
    · exact absurd hn (by simp [Notice.completed?])
  · have h := (perm_take_parts (n := n) hparts).countP_eq Attempt.failed
    rw [attempts, List.countP_map, List.take_eq_take_min] at h
    exact h

/-- Whatever the order in which the tasks take turns, a batch comes to its end, and what it told
those who listen is determined by the order in which the results came in. The results of all items
came in unless the batch was stopped. What those who were told answered makes no difference to the
states that can be reached. -/
theorem ends_with_all_announced (audit : Text → Except Text Report) (heard : Notice → Bool)
    (defaultParallel : Nat) (o : Options) (items : List Text) :
    let size := max 1 (o.maxParallel.getD defaultParallel).toNat
    let start : State := .start items.length (chunked defaultParallel o items)
    Ends audit o.continueOnError heard
      (fun s => ∃ stopped order, s.phase = .ended stopped ∧ Announced audit items size heard order s ∧
        (stopped = none → order.length = items.length) ∧
        (o.continueOnError = true → stopped = none))
      start ∧
    ∀ s, Reaches audit o.continueOnError heard start s →
      ∀ given : List (Notice × Option Text), given.map (·.1) = s.given.map (·.1) →
        Reaches audit o.continueOnError heard start { s with given := given } := by
  intro size start
  refine ⟨Sound.start.ends.mono ?_, fun s hreach given hgiven => hreach.answered rfl hgiven⟩
  rintro s ⟨hs, stopped, hp⟩
  obtain ⟨done, hthrough, hsettled, hgiven⟩ := hs.at_end (.inr hp)
  obtain ⟨parts, hparts, hledger⟩ := hsettled.recorded
  obtain ⟨m, hm, hall⟩ := through_eq_take audit o.continueOnError (chunked defaultParallel o items)
  rw [hthrough] at hm hall
  obtain rfl : done = _ := hm
  refine ⟨stopped, parts.flatten, hp, announced hparts hledger hgiven, fun hnone => ?_,
    fun hon => ?_⟩
  · rw [length_parts hparts, List.take_of_length_le (hall hnone), flatten_chunked]
  · rw [hon, through_true] at hthrough
    exact (Prod.mk.inj hthrough).2.symm

end

namespace Mixed

/-- Two items at a time, with an error as the answer to every notice: the item that fails is in the
first chunk, so its failure has been told when that ends. -/
theorem ends_with_four_announced : ∃ s,
    Reaches audit true (fun _ => true) (.start 4 (chunked 10 ⟨some 2, true⟩ items)) s ∧
      s.phase = .ended none ∧ (∀ answered ∈ s.given, answered.2 = some (Text.ofString "busy")) ∧
      ∃ p q : Progress, (s.given.map (·.1)).filterMap Notice.progress? =
        [p, ⟨4, 2, 1, 50⟩, q, ⟨4, 4, 1, 100⟩] ∧ p.percentage = 25 ∧ q.percentage = 75 := by
  have h := ends_with_all_announced audit (fun _ => true) 10 ⟨some 2, true⟩ items
  obtain ⟨s, hreach, stopped, order, hp, hannounced, hall, hon⟩ := h.1.exists_reaches
  obtain rfl : stopped = none := hon rfl
  have hlength : order.length = 4 := hall rfl
  let busy : List (Notice × Option Text) := s.given.map fun n => (n.1, some (Text.ofString "busy"))
  have hbusy : busy.map (·.1) = s.given.map (·.1) := by simp [busy, Function.comp_def]
  refine ⟨{ s with given := busy }, h.2 s hreach busy hbusy, hp, ?_,
    totals 4 order 1, totals 4 order 3, ?_, ?_, ?_⟩
  · rintro answered hanswered
    obtain ⟨n, -, rfl⟩ := List.mem_map.1 hanswered
    rfl
  · have htwo : totals 4 order 2 = ⟨4, 2, 1, 50⟩ := by
      have hfailed := hannounced.failed_chunk 1
      rw [hlength] at hfailed
      exact Progress.mk.injEq .. ▸ ⟨rfl, rfl, hfailed.trans (by decide), by decide +kernel⟩
    have hfour : totals 4 order 4 = ⟨4, 4, 1, 100⟩ := by
      have hfailed := hannounced.failed_chunk 2
      rw [hlength] at hfailed
      exact Progress.mk.injEq .. ▸ ⟨rfl, rfl, hfailed.trans (by decide), by decide +kernel⟩
    have htotals := hannounced.progress fun _ => rfl
    rw [hlength] at htotals
    rw [← htwo, ← hfour, hbusy]
    exact htotals
  · exact (by decide +kernel : Ledger.percentage 1 4 = 25)
  · exact (by decide +kernel : Ledger.percentage 3 4 = 75)

end Mixed

end Batch

end PackageAudit
