import PackageAudit.Proofs.Batch.Tasks

/-! # What a batch gives

Whatever the order in which its tasks take turns, a batch gives what auditing the items one after the
other gives. If it is to go on at failures, it comes to its end and accounts for every item
(`ends_with_all_results`). If it is to stop, the first item that fails ends it, first in the order of
the items and not in that of the results; the rest of its chunk is recorded and no later chunk begun
(`ends_at_first_failure`).
-/

namespace PackageAudit

namespace Batch

section

variable {audit : Text → Except Text Report} {items : List Text} {item : Text}

theorem error?_eq_none : error? audit item = none ↔ ∃ r, audit item = .ok r := by
  cases h : audit item <;> simp [error?, Attempt.error?, h]

theorem length_reports_add_errors (audit : Text → Except Text Report) (items : List Text) :
    (items.filterMap (report? audit)).length + (items.filterMap (error? audit)).length =
      items.length := by
  induction items with
  | nil => rfl
  | cons item items ih =>
    cases h : audit item <;>
      simp [report?, error?, Attempt.report?, Attempt.error?, h] at ih ⊢ <;>
      omega

end

/-- The result is that of auditing the items one after the other, but for the order of the results
within each chunk. -/
structure Sequential (audit : Text → Except Text Report) (items : List Text)
    (chunks : List (List Text)) (r : BatchResult) : Prop where
  successes : InChunks (report? audit) chunks r.successes
  failures : InChunks (error? audit) chunks r.failures
  reports : r.successes.Perm (items.filterMap (report? audit))
  errors : r.failures.Perm (items.filterMap (error? audit))
  total : r.totalItems = r.successes.length + r.failures.length
  succeeded : r.succeeded ↔ ∀ item ∈ items, ∃ report, audit item = .ok report

section

variable {audit : Text → Except Text Report} {items : List Text} {chunks : List (List Text)}

theorem Accounts.sequential {l : Ledger} (h : Accounts audit items.length chunks l)
    (hflatten : chunks.flatten = items) :
    BatchResult.ofParts items.length l.successes l.failures = .accepted (.ofLedger l) ∧
      Sequential audit items chunks (.ofLedger l) := by
  have hreports : l.successes.Perm (items.filterMap (report? audit)) := hflatten ▸ h.successes.perm
  have herrors : l.failures.Perm (items.filterMap (error? audit)) := hflatten ▸ h.failures.perm
  have hlength : l.successes.length + l.failures.length = items.length := by
    rw [hreports.length_eq, herrors.length_eq, length_reports_add_errors]
  refine ⟨?_, h.successes, h.failures, hreports, herrors, h.total.trans hlength.symm, ?_⟩
  · rw [BatchResult.ofParts, if_pos (by rw [hlength]), BatchResult.ofLedger, h.total]
    rfl
  · have hempty : l.failures = [] ↔ items.filterMap (error? audit) = [] :=
      ⟨fun hnil => (hnil ▸ herrors).nil_eq.symm, fun hnil => (hnil ▸ herrors).eq_nil⟩
    simp only [BatchResult.ofLedger, BatchResult.succeeded, List.isEmpty_iff, hempty,
      List.filterMap_eq_nil_iff, error?_eq_none]

/-- Where a batch that is to go on at failures ends, it has gone through all chunks. -/
theorem Sound.recorded_all {heard : Notice → Bool} {total : Nat} {s : State}
    {stopped : Option Failure} (hs : Sound audit true heard total chunks s)
    (hp : s.phase = .ended stopped) : stopped = none ∧ Recorded audit total chunks s.ledger := by
  obtain ⟨done, hthrough, hsettled, -⟩ := hs.at_end (.inr hp)
  obtain ⟨rfl, rfl⟩ := Prod.mk.inj ((through_true chunks).symm.trans hthrough)
  exact ⟨rfl, hsettled.recorded⟩

/-- A batch that is to go on at failures comes to its end, and what it gives is what auditing the
items one after the other gives. The chunks are slices of at least one item; neither their size nor
the order in which the tasks take turns makes a difference to what the results are. -/
theorem ends_with_all_results (audit : Text → Except Text Report) (heard : Notice → Bool)
    (defaultParallel : Nat) (maxParallel : Option Int) (items : List Text) :
    let size := max 1 (maxParallel.getD defaultParallel).toNat
    let chunks := chunked defaultParallel ⟨maxParallel, true⟩ items
    (∀ n, chunks[n]? =
      if n * size < items.length then some ((items.drop (n * size)).take size) else none) ∧
    Ends audit true heard
      (fun s => s.phase = .ended none ∧
        BatchResult.ofParts items.length s.ledger.successes s.ledger.failures =
          .accepted (.ofLedger s.ledger) ∧
        Sequential audit items chunks (.ofLedger s.ledger) ∧
        ∃ schedule, run audit schedule defaultParallel ⟨maxParallel, true⟩ items =
          (s.ledger, none))
      (.start items.length chunks) ∧
    ∀ maxParallel' s s', Reaches audit true heard (.start items.length chunks) s →
      Reaches audit true heard
        (.start items.length (chunked defaultParallel ⟨maxParallel', true⟩ items)) s' →
      s.phase = .ended none → s'.phase = .ended none →
      s.ledger.successes.Perm s'.ledger.successes ∧ s.ledger.failures.Perm s'.ledger.failures := by
  intro size chunks
  have hflatten : ∀ m, (chunked defaultParallel ⟨m, true⟩ items).flatten = items :=
    fun _ => flatten_chunked ..
  refine ⟨getElem?_chunked defaultParallel ⟨maxParallel, true⟩ items, Sound.start.ends.mono ?_, ?_⟩
  · rintro s ⟨hs, stopped, hp⟩
    obtain ⟨rfl, hrecorded⟩ := hs.recorded_all hp
    obtain ⟨hfits, hsequential⟩ := hrecorded.accounts.sequential (hflatten maxParallel)
    exact ⟨hp, hfits, hsequential, run_iff.2 ⟨chunks, through_true chunks, hrecorded⟩⟩
  · intro maxParallel' s s' hreach hreach' hp hp'
    have hs := (Sound.start.reaches hreach).recorded_all hp
    have hs' := (Sound.start.reaches hreach').recorded_all hp'
    obtain ⟨-, hsequential⟩ := hs.2.accounts.sequential (hflatten maxParallel)
    obtain ⟨-, hsequential'⟩ := hs'.2.accounts.sequential (hflatten maxParallel')
    exact ⟨hsequential.reports.trans hsequential'.reports.symm,
      hsequential.errors.trans hsequential'.errors.symm⟩

end

namespace Mixed

def good : Text := "good"

def bad : Text := "bad"

def other : Text := "other"

def report : Report := .build ⟨[], [], [], .utility, [], [], [], [], 0⟩ [] [] [] 0

/-- One item fails, wherever it stands. -/
def audit (item : Text) : Except Text Report := if item = bad then .error "gone" else .ok report

/-- Two of the items are the same. -/
def items : List Text := [good, bad, good, other]

/-- One item at a time. -/
theorem ends_with_three_and_one : ∃ s,
    Reaches audit true (fun _ => true) (.start 4 (chunked 10 ⟨some 0, true⟩ items)) s ∧
      s.phase = .ended none ∧ s.ledger.failures = [(bad, Text.ofString "gone")] ∧
      s.ledger.successes.Perm [(good, report), (good, report), (other, report)] := by
  obtain ⟨s, hreach, hp, -, hr, -⟩ :=
    (ends_with_all_results audit (fun _ => true) 10 (some 0) items).2.1.exists_reaches
  exact ⟨s, hreach, hp, List.perm_singleton.1 hr.errors, hr.reports⟩

end Mixed

section

/-- A batch that is to stop at failures ends with one exactly if an item fails. The failure is that
of the first item that fails, in the order of the items; when the batch stops, its chunk and those
before it are recorded and announced, and no item of a later chunk was begun. If no item fails, the
batch is in no way different from one that is to go on. -/
theorem ends_at_first_failure (audit : Text → Except Text Report) (heard : Notice → Bool)
    (defaultParallel : Nat) (maxParallel : Option Int) (items : List Text) :
    let chunks := chunked defaultParallel ⟨maxParallel, false⟩ items
    Ends audit false heard
      (fun s => ∃ stopped, s.phase = .ended stopped ∧
        (stopped = none ↔ ∀ item ∈ items, ∃ r, audit item = .ok r) ∧
        ∃ schedule, run audit schedule defaultParallel ⟨maxParallel, false⟩ items =
          (s.ledger, stopped))
      (.start items.length chunks) ∧
    (∀ s stopped, Reaches audit false heard (.start items.length chunks) s →
      (s.phase = .closing stopped ∨ s.phase = .ended stopped) →
      ∀ front item back text, items = front ++ item :: back →
        (∀ x ∈ front, ∃ r, audit x = .ok r) → audit item = .error text →
        stopped = some (.batchStopped item text) ∧
        ∃ before inner outer beyond, chunks = before ++ (inner ++ item :: outer) :: beyond ∧
          front = before.flatten ++ inner ∧
          Accounts audit items.length (before ++ [inner ++ item :: outer]) s.ledger ∧
          s.given.map (·.1) = s.ledger.notices.filter heard ∧
          s.begun.Perm (before ++ [inner ++ item :: outer]).flatten) ∧
    ((∀ item ∈ items, ∃ r, audit item = .ok r) → ∀ s,
      Reaches audit false heard (.start items.length chunks) s ↔
        Reaches audit true heard (.start items.length chunks) s) := by
  intro chunks
  have hflatten : chunks.flatten = items := flatten_chunked ..
  refine ⟨Sound.start.ends.mono ?_, ?_, ?_⟩
  · rintro s ⟨hs, stopped, hp⟩
    obtain ⟨done, hthrough, hsettled, -⟩ := hs.at_end (.inr hp)
    have hnone : stopped = none ↔ ∀ item ∈ items, ∃ r, audit item = .ok r := by
      rw [← hflatten, ← through_false_eq_none_iff, hthrough]
    exact ⟨stopped, hp, hnone, run_iff.2 ⟨done, hthrough, hsettled.recorded⟩⟩
  · intro s stopped hreach hp front item back text hitems hfront he
    obtain ⟨done, hthrough, hsettled, hgiven⟩ := (Sound.start.reaches hreach).at_end hp
    obtain ⟨before, inner, outer, beyond, hchunks, hplace, hfirst⟩ :=
      through_of_first (hflatten.trans hitems) hfront he
    obtain ⟨rfl, rfl⟩ := Prod.mk.inj (hfirst.symm.trans hthrough)
    exact ⟨rfl, before, inner, outer, beyond, hchunks, hplace, hsettled.recorded.accounts, hgiven,
      hsettled.begun⟩
  · intro hok s
    have hok : ∀ x ∈ chunks.flatten, ∃ r, audit x = .ok r := by rwa [hflatten]
    exact ⟨reaches_of_ok hok true, reaches_of_ok hok false⟩

end

namespace Mixed

theorem chunked_items : chunked 10 ⟨some 2, false⟩ items = [[good, bad], [good, other]] := by
  simp [chunked, chunks, items]

/-- Two items at a time: the batch stops after the first two. -/
theorem ends_after_two : ∃ s,
    Reaches audit false (fun _ => true) (.start 4 (chunked 10 ⟨some 2, false⟩ items)) s ∧
      s.phase = .ended (some (.batchStopped bad "gone")) ∧ s.begun.Perm [good, bad] := by
  have h := ends_at_first_failure audit (fun _ => true) 10 (some 2) items
  obtain ⟨s, hreach, stopped, hp, -, -⟩ := h.1.exists_reaches
  obtain ⟨rfl, before, inner, outer, beyond, hchunks, hplace, -, -, hbegun⟩ :=
    h.2.1 s stopped hreach (.inr hp) [good] bad [good, other] "gone" rfl
      (fun x hx => ⟨report, by rw [List.mem_singleton.1 hx]; rfl⟩) rfl
  rw [chunked_items] at hchunks
  cases before with
  | nil =>
    obtain ⟨hchunk, -⟩ := List.cons.inj hchunks
    rw [← hchunk] at hbegun
    exact ⟨s, hreach, hp, hbegun⟩
  | cons x before =>
    obtain ⟨rfl, -⟩ := List.cons.inj hchunks
    simpa using congrArg List.length hplace

end Mixed

end Batch

end PackageAudit
