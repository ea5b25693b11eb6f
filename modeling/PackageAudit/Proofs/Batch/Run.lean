import PackageAudit.Batch
import Mathlib.Data.List.Forall2

/-! # What a batch records

The ledger of a batch is determined by the results in the order in which they came in. Of the order
it is only known that the results of each chunk come in after those of the chunks before it, so
`Recorded` asks for a part for every chunk that holds its results in any order. Which chunks are gone
through does not depend on the order at all: `through` reads it off the chunks. Together the two say
what a run gives under some schedule (`run_iff`).
-/

namespace PackageAudit

namespace Batch

/-! ## Chunks -/

section

variable {α : Type}

theorem getElem?_chunks (extra : Nat) (items : List α) (n : Nat) :
    (chunks extra items)[n]? =
      if n * (extra + 1) < items.length then
        some ((items.drop (n * (extra + 1))).take (extra + 1))
      else none := by
  fun_induction chunks extra items generalizing n with
  | case1 => simp
  | case2 x rest ih =>
    cases n with
    | zero => simp
    | succ n =>
      have hstep : (n + 1) * (extra + 1) = (n * (extra + 1) + extra) + 1 := by
        rw [Nat.add_mul]; omega
      rw [List.getElem?_cons_succ, ih, hstep, List.drop_succ_cons, List.drop_drop,
        List.length_drop, List.length_cons, Nat.add_comm extra (n * _)]
      exact if_congr (by omega) rfl rfl

end

/-- The chunks of a batch are consecutive slices of the items. A size below one counts as one, and
the default counts if no size is given. -/
theorem getElem?_chunked (defaultParallel : Nat) (o : Options) (items : List Text) (n : Nat) :
    let size := max 1 (o.maxParallel.getD defaultParallel).toNat
    (chunked defaultParallel o items)[n]? =
      if n * size < items.length then some ((items.drop (n * size)).take size) else none := by
  have hsize : (o.maxParallel.getD defaultParallel).toNat - 1 + 1 =
      max 1 (o.maxParallel.getD defaultParallel).toNat := by omega
  simp only [chunked, getElem?_chunks, hsize]

/-- The chunks of a batch hold its items in order. -/
@[simp] theorem flatten_chunked (defaultParallel : Nat) (o : Options) (items : List Text) :
    (chunked defaultParallel o items).flatten = items :=
  flatten_chunks ..

/-! ## Recording -/

/-- The item and its report, if there is one. -/
def Attempt.report? (a : Attempt) : Option (Text × Report) :=
  match a.result with
  | .ok r => some (a.item, r)
  | .error _ => none

/-- The item and the text of its error, if it failed. -/
def Attempt.error? (a : Attempt) : Option (Text × Text) :=
  match a.result with
  | .ok _ => none
  | .error e => some (a.item, e)

/-- The item and the report that are announced. -/
def Notice.completed? : Notice → Option (Text × Report)
  | completed item r => some (item, r)
  | progress _ => none

/-- The totals that are announced. -/
def Notice.progress? : Notice → Option Progress
  | completed _ _ => none
  | progress p => some p

namespace Ledger

variable (l : Ledger) (a : Attempt)

@[simp] theorem total_record : (l.record a).total = l.total := by
  unfold record; split <;> rfl

@[simp] theorem successes_record : (l.record a).successes = l.successes ++ a.report?.toList := by
  obtain ⟨item, r | e⟩ := a <;> simp [record, Attempt.report?, announce]

@[simp] theorem failures_record : (l.record a).failures = l.failures ++ a.error?.toList := by
  obtain ⟨item, r | e⟩ := a <;> simp [record, Attempt.error?, announce]

theorem notices_record :
    (l.record a).notices = l.notices ++
      (a.report?.map fun s => Notice.completed s.1 s.2).toList ++
      [.progress (l.record a).progress] := by
  obtain ⟨item, r | e⟩ := a <;> simp [record, Attempt.report?, announce, progress, completed]

/-- What is read off a ledger as a list that every result adds to. -/
theorem foldl_record {α : Type} {g : Ledger → List α} {f : Attempt → Option α}
    (h : ∀ l a, g (l.record a) = g l ++ (f a).toList) (as : List Attempt) (l : Ledger) :
    g (as.foldl record l) = g l ++ as.filterMap f := by
  induction as generalizing l with
  | nil => simp
  | cons a as ih => cases hf : f a <;> simp [ih, h, hf]

theorem total_foldl (as : List Attempt) : (as.foldl record l).total = l.total := by
  induction as generalizing l with
  | nil => rfl
  | cons a as ih => simp [ih]

theorem successes_foldl (as : List Attempt) :
    (as.foldl record l).successes = l.successes ++ as.filterMap Attempt.report? :=
  foldl_record successes_record as l

theorem failures_foldl (as : List Attempt) :
    (as.foldl record l).failures = l.failures ++ as.filterMap Attempt.error? :=
  foldl_record failures_record as l

theorem announced_foldl (as : List Attempt) :
    (as.foldl record l).notices.filterMap Notice.completed? =
      l.notices.filterMap Notice.completed? ++ as.filterMap Attempt.report? := by
  refine foldl_record (g := fun l => l.notices.filterMap Notice.completed?) (fun l a => ?_) as l
  rw [notices_record]
  cases a.report? <;> simp [Notice.completed?]

theorem counts_foldl (as : List Attempt) :
    ((as.foldl record l).notices.filterMap Notice.progress?).map (·.completed) =
      (l.notices.filterMap Notice.progress?).map (·.completed) ++
        List.range' (l.completed + 1) as.length := by
  induction as generalizing l with
  | nil => simp
  | cons a as ih =>
    have hnone : (a.report?.map fun s => Notice.completed s.1 s.2).toList.filterMap
        Notice.progress? = [] := by
      cases a.report? <;> rfl
    have hlast : (l.record a).progress.completed = l.completed + 1 := completed_record l a
    rw [List.foldl_cons, ih, notices_record]
    simp [hnone, Notice.progress?, hlast, List.range'_succ]

end Ledger

/-! ## Chunk by chunk -/

/-- The results are those that `f` gives for the items, chunk by chunk, in any order within a
chunk. -/
def InChunks {α : Type} (f : Text → Option α) (chunks : List (List Text)) (results : List α) :
    Prop :=
  ∃ parts, List.Forall₂ (fun chunk part => List.Perm part (chunk.filterMap f)) chunks parts ∧
    results = parts.flatten

/-- No result is lost and none comes twice. -/
theorem InChunks.perm {α : Type} {f : Text → Option α} {chunks : List (List Text)}
    {results : List α} (h : InChunks f chunks results) :
    results.Perm (chunks.flatten.filterMap f) := by
  obtain ⟨parts, hparts, rfl⟩ := h
  induction hparts with
  | nil => simp
  | cons hpart _ ih => simpa using hpart.append ih

section

variable (audit : Text → Except Text Report)

/-- The item and its report, if its audit gives one. -/
def report? (item : Text) : Option (Text × Report) := Attempt.report? ⟨item, audit item⟩

/-- The item and the text of the error, if its audit ends with one. -/
def error? (item : Text) : Option (Text × Text) := Attempt.error? ⟨item, audit item⟩

/-- The ledger has the results of the items of these chunks, each once and in the order of the
chunks, and all of them were announced. -/
structure Accounts (total : Nat) (chunks : List (List Text)) (l : Ledger) : Prop where
  total : l.total = total
  successes : InChunks (report? audit) chunks l.successes
  failures : InChunks (error? audit) chunks l.failures
  completed : l.notices.filterMap Notice.completed? = l.successes
  counts : (l.notices.filterMap Notice.progress?).map (·.completed) =
    List.range' 1 chunks.flatten.length

/-- The ledger after the results of these chunks were recorded, in any order within a chunk. -/
def Recorded (total : Nat) (chunks : List (List Text)) (l : Ledger) : Prop :=
  ∃ parts, List.Forall₂ (fun chunk part => List.Perm part (attempts audit chunk)) chunks parts ∧
    l = parts.flatten.foldl Ledger.record (.start total)

variable {audit} {total : Nat} {chunks : List (List Text)} {l : Ledger}

theorem Recorded.start : Recorded audit total [] (.start total) := ⟨[], .nil, rfl⟩

theorem Recorded.snoc {chunk : List Text} {order : List Attempt} (h : Recorded audit total chunks l)
    (hp : order.Perm (attempts audit chunk)) :
    Recorded audit total (chunks ++ [chunk]) (order.foldl Ledger.record l) := by
  obtain ⟨parts, hparts, rfl⟩ := h
  exact ⟨parts ++ [order], List.rel_append hparts (.cons hp .nil), by simp⟩

theorem filterMap_attempts {α : Type} (f : Attempt → Option α) (chunk : List Text) :
    (attempts audit chunk).filterMap f = chunk.filterMap fun item => f ⟨item, audit item⟩ := by
  simp [attempts]

theorem inChunks_parts {α : Type} {f : Attempt → Option α} {parts : List (List Attempt)}
    (h : List.Forall₂ (fun chunk part => List.Perm part (attempts audit chunk)) chunks parts) :
    InChunks (fun item => f ⟨item, audit item⟩) chunks (parts.flatten.filterMap f) := by
  refine ⟨parts.map (·.filterMap f), ?_, by simp [List.filterMap_flatten]⟩
  rw [List.forall₂_map_right_iff]
  refine h.imp fun chunk part hp => ?_
  rw [← filterMap_attempts f chunk]
  exact hp.filterMap f

theorem length_parts {parts : List (List Attempt)}
    (h : List.Forall₂ (fun chunk part => List.Perm part (attempts audit chunk)) chunks parts) :
    parts.flatten.length = chunks.flatten.length := by
  induction h with
  | nil => rfl
  | cons hp _ ih => simp [hp.length_eq, attempts, ih]

theorem Recorded.accounts (h : Recorded audit total chunks l) : Accounts audit total chunks l := by
  obtain ⟨parts, hparts, rfl⟩ := h
  exact {
    total := Ledger.total_foldl ..
    successes := by rw [Ledger.successes_foldl]; exact inChunks_parts hparts
    failures := by rw [Ledger.failures_foldl]; exact inChunks_parts hparts
    completed := by rw [Ledger.announced_foldl, Ledger.successes_foldl]; rfl
    counts := by rw [Ledger.counts_foldl, ← length_parts hparts]; rfl }

end

/-! ## The chunks that are gone through -/

section

variable (audit : Text → Except Text Report) (continueOnError : Bool)

/-- The chunks that a batch goes through, and the failure that ends it. -/
def through : List (List Text) → List (List Text) × Option Failure
  | [] => ([], none)
  | chunk :: rest =>
    match halt continueOnError (attempts audit chunk) with
    | some f => ([chunk], some f)
    | none => (chunk :: (through rest).1, (through rest).2)

variable {audit continueOnError}

/-- An item that fails gives the failure of its chunk if those before it in the chunk do not fail. -/
theorem stop?_attempts {inner outer : List Text} {item text : Text}
    (hinner : ∀ x ∈ inner, ∃ r, audit x = .ok r) (he : audit item = .error text) :
    stop? (attempts audit (inner ++ item :: outer)) = some (.batchStopped item text) := by
  induction inner with
  | nil => simp [stop?, attempts, he]
  | cons x inner ih =>
    obtain ⟨r, hr⟩ := hinner x (by simp)
    have := ih fun y hy => hinner y (by simp [hy])
    simpa [stop?, attempts, hr] using this

theorem halt_attempts {chunk : List Text} (h : ∀ x ∈ chunk, ∃ r, audit x = .ok r) :
    halt continueOnError (attempts audit chunk) = none := by
  have hnone : stop? (attempts audit chunk) = none := by
    simp only [stop?, attempts, List.findSome?_eq_none_iff, List.mem_map]
    rintro _ ⟨x, hx, rfl⟩
    obtain ⟨r, hr⟩ := h x hx
    simp [hr]
  simp [halt, hnone]

theorem through_true (chunks : List (List Text)) : through audit true chunks = (chunks, none) := by
  induction chunks with
  | nil => rfl
  | cons chunk rest ih => simp [through, halt, ih]

theorem through_of_ok {chunks : List (List Text)}
    (h : ∀ x ∈ chunks.flatten, ∃ r, audit x = .ok r) :
    through audit continueOnError chunks = (chunks, none) := by
  induction chunks with
  | nil => rfl
  | cons chunk rest ih =>
    simp only [List.flatten_cons, List.mem_append] at h
    have hchunk : halt continueOnError (attempts audit chunk) = none :=
      halt_attempts fun x hx => h x (.inl hx)
    simp [through, hchunk, ih fun x hx => h x (.inr hx)]

/-- A batch that is to stop at failures goes on until it is through the chunk of the first item that
fails, wherever in the chunk the item stands. -/
theorem through_of_first {chunks : List (List Text)} {front back : List Text} {item text : Text}
    (hcs : chunks.flatten = front ++ item :: back) (hfront : ∀ x ∈ front, ∃ r, audit x = .ok r)
    (he : audit item = .error text) :
    ∃ before inner outer beyond, chunks = before ++ (inner ++ item :: outer) :: beyond ∧
      front = before.flatten ++ inner ∧
      through audit false chunks =
        (before ++ [inner ++ item :: outer], some (.batchStopped item text)) := by
  induction chunks generalizing front with
  | nil => simp at hcs
  | cons chunk rest ih =>
    rw [List.flatten_cons, List.append_eq_append_iff] at hcs
    -- Either the items before the failing one reach beyond the chunk, or it is in the chunk.
    have hcases : (∃ left, front = chunk ++ left ∧ rest.flatten = left ++ item :: back) ∨
        ∃ outer, chunk = front ++ item :: outer := by
      rcases hcs with hfar | ⟨left, rfl, hnear⟩
      · exact .inl hfar
      · cases left with
        | nil => exact .inl ⟨[], by simp, by simpa using hnear.symm⟩
        | cons y outer =>
          obtain ⟨rfl, -⟩ := List.cons.inj hnear
          exact .inr ⟨outer, rfl⟩
    rcases hcases with ⟨left, rfl, hrest⟩ | ⟨outer, rfl⟩
    · obtain ⟨before, inner, outer, beyond, rfl, rfl, hthrough⟩ :=
        ih hrest fun x hx => hfront x (by simp [hx])
      have hchunk : halt false (attempts audit chunk) = none :=
        halt_attempts fun x hx => hfront x (by simp [hx])
      exact ⟨chunk :: before, inner, outer, beyond, by simp, by simp,
        by simp [through, hchunk, hthrough]⟩
    · have hchunk : halt false (attempts audit (front ++ item :: outer)) = _ :=
        stop?_attempts hfront he
      exact ⟨[], front, outer, rest, by simp, by simp, by simp [through, hchunk]⟩

theorem ok_or_first (audit : Text → Except Text Report) (items : List Text) :
    (∀ x ∈ items, ∃ r, audit x = .ok r) ∨
      ∃ front item back text, items = front ++ item :: back ∧
        (∀ x ∈ front, ∃ r, audit x = .ok r) ∧ audit item = .error text := by
  induction items with
  | nil => exact .inl nofun
  | cons item items ih =>
    cases h : audit item with
    | error text => exact .inr ⟨[], item, items, text, rfl, nofun, h⟩
    | ok r =>
      rcases ih with hok | ⟨front, x, back, text, rfl, hfront, he⟩
      · exact .inl (List.forall_mem_cons.2 ⟨⟨r, h⟩, hok⟩)
      · exact .inr ⟨item :: front, x, back, text, rfl, List.forall_mem_cons.2 ⟨⟨r, h⟩, hfront⟩, he⟩

theorem through_false_eq_none_iff {chunks : List (List Text)} :
    (through audit false chunks).2 = none ↔ ∀ x ∈ chunks.flatten, ∃ r, audit x = .ok r := by
  refine ⟨fun h => ?_, fun hok => by rw [through_of_ok hok]⟩
  rcases ok_or_first audit chunks.flatten with hok | ⟨front, item, back, text, hcs, hfront, he⟩
  · exact hok
  · obtain ⟨before, inner, outer, beyond, -, -, hthrough⟩ := through_of_first hcs hfront he
    simp [hthrough] at h

end

/-! ## Runs -/

section

variable {audit : Text → Except Text Report}

/-- The results of the chunks from the number `n` on, as the schedule has them come in. -/
def orders (audit : Text → Except Text Report) (schedule : Schedule) (n : Nat) :
    List (List Text) → List (List Attempt)
  | [] => []
  | chunk :: rest => schedule.order n (attempts audit chunk) :: orders audit schedule (n + 1) rest

theorem forall₂_orders (schedule : Schedule) (n : Nat) (chunks : List (List Text)) :
    List.Forall₂ (fun chunk part => List.Perm part (attempts audit chunk)) chunks
      (orders audit schedule n chunks) := by
  induction chunks generalizing n with
  | nil => exact .nil
  | cons chunk rest ih => exact .cons (schedule.perm ..) (ih (n + 1))

open Classical in
/-- The schedule under which the results come in as the parts have them, as far as the parts are
made of the results. -/
noncomputable def Schedule.ofParts (parts : List (List Attempt)) : Schedule where
  order n attempts := if (parts.getD n []).Perm attempts then parts.getD n [] else attempts
  perm n attempts := by split; exacts [‹_›, .refl _]

theorem orders_ofParts (before : List (List Attempt)) {chunks : List (List Text)}
    {parts : List (List Attempt)}
    (h : List.Forall₂ (fun chunk part => List.Perm part (attempts audit chunk)) chunks parts) :
    orders audit (.ofParts (before ++ parts)) before.length chunks = parts := by
  induction h generalizing before with
  | nil => rfl
  | @cons chunk part rest parts hp _ ih =>
    have hfirst : (before ++ part :: parts).getD before.length [] = part := by simp
    have hrest := ih (before ++ [part])
    rw [List.append_assoc, List.singleton_append, List.length_append] at hrest
    have horder : (Schedule.ofParts (before ++ part :: parts)).order before.length
        (attempts audit chunk) = part :=
      (if_pos (hfirst.symm ▸ hp)).trans hfirst
    rw [orders, horder]
    exact congrArg _ hrest

theorem runChunks_eq (schedule : Schedule) (continueOnError : Bool) (n : Nat) (l : Ledger)
    (chunks : List (List Text)) :
    runChunks audit schedule continueOnError n l chunks =
      ((orders audit schedule n (through audit continueOnError chunks).1).flatten.foldl
        Ledger.record l, (through audit continueOnError chunks).2) := by
  induction chunks generalizing n l with
  | nil => rfl
  | cons chunk rest ih =>
    cases h : halt continueOnError (attempts audit chunk) <;> simp [runChunks, through, h, orders, ih]

/-- What a batch can give: the schedule decides no more than the order within the chunks. -/
theorem run_iff {defaultParallel : Nat} {o : Options} {items : List Text} {l : Ledger}
    {stopped : Option Failure} :
    (∃ schedule, run audit schedule defaultParallel o items = (l, stopped)) ↔
      ∃ done, through audit o.continueOnError (chunked defaultParallel o items) = (done, stopped) ∧
        Recorded audit items.length done l := by
  constructor
  · rintro ⟨schedule, h⟩
    rw [run, runChunks_eq, Prod.mk.injEq] at h
    obtain ⟨rfl, rfl⟩ := h
    exact ⟨_, rfl, _, forall₂_orders .., rfl⟩
  · rintro ⟨done, hthrough, parts, hparts, rfl⟩
    have horders : orders audit (.ofParts parts) 0 done = parts := orders_ofParts [] hparts
    exact ⟨.ofParts parts, by rw [run, runChunks_eq, hthrough, horders]⟩

end

end Batch

end PackageAudit
