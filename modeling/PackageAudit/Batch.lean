import PackageAudit.Decimal.Binary64
import PackageAudit.Fault
import PackageAudit.Report.Basic

/-! # Auditing many packages

Items are audited in chunks. The audits of one chunk end in any order, which a `Schedule` decides;
their results are recorded in that order, one after the other, and each is announced. If the batch
is to stop at failures, the first failing item of a chunk in the order of the items ends it after
the whole chunk was recorded.
-/

namespace PackageAudit

namespace Batch

/-- The options of a batch. -/
structure Options where
  /-- The size of a chunk; less than one means one. The settings decide if nothing is given. -/
  maxParallel : Option Int
  continueOnError : Bool

/-- An item and what its audit gave: a report, or the text of an error. -/
structure Attempt where
  item : Text
  result : Except Text Report

/-- An order in which the results of each chunk come in. It may be any, but no result is lost and
none comes twice. -/
structure Schedule where
  /-- The results of the chunk with a given number, in the order in which they come in. -/
  order : Nat → List Attempt → List Attempt
  perm : ∀ n attempts, (order n attempts).Perm attempts

/-- Results come in the order of their items. -/
def Schedule.inOrder : Schedule := ⟨fun _ attempts => attempts, fun _ _ => .refl _⟩

/-- The running totals after a result was recorded. -/
structure Progress where
  total : Nat
  completed : Nat
  failed : Nat
  percentage : Nat
deriving Repr, DecidableEq

/-- What is announced. -/
inductive Notice where
  | completed (item : Text) (report : Report)
  | progress (p : Progress)

/-- The results so far and the notices that were given, in order. -/
structure Ledger where
  total : Nat
  successes : List (Text × Report)
  failures : List (Text × Text)
  notices : List Notice

namespace Ledger

/-- Nothing is recorded yet. -/
def start (total : Nat) : Ledger := ⟨total, [], [], []⟩

/-- The number of results. -/
def completed (l : Ledger) : Nat := l.successes.length + l.failures.length

/-- The percentage that a number of results is of the total, rounded twice: the quotient to a number
of the binary format, and a hundred times it to a whole number, a half going to the even one. -/
def percentage (done total : Nat) : Nat :=
  if total = 0 then 100 else ((Binary64.ofRatio false done total).mul (Binary64.ofInt 100)).round

/-- The running totals. -/
def progress (l : Ledger) : Progress :=
  ⟨l.total, l.completed, l.failures.length, percentage l.completed l.total⟩

/-- Announces the running totals. -/
def announce (l : Ledger) : Ledger := { l with notices := l.notices ++ [.progress l.progress] }

/-- Records a result. -/
def record (l : Ledger) (a : Attempt) : Ledger :=
  match a.result with
  | .ok r =>
    announce { l with
      successes := l.successes ++ [(a.item, r)]
      notices := l.notices ++ [.completed a.item r] }
  | .error e => announce { l with failures := l.failures ++ [(a.item, e)] }

/-- Each result is counted once. -/
@[simp] theorem completed_record (l : Ledger) (a : Attempt) :
    (l.record a).completed = l.completed + 1 := by
  unfold record
  split <;> simp [announce, completed] <;> omega

end Ledger

/-- The failure of the first item that failed, if one did. -/
def stop? (attempts : List Attempt) : Option Failure :=
  attempts.findSome? fun a =>
    match a.result with
    | .ok _ => none
    | .error e => some (.batchStopped a.item e)

/-- The failure that ends a batch after a chunk, unless it is to go on at failures. -/
def halt (continueOnError : Bool) (attempts : List Attempt) : Option Failure :=
  if continueOnError then none else stop? attempts

/-- Pieces of `extra + 1` items, the last one perhaps shorter. -/
def chunks {α : Type} (extra : Nat) (items : List α) : List (List α) :=
  match items with
  | [] => []
  | x :: rest => (x :: rest.take extra) :: chunks extra (rest.drop extra)
termination_by items.length
decreasing_by simp only [List.length_drop, List.length_cons]; omega

theorem flatten_chunks {α : Type} (extra : Nat) (items : List α) :
    (chunks extra items).flatten = items := by
  fun_induction chunks extra items with
  | case1 => rfl
  | case2 x rest ih => simp [ih]

/-- The attempts of a chunk. -/
def attempts (audit : Text → Except Text Report) (chunk : List Text) : List Attempt :=
  chunk.map fun item => ⟨item, audit item⟩

/-- Audits chunk after chunk, from the chunk with the number `n` on. -/
def runChunks (audit : Text → Except Text Report) (schedule : Schedule) (continueOnError : Bool)
    (n : Nat) (l : Ledger) : List (List Text) → Ledger × Option Failure
  | [] => (l, none)
  | chunk :: rest =>
    let l := (schedule.order n (attempts audit chunk)).foldl Ledger.record l
    match halt continueOnError (attempts audit chunk) with
    | some f => (l, some f)
    | none => runChunks audit schedule continueOnError (n + 1) l rest

/-- The items in the chunks in which they are audited. -/
def chunked (defaultParallel : Nat) (o : Options) (items : List Text) : List (List Text) :=
  let size := (o.maxParallel.getD defaultParallel).toNat
  chunks (size - 1) items

/-- Audits items. The ledger is complete unless a failure ended the batch. -/
def run (audit : Text → Except Text Report) (schedule : Schedule) (defaultParallel : Nat)
    (o : Options) (items : List Text) : Ledger × Option Failure :=
  runChunks audit schedule o.continueOnError 0 (.start items.length)
    (chunked defaultParallel o items)

end Batch

/-- The result of a batch that came to its end. -/
structure BatchResult where
  totalItems : Nat
  successes : List (Text × Report)
  failures : List (Text × Text)

namespace BatchResult

/-- The result that a ledger holds. -/
def ofLedger (l : Batch.Ledger) : BatchResult := ⟨l.total, l.successes, l.failures⟩

/-- Did no item fail? -/
def succeeded (r : BatchResult) : Bool := r.failures.isEmpty

/-- The percentage of items that succeeded; all of none. -/
def successRate (r : BatchResult) : Binary64 :=
  if r.totalItems = 0 then Binary64.ofInt 100
  else (Binary64.ofRatio false r.successes.length r.totalItems).mul (Binary64.ofInt 100)

/-- The reports of the items that succeeded. -/
def reports (r : BatchResult) : List Report := r.successes.map (·.2)

/-- A result for a stated number of items, which has to be the number of those it accounts for. -/
def ofParts (totalItems : Int) (successes : List (Text × Report)) (failures : List (Text × Text)) :
    Checked BatchResult :=
  if (successes.length + failures.length : Nat) = totalItems then
    .accepted ⟨totalItems.toNat, successes, failures⟩
  else .misfit .inconsistent

/-- Reads a record of a result, whose items have been read before. Its word on whether the batch was
a success has to fit and is not kept. -/
def read (ms : Json.Members) (successes : List (Text × Report)) (failures : List (Text × Text)) :
    Checked BatchResult :=
  let total := Schema.required ms "total_items" Schema.integer
  (total <* Schema.unkept ms "success" Schema.truth).andThen fun total =>
    ofParts total successes failures

/-- The result with its lists in the order in which the items first occur in `items`. -/
def arranged (r : BatchResult) (items : List Text) : BatchResult :=
  let before {α : Type} (a b : Text × α) : Bool := items.idxOf a.1 ≤ items.idxOf b.1
  { r with successes := r.successes.mergeSort before, failures := r.failures.mergeSort before }

end BatchResult

end PackageAudit
