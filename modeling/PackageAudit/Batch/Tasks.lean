import PackageAudit.Batch

/-! # The tasks of a batch

A batch is carried out by tasks that take turns. One task goes from chunk to chunk; each item of the
chunk has a worker, which audits it and puts the result into a queue; one more task, the recorder,
takes the results out of the queue, records them and gives the notices. The task of the batch waits
for all workers of a chunk, then until the recorder is through with the queue, and only then looks
at the results. In the end it has the recorder close, whether the batch came to its end or not.

Which task goes on is not decided anywhere, so `Step` is a relation. A task goes on by what it does
between two points at which it waits.
-/

namespace PackageAudit

namespace Batch

/-- A worker, which has one item. -/
inductive Worker where
  | ready (item : Text)
  | auditing (item : Text)
  /-- The result is in the queue. -/
  | posted (a : Attempt)

/-- The item of a worker. -/
def Worker.item : Worker → Text
  | ready item => item
  | auditing item => item
  | posted a => a.item

/-- What is put into the queue. -/
inductive Message where
  | result (a : Attempt)
  | close

/-- What the recorder does. -/
inductive Recorder where
  | idle
  /-- Gives the notices of a result. It is not done with the result before all are given. -/
  | announcing (pending : List Notice)
  | closed

/-- What the task of the batch does. -/
inductive Phase where
  /-- Takes the next chunk, if there is one. -/
  | turning
  /-- Waits for the workers of a chunk. -/
  | gathering (workers : List Worker)
  /-- Waits until the recorder is done with the queue. The results are in the order of the items. -/
  | joining (results : List Attempt)
  /-- Waits until the recorder has closed. -/
  | closing (stopped : Option Failure)
  | ended (stopped : Option Failure)

/-- The state of the tasks, and what they have done so far. -/
structure State where
  phase : Phase
  /-- The chunks whose turn has not come. -/
  later : List (List Text)
  queue : List Message
  recorder : Recorder
  ledger : Ledger
  /-- The items whose audit was begun, in order. -/
  begun : List Text
  /-- The notices that were given, in order, each with the text of the error it met with. -/
  given : List (Notice × Option Text)

/-- Nothing has been done yet. -/
def State.start (total : Nat) (chunks : List (List Text)) : State :=
  ⟨.turning, chunks, [], .idle, .start total, [], []⟩

/-- The notices that recording a result adds. -/
def Ledger.news (l : Ledger) (a : Attempt) : List Notice :=
  (l.record a).notices.drop l.notices.length

section

variable (audit : Text → Except Text Report) (continueOnError : Bool) (heard : Notice → Bool)

/-- One task goes on. `heard` tells for which notices there is somebody to give them to. -/
inductive Step : State → State → Prop
  | next {s : State} {chunk : List Text} {rest : List (List Text)} (hp : s.phase = .turning)
      (hl : s.later = chunk :: rest) :
      Step s { s with phase := .gathering (chunk.map .ready), later := rest }
  | begin {s : State} {front back : List Worker} {item : Text}
      (hp : s.phase = .gathering (front ++ .ready item :: back)) :
      Step s { s with
        phase := .gathering (front ++ .auditing item :: back)
        begun := s.begun ++ [item] }
  | post {s : State} {front back : List Worker} {item : Text}
      (hp : s.phase = .gathering (front ++ .auditing item :: back)) :
      Step s { s with
        phase := .gathering (front ++ .posted ⟨item, audit item⟩ :: back)
        queue := s.queue ++ [.result ⟨item, audit item⟩] }
  | gathered {s : State} {results : List Attempt}
      (hp : s.phase = .gathering (results.map .posted)) :
      Step s { s with phase := .joining results }
  | joined {s : State} {results : List Attempt} (hp : s.phase = .joining results)
      (hq : s.queue = []) (hr : s.recorder = .idle) (hs : halt continueOnError results = none) :
      Step s { s with phase := .turning }
  | stop {s : State} {results : List Attempt} {f : Failure} (hp : s.phase = .joining results)
      (hq : s.queue = []) (hr : s.recorder = .idle) (hs : halt continueOnError results = some f) :
      Step s { s with phase := .closing (some f), queue := s.queue ++ [.close] }
  | finish {s : State} (hp : s.phase = .turning) (hl : s.later = []) :
      Step s { s with phase := .closing none, queue := s.queue ++ [.close] }
  | leave {s : State} {stopped : Option Failure} (hp : s.phase = .closing stopped)
      (hr : s.recorder = .closed) :
      Step s { s with phase := .ended stopped }
  | take {s : State} {a : Attempt} {rest : List Message} (hr : s.recorder = .idle)
      (hq : s.queue = .result a :: rest) :
      Step s { s with
        queue := rest
        ledger := s.ledger.record a
        recorder := .announcing ((s.ledger.news a).filter heard) }
  /-- Whoever is given a notice may answer with an error, which changes nothing. -/
  | announce {s : State} {n : Notice} {rest : List Notice} (error : Option Text)
      (hr : s.recorder = .announcing (n :: rest)) :
      Step s { s with recorder := .announcing rest, given := s.given ++ [(n, error)] }
  | done {s : State} (hr : s.recorder = .announcing []) :
      Step s { s with recorder := .idle }
  | close {s : State} {rest : List Message} (hr : s.recorder = .idle)
      (hq : s.queue = .close :: rest) :
      Step s { s with queue := rest, recorder := .closed }

end

end Batch

end PackageAudit
