import PackageAudit.Evaluation

/-! # The tasks of an evaluation

The rules are evaluated one at a time, but each check runs in a thread of its own. The evaluation
waits for the answer to a call until the deadline. Then it gives the call up and goes on, while the
thread is left to finish or not: its answer may come at any time, also when the evaluation waits for
another check or has ended. Threads do not answer the evaluation itself; they hand their answer over
to the loop that everything else runs in, which settles the future of the call unless it is done. One
kind of fault no future takes, so that the evaluation waits in vain for what has been handed over.

Which of them goes on is not decided anywhere, so `Step` and `Stray` are relations. `Step` is what
the evaluation, the loop and the threads that answer in time do, `Stray` what a thread does that
nobody waits for.
-/

namespace PackageAudit

namespace Evaluation

/-- Is there anything to wait for? Otherwise the deadline is missed, or cannot be set, before any
check can answer. -/
def leavesTime : Deadline → Bool
  | .seconds s => s.isPositive
  | .beyond _ => false

/-- Does a future take an answer? It refuses what ends an iteration. -/
def isTaken : Answer → Bool
  | .raised (.endOfIteration kind _) => kind != endOfIteration
  | _ => true

/-- What the thread of a call does. -/
inductive Thread where
  | running
  /-- Has handed over an answer, which the loop has not looked at. -/
  | handed (a : Answer)
  | through

/-- What has become of the answer to a call. -/
inductive Future where
  | pending
  | settled (a : Answer)
  /-- The call was given up. -/
  | cancelled

/-- A call of a check. -/
structure Call where
  /-- The answer of the check, as far as the deadline goes. -/
  answer : Answer
  thread : Thread
  future : Future

namespace Call

/-- The thread is started. -/
def start (answer : Answer) : Call := ⟨answer, .running, .pending⟩

/-- The thread hands an answer over. -/
def hand (c : Call) (a : Answer) : Call := { c with thread := .handed a }

/-- The loop looks at an answer that was handed over. A future that is done stays as it is, and so
does one that does not take the answer. -/
def receive (c : Call) (a : Answer) : Call :=
  match c.future with
  | .pending => { c with thread := .through, future := if isTaken a then .settled a else .pending }
  | _ => { c with thread := .through }

/-- Nobody waits for the answer any more. -/
def giveUp (c : Call) : Call := { c with future := .cancelled }

end Call

/-- What the evaluation does. -/
inductive Phase where
  /-- Takes the next rule, if there is one. -/
  | turning
  /-- Waits for the answer to a call, which is given by its place. -/
  | waiting (r : Rule) (place : Nat)
  | ended (result : Except Fault (List Verdict))

/-- The state of an evaluation. -/
structure State where
  phase : Phase
  /-- The rules whose turn has not come. -/
  later : List Rule
  /-- The calls so far, in order. -/
  calls : List Call
  verdicts : List Verdict

namespace State

/-- Nothing has been done yet. -/
def start (rules : List Rule) : State := ⟨.turning, rules, [], []⟩

/-- A rule has got its verdict, or the evaluation ends with a fault. -/
def conclude (s : State) : Except Fault Verdict → State
  | .ok v => { s with phase := .turning, verdicts := s.verdicts ++ [v] }
  | .error f => { s with phase := .ended (.error f) }

/-- The state with another call at a place. -/
def putCall (s : State) (place : Nat) (c : Call) : State := { s with calls := s.calls.set place c }

end State

section

variable (cat : Catalog) (t : Tree) (p : Package) (d : Deadline)

/-- The evaluation, the loop or a thread that is waited for goes on. -/
inductive Step : State → State → Prop
  | skip {s : State} {r : Rule} {rest : List Rule} (hp : s.phase = .turning)
      (hl : s.later = r :: rest) (hc : cat.check? r.id = none) :
      Step s (State.conclude { s with later := rest } (.ok (verdict r (unimplemented r))))
  | call {s : State} {r : Rule} {rest : List Rule} {check : Check} (hp : s.phase = .turning)
      (hl : s.later = r :: rest) (hc : cat.check? r.id = some check) (hd : leavesTime d = true) :
      Step s { s with
        phase := .waiting r s.calls.length
        later := rest
        calls := s.calls ++ [.start (check t p)] }
  /-- The check is called, but nobody waits for it. -/
  | miss {s : State} {r : Rule} {rest : List Rule} {check : Check} (hp : s.phase = .turning)
      (hl : s.later = r :: rest) (hc : cat.check? r.id = some check) (hd : leavesTime d = false) :
      Step s (State.conclude
        { s with later := rest, calls := s.calls ++ [(Call.start (check t p)).giveUp] }
        (settle r d .late))
  /-- A thread answers in time. -/
  | answer {s : State} {place : Nat} {c : Call} (hc : s.calls[place]? = some c)
      (hr : c.thread = .running) (hf : c.future = .pending) (ha : c.answer ≠ .late) :
      Step s (s.putCall place (c.hand c.answer))
  | receive {s : State} {place : Nat} {c : Call} {a : Answer} (hc : s.calls[place]? = some c)
      (ha : c.thread = .handed a) :
      Step s (s.putCall place (c.receive a))
  /-- The deadline passes before anything that a future takes. -/
  | expire {s : State} {r : Rule} {place : Nat} {c : Call} (hp : s.phase = .waiting r place)
      (hc : s.calls[place]? = some c) (hf : c.future = .pending)
      (ha : c.answer = .late ∨ c.thread = .through) :
      Step s ((s.putCall place c.giveUp).conclude (settle r d .late))
  | resume {s : State} {r : Rule} {place : Nat} {c : Call} {a : Answer}
      (hp : s.phase = .waiting r place) (hc : s.calls[place]? = some c)
      (hf : c.future = .settled a) :
      Step s (s.conclude (settle r d a))
  | finish {s : State} (hp : s.phase = .turning) (hl : s.later = []) :
      Step s { s with phase := .ended (.ok s.verdicts) }

/-- A thread whose call was given up answers after all, by anything. -/
inductive Stray : State → State → Prop
  | answer {s : State} {place : Nat} {c : Call} (a : Answer) (hc : s.calls[place]? = some c)
      (hr : c.thread = .running) (hf : c.future = .cancelled) :
      Stray s (s.putCall place (c.hand a))

end

end Evaluation

end PackageAudit
