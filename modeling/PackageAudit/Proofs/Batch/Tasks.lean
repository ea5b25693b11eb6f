import PackageAudit.Batch.Tasks
import PackageAudit.Proofs.Batch.Run
import Mathlib.Algebra.Ring.Nat
import Mathlib.Logic.Relation

/-! # How the tasks of a batch end

Whatever the order in which the tasks of a batch take turns, the batch ends, and it ends as
`Batch.run` does under some schedule (`reaches_iff_run`). Three things hold in every state: what was
recorded and what is in the queue are together the results that were posted (`Placed`), the queue
and the recorder are as the phase needs them (`Orderly`), and the notices were given in the order in
which they were recorded (`Heard`). That the batch can go on is read off the second one, that it
ends off `State.cost`, which every step lowers.
-/

namespace PackageAudit

namespace Batch

/-! ## Executions -/

section

variable (audit : Text → Except Text Report) (continueOnError : Bool) (heard : Notice → Bool)

/-- A state comes after another one, by any number of steps. -/
abbrev Reaches : State → State → Prop :=
  Relation.ReflTransGen (Step audit continueOnError heard)

/-- However the tasks take turns, they end in a state in which `P` holds. -/
inductive Ends (P : State → Prop) : State → Prop
  | here {s : State} (h : P s) (final : ∀ s', ¬ Step audit continueOnError heard s s') : Ends P s
  | later {s : State} (goesOn : ∃ s', Step audit continueOnError heard s s')
      (h : ∀ s', Step audit continueOnError heard s s' → Ends P s') : Ends P s

end

section

variable {audit : Text → Except Text Report} {continueOnError : Bool} {heard : Notice → Bool}
  {P Q : State → Prop} {s s' : State}

theorem Ends.mono (h : Ends audit continueOnError heard P s) (hPQ : ∀ s, P s → Q s) :
    Ends audit continueOnError heard Q s := by
  induction h with
  | here h final => exact .here (hPQ _ h) final
  | later goesOn _ ih => exact .later goesOn ih

theorem Ends.exists_reaches (h : Ends audit continueOnError heard P s) :
    ∃ s', Reaches audit continueOnError heard s s' ∧ P s' := by
  induction h with
  | here h => exact ⟨_, .refl, h⟩
  | later goesOn _ ih =>
    obtain ⟨s₁, h₁⟩ := goesOn
    obtain ⟨s', hreach, hP⟩ := ih s₁ h₁
    exact ⟨s', .head h₁ hreach, hP⟩

end

/-! ## What is in the queue -/

/-- The ledger when the recorder is through with the messages. -/
def Ledger.drain (l : Ledger) : List Message → Ledger
  | [] => l
  | .result a :: rest => (l.record a).drain rest
  | .close :: rest => l.drain rest

theorem Ledger.drain_append (l : Ledger) (q q' : List Message) :
    l.drain (q ++ q') = (l.drain q).drain q' := by
  induction q generalizing l with
  | nil => rfl
  | cons m q ih => cases m <;> exact ih _

/-- The ledger when the recorder is through with the queue. -/
def State.drained (s : State) : Ledger := s.ledger.drain s.queue

theorem Ledger.notices_news (l : Ledger) (a : Attempt) :
    l.notices ++ l.news a = (l.record a).notices := by
  rw [news, notices_record, List.append_assoc, List.drop_left]

theorem Ledger.length_news_le (l : Ledger) (a : Attempt) : (l.news a).length ≤ 2 := by
  rw [news, notices_record, List.append_assoc, List.drop_left]
  cases a.report? <;> simp

/-! ## Where the batch is -/

/-- The result of a worker that has posted it. -/
def Worker.result? : Worker → Option Attempt
  | posted a => some a
  | _ => none

/-- The item of a worker that has begun to audit it. -/
def Worker.begun? : Worker → Option Text
  | ready _ => none
  | auditing item => some item
  | posted a => some a.item

section

variable (audit : Text → Except Text Report) (continueOnError : Bool) (total : Nat)
  (chunks : List (List Text))

/-- The batch is through with the chunks `done`, none of which ended it. -/
def Gone (done later : List (List Text)) : Prop :=
  through audit continueOnError chunks =
    (done ++ (through audit continueOnError later).1, (through audit continueOnError later).2)

/-- The items of these chunks were begun and their results posted, and no others. -/
structure Settled (done : List (List Text)) (l : Ledger) (begun : List Text) : Prop where
  recorded : Recorded audit total done l
  begun : begun.Perm done.flatten

/-- Apart from the chunks `done`, the items of some of the workers were begun, and the results of
some of these posted. -/
structure Underway (done : List (List Text)) (workers : List Worker) (l : Ledger)
    (begun : List Text) : Prop where
  recorded : ∃ before order, Recorded audit total done before ∧
    List.Perm order (workers.filterMap Worker.result?) ∧ l = order.foldl Ledger.record before
  begun : begun.Perm (done.flatten ++ workers.filterMap Worker.begun?)
  results : ∀ a, .posted a ∈ workers → a = ⟨a.item, audit a.item⟩

/-- What the phase says about the chunks that are left, about the ledger when the recorder is
through with the queue and about the items that were begun. -/
def Placed (later : List (List Text)) (l : Ledger) (begun : List Text) : Phase → Prop
  | .turning => ∃ done, Gone audit continueOnError chunks done later ∧
      Settled audit total done l begun
  | .gathering workers => ∃ done,
      Gone audit continueOnError chunks done (workers.map Worker.item :: later) ∧
      Underway audit total done workers l begun
  | .joining results => ∃ done chunk, results = attempts audit chunk ∧
      Gone audit continueOnError chunks done (chunk :: later) ∧
      Settled audit total (done ++ [chunk]) l begun
  | .closing stopped | .ended stopped => ∃ done,
      through audit continueOnError chunks = (done, stopped) ∧ Settled audit total done l begun

variable {audit continueOnError total chunks} {done later : List (List Text)} {chunk : List Text}
  {l : Ledger} {begun : List Text} {front back : List Worker} {item : Text}

theorem Gone.start : Gone audit continueOnError chunks [] chunks := rfl

theorem Gone.next (h : Gone audit continueOnError chunks done (chunk :: later))
    (hs : halt continueOnError (attempts audit chunk) = none) :
    Gone audit continueOnError chunks (done ++ [chunk]) later := by
  simpa [Gone, through, hs] using h

theorem Gone.stop {f : Failure} (h : Gone audit continueOnError chunks done (chunk :: later))
    (hs : halt continueOnError (attempts audit chunk) = some f) :
    through audit continueOnError chunks = (done ++ [chunk], some f) := by
  simpa [Gone, through, hs] using h

theorem Gone.finish (h : Gone audit continueOnError chunks done []) :
    through audit continueOnError chunks = (done, none) := by
  simpa [Gone, through] using h

theorem Settled.next (h : Settled audit total done l begun) (chunk : List Text) :
    Underway audit total done (chunk.map .ready) l begun := by
  have hnone {α : Type} (f : Worker → Option α) (hf : ∀ item, f (.ready item) = none) :
      (chunk.map Worker.ready).filterMap f = [] := by
    simp [hf]
  exact {
    recorded := ⟨l, [], h.recorded, by rw [hnone _ fun _ => rfl], rfl⟩
    begun := by rw [hnone _ fun _ => rfl, List.append_nil]; exact h.begun
    results := by simp }

theorem Underway.begin
    (h : Underway audit total done (front ++ .ready item :: back) l begun) :
    Underway audit total done (front ++ .auditing item :: back) l (begun ++ [item]) where
  recorded := by simpa [List.filterMap_cons, Worker.result?] using h.recorded
  begun := by
    have := (h.begun.append_right [item])
    simp only [List.filterMap_append, List.filterMap_cons, Worker.begun?] at this ⊢
    refine this.trans ?_
    simp only [List.append_assoc]
    exact (List.Perm.append_left _ (List.Perm.append_left _ List.perm_append_comm))
  results a ha := h.results a (by simpa using ha)

theorem Underway.post
    (h : Underway audit total done (front ++ .auditing item :: back) l begun) :
    Underway audit total done (front ++ .posted ⟨item, audit item⟩ :: back)
      (l.record ⟨item, audit item⟩) begun where
  recorded := by
    obtain ⟨before, order, hbefore, hp, rfl⟩ := h.recorded
    refine ⟨before, order ++ [⟨item, audit item⟩], hbefore, ?_, by simp⟩
    simp only [List.filterMap_append, List.filterMap_cons, Worker.result?] at hp ⊢
    refine (hp.append_right _).trans ?_
    rw [List.append_assoc]
    exact List.Perm.append_left _ List.perm_append_comm
  begun := by simpa [List.filterMap_cons, Worker.begun?] using h.begun
  results a ha := by
    simp only [List.mem_append, List.mem_cons, Worker.posted.injEq] at ha
    rcases ha with ha | rfl | ha
    · exact h.results a (by simp [ha])
    · rfl
    · exact h.results a (by simp [ha])

theorem Underway.gathered {results : List Attempt}
    (h : Underway audit total done (results.map .posted) l begun) :
    results = attempts audit ((results.map .posted).map Worker.item) ∧
      Settled audit total (done ++ [(results.map .posted).map Worker.item]) l begun := by
  have hresults : results = attempts audit ((results.map .posted).map Worker.item) := by
    have hitem : ∀ a ∈ results, (⟨a.item, audit a.item⟩ : Attempt) = a := fun a ha =>
      (h.results a (List.mem_map_of_mem ha)).symm
    simpa [attempts, Worker.item, Function.comp_def] using (List.map_congr_left hitem).symm
  refine ⟨hresults, ?_, ?_⟩
  · obtain ⟨before, order, hbefore, hp, rfl⟩ := h.recorded
    have hall : (results.map Worker.posted).filterMap Worker.result? = results :=
      List.filterMap_map.trans List.filterMap_some
    rw [hall, hresults] at hp
    exact hbefore.snoc hp
  · have hall : (results.map Worker.posted).filterMap Worker.begun? =
        (results.map Worker.posted).map Worker.item := by
      rw [List.filterMap_map, List.map_map]
      exact congrFun (List.filterMap_eq_map (f := Attempt.item)) results
    simpa [hall] using h.begun

end

/-! ## What holds in every state -/

/-- The queue and the recorder, phase by phase. The recorder has nothing to do between two chunks,
and it closes only when the batch waits for that. -/
def Orderly (queue : List Message) (recorder : Recorder) : Phase → Prop
  | .turning => queue = [] ∧ recorder = .idle
  | .gathering _ | .joining _ => .close ∉ queue ∧ recorder ≠ .closed
  | .closing _ => queue = [.close] ∧ recorder = .idle ∨ queue = [] ∧ recorder = .closed
  | .ended _ => queue = [] ∧ recorder = .closed

/-- The notices that the recorder has yet to give. -/
def Recorder.pending : Recorder → List Notice
  | announcing ns => ns
  | _ => []

/-- What holds in every state of a batch that goes through `chunks`. -/
structure Sound (audit : Text → Except Text Report) (continueOnError : Bool)
    (heard : Notice → Bool) (total : Nat) (chunks : List (List Text)) (s : State) : Prop where
  placed : Placed audit continueOnError total chunks s.later s.drained s.begun s.phase
  orderly : Orderly s.queue s.recorder s.phase
  given : s.given.map (·.1) ++ s.recorder.pending = s.ledger.notices.filter heard

section

variable {audit : Text → Except Text Report} {continueOnError : Bool} {heard : Notice → Bool}
  {total : Nat} {chunks : List (List Text)} {s s' : State}

theorem Sound.start : Sound audit continueOnError heard total chunks (.start total chunks) where
  placed := ⟨[], .start, .start, .nil⟩
  orderly := ⟨rfl, rfl⟩
  given := rfl

theorem Step.placed (h : Step audit continueOnError heard s s')
    (hs : Placed audit continueOnError total chunks s.later s.drained s.begun s.phase) :
    Placed audit continueOnError total chunks s'.later s'.drained s'.begun s'.phase := by
  cases h with
  | @next chunk rest hp hl =>
    rw [hp, hl] at hs
    obtain ⟨done, hgone, hsettled⟩ := hs
    have hitems : (chunk.map Worker.ready).map Worker.item = chunk := by
      simp [Function.comp_def, Worker.item]
    exact ⟨done, by rwa [hitems], hsettled.next chunk⟩
  | @begin front back item hp =>
    rw [hp] at hs
    obtain ⟨done, hgone, hunderway⟩ := hs
    exact ⟨done, by simpa [Worker.item] using hgone, hunderway.begin⟩
  | @post front back item hp =>
    rw [hp] at hs
    obtain ⟨done, hgone, hunderway⟩ := hs
    refine ⟨done, by simpa [Worker.item] using hgone, ?_⟩
    simpa [State.drained, Ledger.drain_append, Ledger.drain] using hunderway.post
  | @gathered results hp =>
    rw [hp] at hs
    obtain ⟨done, hgone, hunderway⟩ := hs
    exact ⟨done, _, hunderway.gathered.1, hgone, hunderway.gathered.2⟩
  | joined hp _ _ hhalt =>
    rw [hp] at hs
    obtain ⟨done, chunk, rfl, hgone, hsettled⟩ := hs
    exact ⟨_, hgone.next hhalt, hsettled⟩
  | stop hp _ _ hhalt =>
    rw [hp] at hs
    obtain ⟨done, chunk, rfl, hgone, hsettled⟩ := hs
    exact ⟨_, hgone.stop hhalt, by simpa [State.drained, Ledger.drain_append, Ledger.drain] using hsettled⟩
  | finish hp hl =>
    rw [hp, hl] at hs
    obtain ⟨done, hgone, hsettled⟩ := hs
    exact ⟨_, hgone.finish, by simpa [State.drained, Ledger.drain_append, Ledger.drain] using hsettled⟩
  | leave hp _ =>
    rw [hp] at hs
    exact hs
  -- The recorder's own steps only take from the queue what they record.
  | take _ hq => simpa [State.drained, hq, Ledger.drain] using hs
  | announce _ _ => exact hs
  | done _ => exact hs
  | close _ hq => simpa [State.drained, hq, Ledger.drain] using hs

theorem Step.orderly (h : Step audit continueOnError heard s s')
    (hs : Orderly s.queue s.recorder s.phase) : Orderly s'.queue s'.recorder s'.phase := by
  cases h with
  | next hp _ =>
    rw [hp] at hs
    obtain ⟨hq, hr⟩ := hs
    simp [Orderly, hq, hr]
  | begin hp => rw [hp] at hs; exact hs
  | post hp =>
    rw [hp] at hs
    exact ⟨by simpa using hs.1, hs.2⟩
  | gathered hp => rw [hp] at hs; exact hs
  | joined _ hq hr _ => exact ⟨hq, hr⟩
  | stop _ hq hr _ => exact .inl ⟨by simp [hq], hr⟩
  | finish hp _ =>
    rw [hp] at hs
    exact .inl ⟨by simp [hs.1], hs.2⟩
  | leave hp hr =>
    rw [hp] at hs
    rcases hs with ⟨_, hidle⟩ | hclosed
    · simp [hr] at hidle
    · exact hclosed
  | take hr hq => cases hp : s.phase <;> simp_all [Orderly]
  | announce _ hr => cases hp : s.phase <;> simp_all [Orderly]
  | done hr => cases hp : s.phase <;> simp_all [Orderly]
  | close hr hq => cases hp : s.phase <;> simp_all [Orderly]

theorem Step.given (h : Step audit continueOnError heard s s')
    (hs : s.given.map (·.1) ++ s.recorder.pending = s.ledger.notices.filter heard) :
    s'.given.map (·.1) ++ s'.recorder.pending = s'.ledger.notices.filter heard := by
  cases h with
  | next | begin | post | gathered | joined | stop | finish | leave => exact hs
  | take hr _ =>
    rw [hr] at hs
    simp only [Recorder.pending, List.append_nil] at hs ⊢
    rw [hs, ← List.filter_append, Ledger.notices_news]
  | announce _ hr =>
    rw [hr] at hs
    simpa [Recorder.pending] using hs
  | done hr => rw [hr] at hs; exact hs
  | close hr _ => rw [hr] at hs; exact hs

theorem Sound.step (hs : Sound audit continueOnError heard total chunks s)
    (h : Step audit continueOnError heard s s') :
    Sound audit continueOnError heard total chunks s' :=
  ⟨h.placed hs.placed, h.orderly hs.orderly, h.given hs.given⟩

theorem Sound.reaches (hs : Sound audit continueOnError heard total chunks s)
    (h : Reaches audit continueOnError heard s s') :
    Sound audit continueOnError heard total chunks s' := by
  induction h with
  | refl => exact hs
  | tail _ hstep ih => exact ih.step hstep

end

/-! ## The end of the chunks -/

section

variable {audit : Text → Except Text Report} {continueOnError : Bool} {heard : Notice → Bool}
  {total : Nat} {chunks : List (List Text)} {s s' : State}

/-- From when the batch waits for the recorder to close, all results of the chunks that it went
through are recorded and all notices given. -/
theorem Sound.at_end {stopped : Option Failure}
    (hs : Sound audit continueOnError heard total chunks s)
    (hp : s.phase = .closing stopped ∨ s.phase = .ended stopped) :
    ∃ done, through audit continueOnError chunks = (done, stopped) ∧
      Settled audit total done s.ledger s.begun ∧
      s.given.map (·.1) = s.ledger.notices.filter heard := by
  have hnothing : (s.queue = [.close] ∧ s.recorder = .idle ∨
        s.queue = [] ∧ s.recorder = .closed) ∧
      ∃ done, through audit continueOnError chunks = (done, stopped) ∧
        Settled audit total done s.drained s.begun := by
    have horderly := hs.orderly
    have hplaced := hs.placed
    rcases hp with hp | hp
    · rw [hp] at horderly hplaced
      exact ⟨horderly, hplaced⟩
    · rw [hp] at horderly hplaced
      exact ⟨.inr horderly, hplaced⟩
  obtain ⟨hidle, done, hthrough, hsettled⟩ := hnothing
  have hdrained : s.drained = s.ledger := by
    rcases hidle with ⟨hq, -⟩ | ⟨hq, -⟩ <;> rw [State.drained, hq] <;> rfl
  have hpending : s.recorder.pending = [] := by
    rcases hidle with ⟨-, hr⟩ | ⟨-, hr⟩ <;> rw [hr] <;> rfl
  exact ⟨done, hthrough, hdrained ▸ hsettled, by simpa [hpending] using hs.given⟩

theorem Gone.mem {done later : List (List Text)} {chunk : List Text}
    (h : Gone audit continueOnError chunks done (chunk :: later)) :
    chunk ∈ (through audit continueOnError chunks).1 := by
  have hhead : chunk ∈ (through audit continueOnError (chunk :: later)).1 := by
    cases hhalt : halt continueOnError (attempts audit chunk) <;> simp [through, hhalt]
  rw [h]
  exact List.mem_append_right _ hhead

/-- As long as no item fails it makes no difference whether the batch is to stop at failures. -/
theorem Sound.step_of_ok (hs : Sound audit continueOnError heard total chunks s)
    (hok : ∀ x ∈ chunks.flatten, ∃ r, audit x = .ok r) (continueOnError' : Bool)
    (h : Step audit continueOnError heard s s') : Step audit continueOnError' heard s s' := by
  have hhalt {c : Bool} {results : List Attempt} (hp : s.phase = .joining results) :
      halt c results = none := by
    have hplaced := hs.placed
    rw [hp] at hplaced
    obtain ⟨done, chunk, rfl, hgone, -⟩ := hplaced
    have hmem := hgone.mem
    rw [through_of_ok hok] at hmem
    exact halt_attempts fun x hx => hok x (List.mem_flatten_of_mem hmem hx)
  cases h with
  | next hp hl => exact .next hp hl
  | begin hp => exact .begin hp
  | post hp => exact .post hp
  | gathered hp => exact .gathered hp
  | joined hp hq hr _ => exact .joined hp hq hr (hhalt hp)
  | stop hp _ _ hsome => simp [hhalt hp] at hsome
  | finish hp hl => exact .finish hp hl
  | leave hp hr => exact .leave hp hr
  | take hr hq => exact .take hr hq
  | announce error hr => exact .announce error hr
  | done hr => exact .done hr
  | close hr hq => exact .close hr hq

theorem reaches_of_ok (hok : ∀ x ∈ chunks.flatten, ∃ r, audit x = .ok r) (continueOnError' : Bool)
    (h : Reaches audit continueOnError heard (.start total chunks) s) :
    Reaches audit continueOnError' heard (.start total chunks) s := by
  induction h with
  | refl => exact .refl
  | tail hreach hstep ih =>
    exact .tail ih ((Sound.start.reaches hreach).step_of_ok hok continueOnError' hstep)

end

/-! ## No task waits for ever -/

section

variable {audit : Text → Except Text Report} {continueOnError : Bool} {heard : Notice → Bool}
  {s s' : State}

theorem workers_cases (workers : List Worker) :
    (∃ results : List Attempt, workers = results.map .posted) ∨
      (∃ front item back, workers = front ++ .ready item :: back) ∨
      ∃ front item back, workers = front ++ .auditing item :: back := by
  induction workers with
  | nil => exact .inl ⟨[], rfl⟩
  | cons w workers ih =>
    cases w with
    | ready item => exact .inr (.inl ⟨[], item, workers, rfl⟩)
    | auditing item => exact .inr (.inr ⟨[], item, workers, rfl⟩)
    | posted a =>
      rcases ih with ⟨results, rfl⟩ | ⟨front, item, back, rfl⟩ | ⟨front, item, back, rfl⟩
      · exact .inl ⟨a :: results, rfl⟩
      · exact .inr (.inl ⟨.posted a :: front, item, back, rfl⟩)
      · exact .inr (.inr ⟨.posted a :: front, item, back, rfl⟩)

theorem recorder_goes_on (s : State) : (∃ s', Step audit continueOnError heard s s') ∨
    s.recorder = .idle ∧ s.queue = [] ∨ s.recorder = .closed := by
  cases hr : s.recorder with
  | idle =>
    cases hq : s.queue with
    | nil => exact .inr (.inl ⟨rfl, rfl⟩)
    | cons m rest =>
      cases m with
      | result a => exact .inl ⟨_, .take hr hq⟩
      | close => exact .inl ⟨_, .close hr hq⟩
  | announcing ns =>
    cases ns with
    | nil => exact .inl ⟨_, .done hr⟩
    | cons n rest => exact .inl ⟨_, .announce none hr⟩
  | closed => exact .inr (.inr rfl)

/-- A task can go on unless the batch has ended. While there are workers, one of them can go on or
all have posted; while the recorder has something to do, it can do it. -/
theorem Orderly.goes_on (h : Orderly s.queue s.recorder s.phase) :
    (∃ s', Step audit continueOnError heard s s') ∨ ∃ stopped, s.phase = .ended stopped := by
  obtain hgo | hrest : (∃ s', Step audit continueOnError heard s s') ∨ _ := recorder_goes_on s
  · exact .inl hgo
  cases hp : s.phase with
  | turning =>
    cases hl : s.later with
    | nil => exact .inl ⟨_, .finish hp hl⟩
    | cons chunk rest => exact .inl ⟨_, .next hp hl⟩
  | gathering workers =>
    obtain ⟨results, rfl⟩ | ⟨front, item, back, rfl⟩ | ⟨front, item, back, rfl⟩ :=
      workers_cases workers
    · exact .inl ⟨_, .gathered hp⟩
    · exact .inl ⟨_, .begin hp⟩
    · exact .inl ⟨_, .post hp⟩
  | joining results =>
    rw [hp] at h
    obtain ⟨hr, hq⟩ := hrest.resolve_right h.2
    cases hhalt : halt continueOnError results with
    | none => exact .inl ⟨_, .joined hp hq hr hhalt⟩
    | some f => exact .inl ⟨_, .stop hp hq hr hhalt⟩
  | closing stopped =>
    rw [hp] at h
    rcases h with ⟨hq, hr⟩ | ⟨_, hr⟩
    · exact .inl ⟨_, .close hr hq⟩
    · exact .inl ⟨_, .leave hp hr⟩
  | ended stopped => exact .inr ⟨stopped, rfl⟩

theorem Orderly.final {stopped : Option Failure} (h : Orderly s.queue s.recorder s.phase)
    (hp : s.phase = .ended stopped) : ¬ Step audit continueOnError heard s s' := by
  rw [hp] at h
  obtain ⟨hq, hr⟩ := h
  intro hstep
  cases hstep <;> simp_all

end

/-! ## The batch ends -/

/-- The steps that a worker has yet to make, with those that its result gives the recorder. -/
def Worker.cost : Worker → Nat
  | ready _ => 6
  | auditing _ => 5
  | posted _ => 0

/-- The steps that the recorder makes for a message. -/
def Message.cost : Message → Nat
  | result _ => 4
  | close => 1

/-- The steps that the recorder makes before it is idle. -/
def Recorder.cost : Recorder → Nat
  | announcing ns => ns.length + 1
  | _ => 0

/-- The steps that are left, but for the later chunks and the recorder. -/
def Phase.cost : Phase → Nat
  | turning => 3
  | gathering workers => (workers.map Worker.cost).sum + 5
  | joining _ => 4
  | closing _ => 1
  | ended _ => 0

/-- A bound on the steps that are left. -/
def State.cost (s : State) : Nat :=
  s.phase.cost + (s.later.map fun chunk => 6 * chunk.length + 3).sum +
    (s.queue.map Message.cost).sum + s.recorder.cost

section

variable {audit : Text → Except Text Report} {continueOnError : Bool} {heard : Notice → Bool}
  {total : Nat} {chunks : List (List Text)} {s s' : State}

theorem Step.cost_lt (h : Step audit continueOnError heard s s') : s'.cost < s.cost := by
  cases h with
  | @next chunk rest hp hl =>
    have hchunk : ((chunk.map Worker.ready).map Worker.cost).sum = 6 * chunk.length := by
      simp [Function.comp_def, Worker.cost, Nat.mul_comm]
    simp only [State.cost, hp, hl, Phase.cost, hchunk, List.map_cons, List.sum_cons]
    omega
  | begin hp => simp [State.cost, hp, Phase.cost, Worker.cost]
  | post hp => simp [State.cost, hp, Phase.cost, Worker.cost, Message.cost]; omega
  | gathered hp | joined hp | leave hp => simp [State.cost, hp, Phase.cost]
  | stop hp | finish hp => simp [State.cost, hp, Phase.cost, Message.cost]; omega
  | @take a rest hr hq =>
    have hnews : ((s.ledger.news a).filter heard).length ≤ 2 :=
      Nat.le_trans (List.length_filter_le ..) (s.ledger.length_news_le a)
    simp only [State.cost, hr, hq, Recorder.cost, Message.cost, List.map_cons, List.sum_cons]
    omega
  | announce _ hr | done hr => simp [State.cost, hr, Recorder.cost]
  | close hr hq => simp [State.cost, hr, hq, Recorder.cost, Message.cost]

/-- The batch ends, whatever the order in which the tasks take turns. -/
theorem Sound.ends (hs : Sound audit continueOnError heard total chunks s) :
    Ends audit continueOnError heard (fun s => Sound audit continueOnError heard total chunks s ∧
      ∃ stopped, s.phase = .ended stopped) s := by
  induction hn : s.cost using Nat.strongRecOn generalizing s with
  | _ n ih =>
    subst hn
    have hgo : (∃ s', Step audit continueOnError heard s s') ∨ ∃ stopped, s.phase = .ended stopped :=
      hs.orderly.goes_on
    rcases hgo with hgo | ⟨stopped, hp⟩
    · exact .later hgo fun s' h => ih _ h.cost_lt (hs.step h) rfl
    · exact .here ⟨hs, stopped, hp⟩ fun s' => hs.orderly.final hp

end

/-! ## Every schedule is an order in which the tasks can take turns -/

/-- The result that a worker posts or has posted. -/
def Worker.outcome (audit : Text → Except Text Report) : Worker → Attempt
  | ready item | auditing item => ⟨item, audit item⟩
  | posted a => a

/-- The result that a worker posts if it has not begun. -/
def Worker.ahead? (audit : Text → Except Text Report) : Worker → Option Attempt
  | ready item => some ⟨item, audit item⟩
  | _ => none

section

variable (audit : Text → Except Text Report) {continueOnError : Bool} {heard : Notice → Bool}

theorem exists_reaches_idle (s : State) (ns : List Notice) :
    ∃ g, Reaches audit continueOnError heard { s with recorder := .announcing ns }
      { s with recorder := .idle, given := g } := by
  induction ns generalizing s with
  | nil => exact ⟨s.given, .single (.done rfl)⟩
  | cons n ns ih =>
    obtain ⟨g, hg⟩ := ih { s with given := s.given ++ [(n, none)] }
    exact ⟨g, .head (.announce none rfl) hg⟩

theorem exists_reaches_drained (s : State) (order : List Attempt) :
    ∃ g, Reaches audit continueOnError heard
      { s with queue := order.map .result, recorder := .idle }
      { s with
        queue := []
        recorder := .idle
        ledger := order.foldl Ledger.record s.ledger
        given := g } := by
  induction order generalizing s with
  | nil => exact ⟨s.given, .refl⟩
  | cons a order ih =>
    obtain ⟨g₁, h₁⟩ := exists_reaches_idle audit
      { s with queue := order.map .result, ledger := s.ledger.record a }
      ((s.ledger.news a).filter heard)
    obtain ⟨g₂, h₂⟩ := ih { s with ledger := s.ledger.record a, given := g₁ }
    exact ⟨g₂, .head (.take rfl rfl) (h₁.trans h₂)⟩

/-- Workers of which none has posted or all have, as far as they are ahead. -/
theorem outcome_posted {workers : List Worker} (hauditing : ∀ item, .auditing item ∉ workers)
    (hready : ∀ item, .ready item ∉ workers) :
    (workers.map (Worker.outcome audit)).map .posted = workers := by
  rw [List.map_map]
  refine (List.map_congr_left fun w hw => ?_).trans workers.map_id
  cases w with
  | ready item => exact absurd hw (hready item)
  | auditing item => exact absurd hw (hauditing item)
  | posted a => rfl

/-- The workers of a chunk begin and post one after the other, in the order that is asked for. -/
theorem exists_reaches_posted (s : State) {workers : List Worker} {order : List Attempt}
    (hauditing : ∀ item, .auditing item ∉ workers)
    (ho : order.Perm (workers.filterMap (Worker.ahead? audit))) :
    ∃ b, Reaches audit continueOnError heard { s with phase := .gathering workers }
      { s with
        phase := .gathering ((workers.map (Worker.outcome audit)).map .posted)
        queue := s.queue ++ order.map .result
        begun := b } := by
  induction order generalizing s workers with
  | nil =>
    have hready : ∀ item, .ready item ∉ workers := by
      intro item hw
      have hnil : workers.filterMap (Worker.ahead? audit) = [] := ho.nil_eq.symm
      exact absurd (List.filterMap_eq_nil_iff.1 hnil _ hw) (by simp [Worker.ahead?])
    rw [outcome_posted audit hauditing hready, List.map_nil, List.append_nil]
    exact ⟨s.begun, .refl⟩
  | cons a order ih =>
    obtain ⟨w, hw, ha⟩ := List.mem_filterMap.1 (ho.subset List.mem_cons_self)
    cases w with
    | auditing | posted => simp [Worker.ahead?] at ha
    | ready item =>
      obtain rfl : ⟨item, audit item⟩ = a := Option.some.inj ha
      obtain ⟨front, back, rfl⟩ := List.append_of_mem hw
      have hrest : order.Perm ((front ++ .posted ⟨item, audit item⟩ :: back).filterMap
          (Worker.ahead? audit)) := by
        simp only [List.filterMap_append, List.filterMap_cons, Worker.ahead?] at ho ⊢
        exact (List.perm_cons _).1 (ho.trans List.perm_middle)
      obtain ⟨b, hb⟩ := ih { s with
          queue := s.queue ++ [.result ⟨item, audit item⟩]
          begun := s.begun ++ [item] } (by simpa using hauditing) hrest
      refine ⟨b, .head (.begin rfl) (.head (.post rfl) ?_)⟩
      simpa [Worker.outcome] using hb

theorem exists_reaches_joining (s : State) {chunk : List Text} {order : List Attempt}
    (ho : order.Perm (attempts audit chunk)) :
    ∃ b g, Reaches audit continueOnError heard
      { s with phase := .gathering (chunk.map .ready), queue := [], recorder := .idle }
      { s with
        phase := .joining (attempts audit chunk)
        queue := []
        recorder := .idle
        ledger := order.foldl Ledger.record s.ledger
        begun := b
        given := g } := by
  have hahead : order.Perm ((chunk.map Worker.ready).filterMap (Worker.ahead? audit)) := by
    rw [List.filterMap_map, show Worker.ahead? audit ∘ Worker.ready =
      some ∘ fun item => ⟨item, audit item⟩ from rfl, List.filterMap_eq_map]
    exact ho
  have hall : (chunk.map Worker.ready).map (Worker.outcome audit) = attempts audit chunk := by
    simp [attempts, Worker.outcome]
  obtain ⟨b, hb⟩ := exists_reaches_posted audit { s with queue := [], recorder := .idle }
    (by simp) hahead
  rw [hall] at hb
  obtain ⟨g, hg⟩ := exists_reaches_drained audit
    { s with phase := .joining (attempts audit chunk), begun := b } order
  exact ⟨b, g, hb.trans (.head (.gathered rfl) hg)⟩

theorem exists_reaches_ended {chunks done : List (List Text)} {stopped : Option Failure}
    {parts : List (List Attempt)} (s : State)
    (ht : through audit continueOnError chunks = (done, stopped))
    (hparts : List.Forall₂ (fun chunk part => List.Perm part (attempts audit chunk)) done parts) :
    ∃ s', Reaches audit continueOnError heard
      { s with phase := .turning, later := chunks, queue := [], recorder := .idle } s' ∧
      s'.phase = .ended stopped ∧ s'.ledger = parts.flatten.foldl Ledger.record s.ledger := by
  induction chunks generalizing s done parts with
  | nil =>
    obtain ⟨rfl, rfl⟩ := Prod.mk.inj ht
    cases hparts
    exact ⟨_, .head (.finish rfl rfl) (.head (.close rfl rfl) (.single (.leave rfl rfl))), rfl, rfl⟩
  | cons chunk rest ih =>
    cases hhalt : halt continueOnError (attempts audit chunk) with
    | some f =>
      simp only [through, hhalt, Prod.mk.injEq] at ht
      obtain ⟨rfl, rfl⟩ := ht
      cases hparts with
      | cons hp hnil =>
        cases hnil
        obtain ⟨b, g, h⟩ := exists_reaches_joining audit { s with later := rest } hp
        refine ⟨_, .head (.next rfl rfl) (h.trans (.head (.stop rfl rfl rfl hhalt)
          (.head (.close rfl rfl) (.single (.leave rfl rfl))))), rfl, by simp⟩
    | none =>
      simp only [through, hhalt, Prod.mk.injEq] at ht
      obtain ⟨rfl, rfl⟩ := ht
      cases hparts with
      | @cons _ order _ parts hp hrest =>
        obtain ⟨b, g, h⟩ := exists_reaches_joining audit { s with later := rest } hp
        obtain ⟨s', hreach, hphase, hledger⟩ := ih { s with
          ledger := order.foldl Ledger.record s.ledger, begun := b, given := g } rfl hrest
        refine ⟨s', .head (.next rfl rfl) (h.trans (.head (.joined rfl rfl rfl hhalt) hreach)),
          hphase, ?_⟩
        rw [hledger, List.flatten_cons, List.foldl_append]

/-- The batch ends as `run` does under some schedule, and however `run` ends, the tasks can take
turns so that the batch ends so. -/
theorem reaches_iff_run {defaultParallel : Nat} {o : Options} {items : List Text} {l : Ledger}
    {stopped : Option Failure} :
    (∃ s, Reaches audit o.continueOnError heard
        (.start items.length (chunked defaultParallel o items)) s ∧
        s.phase = .ended stopped ∧ s.ledger = l) ↔
      ∃ schedule, run audit schedule defaultParallel o items = (l, stopped) := by
  rw [run_iff]
  constructor
  · rintro ⟨s, hreach, hp, rfl⟩
    obtain ⟨done, hthrough, hsettled, -⟩ := (Sound.start.reaches hreach).at_end (.inr hp)
    exact ⟨done, hthrough, hsettled.recorded⟩
  · rintro ⟨done, hthrough, parts, hparts, rfl⟩
    exact exists_reaches_ended audit (.start items.length []) hthrough hparts

end

end Batch

end PackageAudit
