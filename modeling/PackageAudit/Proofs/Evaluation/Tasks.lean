import PackageAudit.Evaluation.Tasks
import PackageAudit.Proofs.Audit
import Mathlib.Algebra.Ring.Nat
import Mathlib.Logic.Relation

/-! # How the tasks of an evaluation end

Whatever the order in which the evaluation, the loop and the threads go on, the evaluation ends, and it
ends with what `evaluate` answers (`evaluation_ends`); an answer that comes after its call was given up
changes nothing (`ended_of_reaches`). Two things hold in every state: a call that was not given up has
been answered by its own check, if at all (`Call.Sound`), and the verdicts are those of the rules whose
turn is over (`Placed`). That the evaluation can go on is read off them, that it ends off `State.cost`,
which every step lowers.
-/

namespace PackageAudit

namespace Evaluation

section

variable (cat : Catalog) (t : Tree) (p : Package) (d : Deadline)

/-! ## Executions -/

/-- Anybody goes on. -/
abbrev Moves (s s' : State) : Prop := Step cat t p d s s' ∨ Stray s s'

/-- A state comes after another one, by any number of steps. -/
abbrev Reaches : State → State → Prop := Relation.ReflTransGen (Moves cat t p d)

/-- Whoever goes on, a state comes in which `P` holds, and nobody has to answer for that whom the
evaluation does not wait for. -/
inductive Ends (P : State → Prop) : State → Prop
  | here {s : State} (h : P s) : Ends P s
  | later {s : State} (goesOn : ∃ s', Step cat t p d s s')
      (h : ∀ s', Moves cat t p d s s' → Ends P s') : Ends P s

/-- However the evaluation of these rules goes, it ends, and it ends with this. -/
structure ComesTo (rules : List Rule) (result : Except Fault (List Verdict)) : Prop where
  ends : Ends cat t p d (fun s => s.phase = .ended result) (.start rules)
  only : ∀ s result', Reaches cat t p d (.start rules) s → s.phase = .ended result' →
    result' = result

/-! ## What holds in every state -/

/-- A future that is done holds the answer of its own check, and one that is not will, unless it
does not take it. -/
def Call.Sound (c : Call) : Prop :=
  match c.future with
  | .pending => c.thread = .running ∨ c.thread = .handed c.answer ∨
      c.thread = .through ∧ isTaken c.answer = false
  | .settled a => a = c.answer
  | .cancelled => True

/-- The evaluation of these rules comes down to that of those that are left. -/
def Through (rules left : List Rule) (verdicts : List Verdict) : Prop :=
  evaluate cat t p d rules = (evaluate cat t p d left).map (verdicts ++ ·)

/-- The call of a rule's check, which was not given up. -/
def Awaited (r : Rule) (c : Call) : Prop :=
  (∃ check, cat.check? r.id = some check ∧ c.answer = check t p) ∧ c.future ≠ .cancelled

/-- What the phase says of the rules that are left and of the verdicts. -/
def Placed (rules later : List Rule) (calls : List Call) (verdicts : List Verdict) : Phase → Prop
  | .turning => Through cat t p d rules later verdicts
  | .waiting r place => Through cat t p d rules (r :: later) verdicts ∧
      ∃ c, calls[place]? = some c ∧ Awaited cat t p r c
  | .ended result => evaluate cat t p d rules = result

/-- What holds in every state of an evaluation of these rules. -/
structure Sound (rules : List Rule) (s : State) : Prop where
  calls : ∀ c ∈ s.calls, c.Sound
  placed : Placed cat t p d rules s.later s.calls s.verdicts s.phase

end

section

variable {cat : Catalog} {t : Tree} {p : Package} {d : Deadline} {rules later : List Rule} {r : Rule}
  {c c' : Call} {calls : List Call} {verdicts : List Verdict} {place : Nat} {s s' : State}

theorem Through.start : Through cat t p d rules rules [] := by
  unfold Through
  cases evaluate cat t p d rules with
  | ok vs => rfl
  | error f => rfl

theorem Sound.start : Sound cat t p d rules (.start rules) where
  calls _ hc := absurd hc List.not_mem_nil
  placed := Through.start

theorem Through.ok {v : Verdict} (h : Through cat t p d rules (r :: later) verdicts)
    (hr : evaluateRule cat t p d r = .ok v) : Through cat t p d rules later (verdicts ++ [v]) := by
  unfold Through at *
  rw [h, evaluate, hr]
  cases evaluate cat t p d later with
  | error f => rfl
  | ok vs => simp [Except.map]

theorem Through.error {f : Fault} (h : Through cat t p d rules (r :: later) verdicts)
    (hr : evaluateRule cat t p d r = .error f) : evaluate cat t p d rules = .error f := by
  rw [h, evaluate, hr]
  rfl

theorem Sound.conclude {result : Except Fault Verdict} (hcalls : ∀ c ∈ s.calls, c.Sound)
    (h : Through cat t p d rules (r :: s.later) s.verdicts)
    (hr : evaluateRule cat t p d r = result) : Sound cat t p d rules (s.conclude result) := by
  cases result with
  | ok v => exact ⟨hcalls, h.ok hr⟩
  | error f => exact ⟨hcalls, h.error hr⟩

theorem settle_eq_late (hd : leavesTime d = false) (a : Answer) : settle r d a = settle r d .late := by
  unfold settle
  split
  · rfl
  · rfl
  · next x =>
    have hx : x.isPositive = false := hd
    simp only [hx, Bool.not_false, if_true]

theorem settle_eq_late_of_untaken {a : Answer} (h : isTaken a = false) :
    settle r d a = settle r d .late := by
  unfold isTaken at h
  split at h
  · next kind text =>
    have hkind : kind = endOfIteration := by simpa using h
    unfold settle
    simp only [ofFault, if_pos hkind]
  · cases h

/-! ## Calls -/

theorem Call.sound_hand (h : c.future = .pending) : (c.hand c.answer).Sound := by
  simp [Call.Sound, Call.hand, h]

theorem Call.sound_hand_of_cancelled (h : c.future = .cancelled) (a : Answer) :
    (c.hand a).Sound := by
  simp [Call.Sound, Call.hand, h]

theorem Call.sound_giveUp (c : Call) : c.giveUp.Sound := trivial

/-- What the loop looks at for a call that is waited for is the check's answer. -/
theorem Call.Sound.receive {a : Answer} (h : c.Sound) (ha : c.thread = .handed a) :
    (c.receive a).Sound := by
  unfold Call.Sound at h
  unfold Call.receive
  split
  · next hf =>
    rw [hf, ha] at h
    have hanswer : a = c.answer := by simpa using h
    unfold Call.Sound
    cases htaken : isTaken a with
    | true => exact hanswer
    | false => exact .inr (.inr ⟨rfl, hanswer ▸ htaken⟩)
  · unfold Call.Sound
    cases hf : c.future with
    | pending => simp_all
    | settled b => rw [hf] at h; exact h
    | cancelled => trivial

theorem Call.answer_receive (a : Answer) : (c.receive a).answer = c.answer := by
  unfold Call.receive
  split <;> rfl

theorem Call.receive_ne_cancelled (a : Answer) (h : c.future ≠ .cancelled) :
    (c.receive a).future ≠ .cancelled := by
  unfold Call.receive
  split
  · cases isTaken a <;> exact nofun
  · exact h

/-- A call may change, but not into one of another check, nor be given up while it is waited for. -/
theorem Placed.putCall {phase : Phase} (h : Placed cat t p d rules later calls verdicts phase)
    (hc : calls[place]? = some c) (hanswer : c'.answer = c.answer)
    (hfuture : c.future ≠ .cancelled → c'.future ≠ .cancelled) :
    Placed cat t p d rules later (calls.set place c') verdicts phase := by
  cases phase with
  | turning => exact h
  | ended result => exact h
  | waiting r place' =>
    obtain ⟨hthrough, c₁, hc₁, ⟨check, hcheck, ha⟩, hf⟩ := h
    refine ⟨hthrough, ?_⟩
    by_cases hplace : place = place'
    · subst hplace
      cases hc.symm.trans hc₁
      have hlt : place < calls.length := (List.getElem?_eq_some_iff.mp hc).1
      exact ⟨c', by simp [hlt], ⟨check, hcheck, hanswer.trans ha⟩, hfuture hf⟩
    · exact ⟨c₁, by rw [List.getElem?_set_ne hplace, hc₁], ⟨check, hcheck, ha⟩, hf⟩

theorem Sound.putCall (h : Sound cat t p d rules s) (hc : s.calls[place]? = some c)
    (hsound : c'.Sound) (hanswer : c'.answer = c.answer)
    (hfuture : c.future ≠ .cancelled → c'.future ≠ .cancelled) :
    Sound cat t p d rules (s.putCall place c') where
  calls x hx := (List.mem_or_eq_of_mem_set hx).elim (h.calls x) fun he => he ▸ hsound
  placed := h.placed.putCall hc hanswer hfuture

/-! ## One step -/

theorem Sound.step (h : Sound cat t p d rules s) (hstep : Step cat t p d s s') :
    Sound cat t p d rules s' := by
  have hplaced := h.placed
  cases hstep with
  | @skip r rest hp hl hc =>
    rw [hp, hl] at hplaced
    exact Sound.conclude (s := { s with later := rest }) h.calls hplaced (by rw [evaluateRule, hc])
  | @call r rest check hp hl hc _ =>
    rw [hp, hl] at hplaced
    refine ⟨fun c hm => ?_, hplaced, .start (check t p), by simp, ⟨check, hc, rfl⟩, nofun⟩
    rcases List.mem_append.mp hm with hm | hm
    · exact h.calls c hm
    · rw [List.mem_singleton.mp hm]
      exact .inl rfl
  | @miss r rest check hp hl hc hd =>
    rw [hp, hl] at hplaced
    refine Sound.conclude (fun c hm => ?_) hplaced ?_
    · rcases List.mem_append.mp hm with hm | hm
      · exact h.calls c hm
      · exact List.mem_singleton.mp hm ▸ Call.sound_giveUp _
    · rw [evaluateRule, hc]
      exact settle_eq_late hd _
  | answer hc _ hf _ => exact h.putCall hc (Call.sound_hand hf) rfl id
  | @receive place c a hc ha =>
    have hsound := h.calls c (List.mem_of_getElem? hc)
    exact h.putCall hc (hsound.receive ha) (Call.answer_receive a) (Call.receive_ne_cancelled a)
  | @expire r place c hp hc hf ha =>
    rw [hp] at hplaced
    obtain ⟨hthrough, c', hc', ⟨check, hcheck, hanswer⟩, -⟩ := hplaced
    cases hc.symm.trans hc'
    have hlate : settle r d c.answer = settle r d .late := by
      rcases ha with ha | hthread
      · rw [ha]
      · have hsound := h.calls c (List.mem_of_getElem? hc)
        rw [Call.Sound, hf, hthread] at hsound
        exact settle_eq_late_of_untaken (by simpa using hsound)
    refine Sound.conclude (s := s.putCall place c.giveUp) (fun x hx => ?_) hthrough ?_
    · exact (List.mem_or_eq_of_mem_set hx).elim (h.calls x) fun he => he ▸ c.sound_giveUp
    · rw [evaluateRule, hcheck, ← hlate, hanswer]
  | @resume r place c a hp hc hf =>
    rw [hp] at hplaced
    obtain ⟨hthrough, c', hc', ⟨check, hcheck, hanswer⟩, -⟩ := hplaced
    cases hc.symm.trans hc'
    have hsound := h.calls c (List.mem_of_getElem? hc)
    rw [Call.Sound, hf] at hsound
    refine Sound.conclude h.calls hthrough ?_
    rw [evaluateRule, hcheck, hsound, hanswer]
  | finish hp hl =>
    rw [hp, hl] at hplaced
    refine ⟨h.calls, ?_⟩
    show evaluate cat t p d rules = .ok s.verdicts
    rw [hplaced]
    simp [evaluate, Except.map]

theorem Sound.stray (h : Sound cat t p d rules s) (hstray : Stray s s') : Sound cat t p d rules s' := by
  cases hstray with
  | answer a hc _ hf => exact h.putCall hc (Call.sound_hand_of_cancelled hf a) rfl id

theorem Sound.moves (h : Sound cat t p d rules s) (hm : Moves cat t p d s s') :
    Sound cat t p d rules s' :=
  hm.elim h.step h.stray

theorem Sound.reaches (h : Sound cat t p d rules s) (hreach : Reaches cat t p d s s') :
    Sound cat t p d rules s' := by
  induction hreach with
  | refl => exact h
  | tail _ hm ih => exact ih.moves hm

/-- **An evaluation that has ended has ended with what `evaluate` answers**, whatever comes later. -/
theorem ended_of_reaches {result : Except Fault (List Verdict)}
    (h : Reaches cat t p d (.start rules) s) (hp : s.phase = .ended result) :
    result = evaluate cat t p d rules := by
  have hplaced := (Sound.start.reaches h).placed
  rw [hp] at hplaced
  exact hplaced.symm

/-! ## The evaluation ends -/

/-- The evaluation can go on unless it has ended: the thread that it waits for, the loop or the clock
can. -/
theorem Sound.goes_on (h : Sound cat t p d rules s) :
    (∃ s', Step cat t p d s s') ∨ ∃ result, s.phase = .ended result := by
  have hplaced := h.placed
  cases hp : s.phase with
  | turning =>
    cases hl : s.later with
    | nil => exact .inl ⟨_, .finish hp hl⟩
    | cons r rest =>
      cases hc : cat.check? r.id with
      | none => exact .inl ⟨_, .skip hp hl hc⟩
      | some check =>
        cases hd : leavesTime d with
        | true => exact .inl ⟨_, .call hp hl hc hd⟩
        | false => exact .inl ⟨_, .miss hp hl hc hd⟩
  | waiting r place =>
    rw [hp] at hplaced
    obtain ⟨-, c, hc, -, hnot⟩ := hplaced
    have hsound := h.calls c (List.mem_of_getElem? hc)
    rw [Call.Sound] at hsound
    cases hf : c.future with
    | settled a => exact .inl ⟨_, .resume hp hc hf⟩
    | cancelled => exact absurd hf hnot
    | pending =>
      rw [hf] at hsound
      rcases hsound with hr | ha | ⟨hthread, -⟩
      · by_cases hlate : c.answer = .late
        · exact .inl ⟨_, .expire hp hc hf (.inl hlate)⟩
        · exact .inl ⟨_, .answer hc hr hf hlate⟩
      · exact .inl ⟨_, .receive hc ha⟩
      · exact .inl ⟨_, .expire hp hc hf (.inr hthread)⟩
  | ended result => exact .inr ⟨result, rfl⟩

/-- The steps that are left to a call. -/
def Call.cost (c : Call) : Nat :=
  match c.thread with
  | .running => 2
  | .handed _ => 1
  | .through => 0

/-- The steps that are left to the evaluation, but for the later rules. -/
def Phase.cost : Phase → Nat
  | .turning => 1
  | .waiting _ _ => 2
  | .ended _ => 0

/-- A bound on the steps that are left. -/
def State.cost (s : State) : Nat :=
  s.phase.cost + 4 * s.later.length + (s.calls.map Call.cost).sum

theorem State.cost_conclude_le (s : State) (result : Except Fault Verdict) :
    (s.conclude result).cost ≤ 1 + 4 * s.later.length + (s.calls.map Call.cost).sum := by
  cases result <;> simp [State.conclude, State.cost, Phase.cost]

theorem sum_cost_set : ∀ {calls : List Call} {place : Nat}, calls[place]? = some c → ∀ c' : Call,
    ((calls.set place c').map Call.cost).sum + c.cost = (calls.map Call.cost).sum + c'.cost
  | first :: calls, 0, hc, c' => by
    cases hc
    simp only [List.set_cons_zero, List.map_cons, List.sum_cons]
    omega
  | first :: calls, place + 1, hc, c' => by
    have ih : ((calls.set place c').map Call.cost).sum + c.cost =
        (calls.map Call.cost).sum + c'.cost := sum_cost_set (by simpa using hc) c'
    simp only [List.set_cons_succ, List.map_cons, List.sum_cons]
    omega

theorem cost_putCall_lt (hc : s.calls[place]? = some c) (h : c'.cost < c.cost) :
    (s.putCall place c').cost < s.cost := by
  have hsum := sum_cost_set hc c'
  simp only [State.cost, State.putCall]
  omega

theorem Call.cost_receive (a : Answer) : (c.receive a).cost = 0 := by
  unfold Call.receive
  split <;> rfl

theorem Call.cost_hand_lt (h : c.thread = .running) (a : Answer) : (c.hand a).cost < c.cost := by
  simp [Call.cost, Call.hand, h]

theorem Step.cost_lt (h : Step cat t p d s s') : s'.cost < s.cost := by
  cases h with
  | @skip r rest hp hl _ =>
    refine Nat.lt_of_le_of_lt (State.cost_conclude_le _ _) ?_
    simp only [State.cost, hp, hl, Phase.cost, List.length_cons]
    omega
  | call hp hl _ _ =>
    simp only [State.cost, hp, hl, Phase.cost, List.length_cons, List.map_append, List.map_cons,
      List.map_nil, List.sum_append, List.sum_cons, List.sum_nil, Call.cost, Call.start]
    omega
  | @miss r rest check hp hl _ _ =>
    have hcall : (Call.start (check t p)).giveUp.cost = 2 := rfl
    refine Nat.lt_of_le_of_lt (State.cost_conclude_le _ _) ?_
    simp only [State.cost, hp, hl, Phase.cost, List.length_cons, List.map_append, List.map_cons,
      List.map_nil, List.sum_append, List.sum_cons, List.sum_nil, hcall]
    omega
  | answer hc hr _ _ => exact cost_putCall_lt hc (Call.cost_hand_lt hr _)
  | @receive place c a hc ha =>
    refine cost_putCall_lt hc ?_
    rw [Call.cost_receive]
    simp [Call.cost, ha]
  | @expire r place c hp hc _ _ =>
    have hsum := sum_cost_set hc c.giveUp
    have hcost : c.giveUp.cost = c.cost := rfl
    refine Nat.lt_of_le_of_lt (State.cost_conclude_le _ _) ?_
    simp only [State.putCall, State.cost, hp, Phase.cost]
    omega
  | @resume r place c a hp _ _ =>
    refine Nat.lt_of_le_of_lt (State.cost_conclude_le _ _) ?_
    simp only [State.cost, hp, Phase.cost]
    omega
  | finish hp hl => simp [State.cost, hp, hl, Phase.cost]

theorem Moves.cost_lt (h : Moves cat t p d s s') : s'.cost < s.cost := by
  rcases h with h | h
  · exact h.cost_lt
  · cases h with
    | answer a hc hr _ => exact cost_putCall_lt hc (Call.cost_hand_lt hr a)

/-- **Every evaluation ends**, whoever goes on, and with what `evaluate` answers. -/
theorem evaluation_ends : Ends cat t p d (fun s => s.phase = .ended (evaluate cat t p d rules))
    (.start rules) := by
  have hall (s : State) (h : Sound cat t p d rules s) :
      Ends cat t p d (fun s => s.phase = .ended (evaluate cat t p d rules)) s := by
    induction hn : s.cost using Nat.strongRecOn generalizing s with
    | _ n ih =>
      subst hn
      have hgo : (∃ s', Step cat t p d s s') ∨ ∃ result, s.phase = .ended result := h.goes_on
      rcases hgo with hgo | ⟨result, hp⟩
      · exact .later hgo fun s' hm => ih _ (Moves.cost_lt hm) s' (h.moves hm) rfl
      · have hplaced := h.placed
        rw [hp] at hplaced
        exact .here (hplaced ▸ hp)
  exact hall _ Sound.start

theorem Ends.exists_reaches {P : State → Prop} (h : Ends cat t p d P s) :
    ∃ s', Reaches cat t p d s s' ∧ P s' := by
  induction h with
  | here h => exact ⟨_, .refl, h⟩
  | later goesOn _ ih =>
    obtain ⟨s', hstep⟩ := goesOn
    obtain ⟨s'', hreach, hP⟩ := ih s' (.inl hstep)
    exact ⟨s'', .head (.inl hstep) hreach, hP⟩

/-- **What an evaluation comes to**, whoever goes on, is what `evaluate` answers. -/
theorem comesTo_iff {result : Except Fault (List Verdict)} :
    ComesTo cat t p d rules result ↔ evaluate cat t p d rules = result := by
  constructor
  · intro h
    obtain ⟨s, hreach, hp⟩ := h.ends.exists_reaches
    exact (ended_of_reaches hreach hp).symm
  · rintro rfl
    exact ⟨evaluation_ends, fun s result hreach hp => ended_of_reaches hreach hp⟩

end

end Evaluation

end PackageAudit
