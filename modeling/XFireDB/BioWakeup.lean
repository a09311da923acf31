import XFireDB.Lib.Runs
import XFireDB.Disk

/-!
# Waking the persistence worker

The threads around the bio queue: any number of `bio_queue_add` and `bio_sync`
callers against `job_processor`, which sleeps on the job's condition variable
and runs `bio_worker` when it is woken.  One step is one lock-protected section
of the source, or one step between two of them.

The job lock makes two sections atomic against each other: `job_processor`
takes it and starts to wait in one step, since `pthread_cond_wait` releases it
only once the thread is waiting, and `bg_process_signal` signals under it.  A
signal that finds no waiter has no effect.
-/

namespace XFireDB

open Lib

namespace Bio

/-- Where a thread of `job_processor` is. -/
inductive Worker
  /-- at the top of the loop, before it takes the job lock -/
  | top
  /-- in `xfiredb_cond_wait` -/
  | waiting
  /-- woken, or not put to sleep; the handler is next -/
  | woken
  /-- in `bio_worker`, before `bio_queue_pop` -/
  | popping
  /-- in `bio_worker`, with a popped entry to write -/
  | writing (q : BioQ)
  /-- the handler has returned; `j->done` is tested next -/
  | returned
  | exited
deriving DecidableEq

/-- Where a call of `bio_queue_add` is. -/
inductive Add
  | idle
  /-- called, the entry not yet linked -/
  | called (q : BioQ)
  /-- the entry is linked, `bio_try_wakeup_worker` is next -/
  | linked
  /-- `bio_try_wakeup_worker` decided to signal -/
  | signalling
deriving DecidableEq

/-- Where a call of `bio_sync` is. -/
inductive Sync
  | idle
  | called
  /-- signalled; polls `bio_size` -/
  | polling
deriving DecidableEq

/-- The shared state.  `queue` holds the entries oldest first: `bio_queue_add`
links at `next`, `bio_queue_pop` takes `tail`. -/
structure State where
  queue : List BioQ
  wakeUpCounter : Nat
  done : Bool
  worker : Worker
  adds : Nat → Add
  syncs : Nat → Sync

/-- The scheduler's choices.  Callers are numbered. -/
inductive Event
  | addCall (i : Nat) (q : BioQ)
  | addLink (i : Nat)
  | addTryWakeup (i : Nat)
  | addSignal (i : Nat)
  | syncCall (i : Nat)
  | syncSignal (i : Nat)
  | syncPoll (i : Nat)
  | workerLock
  | workerHandle
  | workerPop
  | workerWrite
  | workerTestDone
  | stop

/-- `xfiredb_cond_signal`: wakes the worker if it waits. -/
def Worker.signal : Worker → Worker
  | .waiting => .woken
  | w => w

/-- `bio_init` and `bg_process_create`: an empty queue and a worker thread that
has not reached its first wait. -/
def init : State where
  queue := []
  wakeUpCounter := 0
  done := false
  worker := .top
  adds := fun _ => .idle
  syncs := fun _ => .idle

section Step

variable (persistLevel : Nat)

/-- One step of one thread. -/
def step (s : State) : Event → Option State
  | .addCall i q =>
    match s.adds i with
    | .idle =>
      if 3 ≤ persistLevel then some s
      else some { s with adds := Function.update s.adds i (.called q) }
    | _ => none
  | .addLink i =>
    match s.adds i with
    | .called q =>
      some { s with queue := s.queue ++ [q], adds := Function.update s.adds i .linked }
    | _ => none
  | .addTryWakeup i =>
    match s.adds i with
    | .linked =>
      let counter := s.wakeUpCounter + 1
      if counter % (persistLevel + 1) = 0 then
        some { s with wakeUpCounter := 0, adds := Function.update s.adds i .signalling }
      else
        some { s with wakeUpCounter := counter, adds := Function.update s.adds i .idle }
    | _ => none
  | .addSignal i =>
    match s.adds i with
    | .signalling =>
      some { s with worker := s.worker.signal, adds := Function.update s.adds i .idle }
    | _ => none
  | .syncCall i =>
    match s.syncs i with
    | .idle => some { s with syncs := Function.update s.syncs i .called }
    | _ => none
  | .syncSignal i =>
    match s.syncs i with
    | .called =>
      some { s with worker := s.worker.signal, syncs := Function.update s.syncs i .polling }
    | _ => none
  | .syncPoll i =>
    match s.syncs i with
    | .polling =>
      if s.queue.length = 0 then some { s with syncs := Function.update s.syncs i .idle }
      else some s
    | _ => none
  | .workerLock =>
    match s.worker with
    | .top => some { s with worker := if s.done then .woken else .waiting }
    | _ => none
  | .workerHandle =>
    match s.worker with
    | .woken => some { s with worker := .popping }
    | _ => none
  | .workerPop =>
    match s.worker with
    | .popping =>
      match s.queue with
      | q :: rest => some { s with queue := rest, worker := .writing q }
      | [] => some { s with worker := .returned }
    | _ => none
  | .workerWrite =>
    match s.worker with
    | .writing _ => some { s with worker := .popping }
    | _ => none
  | .workerTestDone =>
    match s.worker with
    | .returned => some { s with worker := if s.done then .exited else .top }
    | _ => none
  | .stop => some { s with done := true, worker := s.worker.signal }

end Step

/-- When a step can be taken, and what it does. -/
inductive Fires (persistLevel : Nat) (s : State) : Event → State → Prop
  | addDrop {i q} (idle : s.adds i = .idle) (high : 3 ≤ persistLevel) :
    Fires persistLevel s (.addCall i q) s
  | addCall {i q} (idle : s.adds i = .idle) (low : ¬ 3 ≤ persistLevel) :
    Fires persistLevel s (.addCall i q) { s with adds := Function.update s.adds i (.called q) }
  | addLink {i q} (called : s.adds i = .called q) :
    Fires persistLevel s (.addLink i)
      { s with queue := s.queue ++ [q], adds := Function.update s.adds i .linked }
  | addSignals {i} (linked : s.adds i = .linked)
      (due : (s.wakeUpCounter + 1) % (persistLevel + 1) = 0) :
    Fires persistLevel s (.addTryWakeup i)
      { s with wakeUpCounter := 0, adds := Function.update s.adds i .signalling }
  | addQuiet {i} (linked : s.adds i = .linked)
      (early : ¬ (s.wakeUpCounter + 1) % (persistLevel + 1) = 0) :
    Fires persistLevel s (.addTryWakeup i)
      { s with wakeUpCounter := s.wakeUpCounter + 1, adds := Function.update s.adds i .idle }
  | addSignal {i} (signalling : s.adds i = .signalling) :
    Fires persistLevel s (.addSignal i)
      { s with worker := s.worker.signal, adds := Function.update s.adds i .idle }
  | syncCall {i} (idle : s.syncs i = .idle) :
    Fires persistLevel s (.syncCall i) { s with syncs := Function.update s.syncs i .called }
  | syncSignal {i} (called : s.syncs i = .called) :
    Fires persistLevel s (.syncSignal i)
      { s with worker := s.worker.signal, syncs := Function.update s.syncs i .polling }
  | syncEnd {i} (polling : s.syncs i = .polling) (empty : s.queue.length = 0) :
    Fires persistLevel s (.syncPoll i) { s with syncs := Function.update s.syncs i .idle }
  | syncPoll {i} (polling : s.syncs i = .polling) (pending : ¬ s.queue.length = 0) :
    Fires persistLevel s (.syncPoll i) s
  | workerLock (top : s.worker = .top) :
    Fires persistLevel s .workerLock { s with worker := if s.done then .woken else .waiting }
  | workerHandle (woken : s.worker = .woken) :
    Fires persistLevel s .workerHandle { s with worker := .popping }
  | workerPop {q rest} (popping : s.worker = .popping) (queue : s.queue = q :: rest) :
    Fires persistLevel s .workerPop { s with queue := rest, worker := .writing q }
  | workerReturn (popping : s.worker = .popping) (empty : s.queue = []) :
    Fires persistLevel s .workerPop { s with worker := .returned }
  | workerWrite {q} (writing : s.worker = .writing q) :
    Fires persistLevel s .workerWrite { s with worker := .popping }
  | workerTestDone (returned : s.worker = .returned) :
    Fires persistLevel s .workerTestDone { s with worker := if s.done then .exited else .top }
  | stop : Fires persistLevel s .stop { s with done := true, worker := s.worker.signal }

theorem Fires.of_step {persistLevel : Nat} {s s' : State} {e : Event}
    (fired : step persistLevel s e = some s') : Fires persistLevel s e s' := by
  cases e with
  | addCall i q =>
      cases pc : s.adds i with
      | idle =>
          simp only [step, pc] at fired
          split at fired
          · rename_i high
            obtain rfl := Option.some.inj fired
            exact .addDrop pc high
          · rename_i low
            obtain rfl := Option.some.inj fired
            exact .addCall pc low
      | _ => simp [step, pc] at fired
  | addLink i =>
      cases pc : s.adds i with
      | called q =>
          simp only [step, pc] at fired
          obtain rfl := Option.some.inj fired
          exact .addLink pc
      | _ => simp [step, pc] at fired
  | addTryWakeup i =>
      cases pc : s.adds i with
      | linked =>
          simp only [step, pc] at fired
          split at fired
          · rename_i due
            obtain rfl := Option.some.inj fired
            exact .addSignals pc due
          · rename_i early
            obtain rfl := Option.some.inj fired
            exact .addQuiet pc early
      | _ => simp [step, pc] at fired
  | addSignal i =>
      cases pc : s.adds i with
      | signalling =>
          simp only [step, pc] at fired
          obtain rfl := Option.some.inj fired
          exact .addSignal pc
      | _ => simp [step, pc] at fired
  | syncCall i =>
      cases pc : s.syncs i with
      | idle =>
          simp only [step, pc] at fired
          obtain rfl := Option.some.inj fired
          exact .syncCall pc
      | _ => simp [step, pc] at fired
  | syncSignal i =>
      cases pc : s.syncs i with
      | called =>
          simp only [step, pc] at fired
          obtain rfl := Option.some.inj fired
          exact .syncSignal pc
      | _ => simp [step, pc] at fired
  | syncPoll i =>
      cases pc : s.syncs i with
      | polling =>
          simp only [step, pc] at fired
          split at fired
          · rename_i empty
            obtain rfl := Option.some.inj fired
            exact .syncEnd pc empty
          · rename_i pending
            obtain rfl := Option.some.inj fired
            exact .syncPoll pc pending
      | _ => simp [step, pc] at fired
  | workerLock =>
      cases pc : s.worker with
      | top =>
          simp only [step, pc] at fired
          obtain rfl := Option.some.inj fired
          exact .workerLock pc
      | _ => simp [step, pc] at fired
  | workerHandle =>
      cases pc : s.worker with
      | woken =>
          simp only [step, pc] at fired
          obtain rfl := Option.some.inj fired
          exact .workerHandle pc
      | _ => simp [step, pc] at fired
  | workerPop =>
      cases pc : s.worker with
      | popping =>
          simp only [step, pc] at fired
          split at fired
          · rename_i q rest queue
            obtain rfl := Option.some.inj fired
            exact .workerPop pc queue
          · rename_i empty
            obtain rfl := Option.some.inj fired
            exact .workerReturn pc empty
      | _ => simp [step, pc] at fired
  | workerWrite =>
      cases pc : s.worker with
      | writing q =>
          simp only [step, pc] at fired
          obtain rfl := Option.some.inj fired
          exact .workerWrite pc
      | _ => simp [step, pc] at fired
  | workerTestDone =>
      cases pc : s.worker with
      | returned =>
          simp only [step, pc] at fired
          obtain rfl := Option.some.inj fired
          exact .workerTestDone pc
      | _ => simp [step, pc] at fired
  | stop =>
      obtain rfl := Option.some.inj fired
      exact .stop

/-- A `bio_queue_add` call whose entry is linked and whose signal is still to
come. -/
def Add.Owing : Add → Prop
  | .linked => True
  | .signalling => True
  | _ => False

/-- The worker sleeps, or has seen the queue empty and goes to sleep without
looking again. -/
def Worker.Drowsy : Worker → Prop
  | .returned => True
  | .top => True
  | .waiting => True
  | _ => False

/-- No call of `bio_queue_add` is in progress. -/
def Quiet (s : State) : Prop := ∀ i, s.adds i = .idle

/-- With no `bio_queue_add` in progress, the worker does not sleep on queued
entries, and no `bio_sync` polls for a sleeping worker. -/
def NoLostWakeup (s : State) : Prop :=
  Quiet s → s.queue ≠ [] →
    s.worker ≠ .waiting ∧ ∀ i, ¬ (s.syncs i = .polling ∧ s.worker = .waiting)

/-- The guard on a step: the signal of a `bio_queue_add` is not spent on a
worker that has seen the queue empty and is not waiting yet, unless the queue is
empty again or another call still owes a signal.  The job is not stopped. -/
def Heard (s : State) : Event → Prop
  | .addSignal i =>
    s.worker.Drowsy → s.worker ≠ .waiting → s.queue ≠ [] → ∃ j, j ≠ i ∧ (s.adds j).Owing
  | .stop => False
  | _ => True

/-! ## The invariant -/

/-- Entries wait for a worker that is asleep or about to sleep only while some
caller still owes it a signal. -/
def Covered (s : State) : Prop :=
  s.worker.Drowsy → s.queue ≠ [] → ∃ i, (s.adds i).Owing

theorem Worker.not_drowsy_signal_waiting : ¬ (Worker.waiting : Worker).signal.Drowsy :=
  fun drowsy => drowsy

theorem Worker.signal_of_ne_waiting {w : Worker} (awake : w ≠ .waiting) : w.signal = w := by
  cases w with
  | waiting => exact absurd rfl awake
  | _ => rfl

theorem Worker.drowsy_of_signal {w : Worker} (drowsy : w.signal.Drowsy) : w.Drowsy := by
  cases w with
  | waiting => trivial
  | _ => exact drowsy

theorem owing_update_of_ne {adds : Nat → Add} {i : Nat} {a : Add}
    (owing : ∃ j, j ≠ i ∧ (adds j).Owing) : ∃ j, (Function.update adds i a j).Owing := by
  obtain ⟨j, other, owes⟩ := owing
  exact ⟨j, by rwa [Function.update_of_ne other]⟩

/-- A caller that owes nothing may move without uncovering the queue. -/
theorem owing_update {adds : Nat → Add} {i : Nat} {a : Add}
    (nothing : ¬ (adds i).Owing) (owing : ∃ j, (adds j).Owing) :
    ∃ j, (Function.update adds i a j).Owing := by
  obtain ⟨j, owes⟩ := owing
  exact owing_update_of_ne ⟨j, fun same => nothing (same ▸ owes), owes⟩

theorem owing_update_self {adds : Nat → Add} {i : Nat} {a : Add} (owes : a.Owing) :
    ∃ j, (Function.update adds i a j).Owing :=
  ⟨i, by rwa [Function.update_self]⟩

/-- A wakeup signal for the worker leaves the queue covered. -/
theorem Covered.signal {s : State} (inv : Covered s) (drowsy : s.worker.signal.Drowsy)
    (pending : s.queue ≠ []) : ∃ i, (s.adds i).Owing :=
  inv (Worker.drowsy_of_signal drowsy) pending

/-- With `persist_level` 0 every linked entry is followed by a signal, so a
guarded step keeps the queue covered. -/
theorem Covered.step {s s' : State} {e : Event} (inv : Covered s) (heard : Heard s e)
    (fired : step 0 s e = some s') : Covered s' := by
  cases Fires.of_step fired with
  | addDrop => exact inv
  | addCall idle =>
      intro drowsy pending
      exact owing_update (by simp [idle, Add.Owing]) (inv drowsy pending)
  | addLink =>
      intro _ _
      exact owing_update_self trivial
  | addSignals =>
      intro _ _
      exact owing_update_self trivial
  | addQuiet linked early => exact absurd (Nat.mod_one _) early
  | addSignal =>
      intro drowsy pending
      -- the signal is received by a waiting worker, which is then awake
      have awake : s.worker ≠ .waiting := by
        intro asleep
        rw [asleep] at drowsy
        exact Worker.not_drowsy_signal_waiting drowsy
      rw [Worker.signal_of_ne_waiting awake] at drowsy
      exact owing_update_of_ne (heard drowsy awake pending)
  | syncCall => exact inv
  | syncSignal => exact inv.signal
  | syncEnd => exact inv
  | syncPoll => exact inv
  | workerLock top =>
      intro _ pending
      exact inv (by rw [top]; trivial) pending
  | workerHandle =>
      intro drowsy _
      exact drowsy.elim
  | workerPop =>
      intro drowsy _
      exact drowsy.elim
  | workerReturn popping empty =>
      intro _ pending
      exact absurd empty pending
  | workerWrite =>
      intro drowsy _
      exact drowsy.elim
  | workerTestDone returned =>
      intro _ pending
      exact inv (by rw [returned]; trivial) pending
  | stop => exact heard.elim

theorem Covered.noLostWakeup {s : State} (inv : Covered s) : NoLostWakeup s := by
  intro quiet pending
  have awake : s.worker ≠ .waiting := by
    intro asleep
    obtain ⟨i, owes⟩ := inv (by rw [asleep]; trivial) pending
    rw [quiet i] at owes
    exact owes
  exact ⟨awake, fun _ polling => awake polling.2⟩

/-- In every run whose signals are heard, the worker never sleeps on a
non-empty queue once the `bio_queue_add` calls have returned. -/
theorem noLostWakeup_of_heard {s : State} (run : Reach (step 0) Heard init s) :
    NoLostWakeup s :=
  Covered.noLostWakeup (run.invariant (fun _ pending => absurd rfl pending) Covered.step)

theorem nulFree_sampleKey : (0 : UInt8) ∉ [107] := by decide

theorem nulFree_sampleData : (0 : UInt8) ∉ [118] := by decide

/-- A `bio_queue_add` of a string, as `SET` makes it. -/
def sampleEntry : BioQ where
  key := ⟨[107], nulFree_sampleKey⟩
  arg := none
  newdata := some ⟨[118], nulFree_sampleData⟩
  operation := .stringAdd

/-- The worker waits before the entry is queued, and the signal wakes it. -/
def heardRun : List Event :=
  [.workerLock, .addCall 0 sampleEntry, .addLink 0, .addTryWakeup 0, .addSignal 0]

theorem heardRun_reach {s : State} (ran : runEvents (step 0) init heardRun = some s) :
    Reach (step 0) Heard init s := by
  -- a decidable guard that implies `Heard`: the worker is waiting when signalled
  let waits : State → Event → Bool
    | s, .addSignal _ => s.worker = .waiting
    | _, .stop => false
    | _, _ => true
  refine Reach.of_guardedEvents waits ?_ heardRun (by rfl) ran
  intro s e ok
  cases e with
  | addSignal i => exact fun _ awake => absurd (of_decide_eq_true ok) awake
  | stop => cases ok
  | _ => trivial

theorem noLostWakeup_heardRun :
    ∃ s : State, runEvents (step 0) init heardRun = some s ∧
      s.queue = [sampleEntry] ∧ s.worker = .woken ∧ NoLostWakeup s :=
  ⟨_, rfl, rfl, rfl, noLostWakeup_of_heard (heardRun_reach rfl)⟩

/-- A `bio_queue_add` and the signal of a `bio_sync` pass before the worker's
first wait. -/
def lostRun : List Event :=
  [.addCall 0 sampleEntry, .addLink 0, .addTryWakeup 0, .addSignal 0, .syncCall 1,
    .syncSignal 1, .workerLock, .syncPoll 1]

/-- Both signals of this run are lost: `bio_sync` polls a queue that nobody
drains. -/
theorem lostRun_loses_wakeup :
    ∃ s : State, Reachable (step 0) init s ∧ ¬ NoLostWakeup s := by
  refine ⟨_, Reachable.of_runEvents lostRun rfl, ?_⟩
  intro holds
  refine (holds ?_ (by decide)).1 rfl
  intro i
  by_cases first : i = 0
  · subst first
    rfl
  · simp [init, first]

end Bio

end XFireDB
