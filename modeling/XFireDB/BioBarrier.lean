import XFireDB.BioWakeup
import XFireDB.DiskSql

/-!
# `bio_sync` as a barrier

The threads of `BioWakeup` with the table they write and a record of the calls.
`bio_sync` returns when it reads a queue size of 0, and `bio_queue_pop` lowers
the size before `bio_worker` executes the statement of the entry it took.  The
statement is the text that `disk.c` builds; what it does is said by `bioExec`.
-/

namespace XFireDB

open Lib

namespace Bio

/-- A call of `bio_queue_add`.  Calls are numbered when their entry is linked
or dropped. -/
structure Call where
  number : Nat
  op : BioQ
deriving DecidableEq

/-- The state of the threads, the table on disk, and the record: `queued` and
`inHand` are the calls of the queue's entries and of the one the worker holds,
`executed` the calls whose statement was executed, oldest first, and `before i`
the calls that had completed when the `bio_sync` of caller `i` was called.  The
table is `none` once a statement was executed that has not the form of a template. -/
structure Traced where
  core : State
  disk : Option Table
  calls : Nat
  current : Nat → Call
  queued : List Call
  inHand : Option Call
  completed : List Call
  executed : List Call
  before : Nat → List Call

namespace Traced

/-- The call of caller `i` returns. -/
def complete (t : Traced) (i : Nat) : Traced :=
  { t with completed := t.completed ++ [t.current i] }

/-- `bio_queue_add` at a level that persists nothing returns at once. -/
def drop (t : Traced) (q : BioQ) : Traced :=
  { t with calls := t.calls + 1, completed := t.completed ++ [⟨t.calls, q⟩] }

/-- The entry of caller `i` is linked. -/
def link (t : Traced) (i : Nat) (q : BioQ) : Traced :=
  { t with
    calls := t.calls + 1
    current := Function.update t.current i ⟨t.calls, q⟩
    queued := t.queued ++ [⟨t.calls, q⟩] }

/-- The worker takes the oldest entry. -/
def pop (t : Traced) : Traced :=
  { t with queued := t.queued.tail, inHand := t.queued.head? }

/-- The worker executes the statement of the entry it holds. -/
def write (t : Traced) (q : BioQ) : Traced :=
  { t with
    disk := t.disk.bind fun rows => bioExec rows q
    executed := t.executed ++ t.inHand.toList
    inHand := none }

/-- What a step does to the disk and the record, by the state before it. -/
def record (persistLevel : Nat) (t : Traced) : Event → Traced
  | .addCall _ q => if 3 ≤ persistLevel then t.drop q else t
  | .addLink i =>
    match t.core.adds i with
    | .called q => t.link i q
    | _ => t
  | .addTryWakeup i =>
    if (t.core.wakeUpCounter + 1) % (persistLevel + 1) = 0 then t else t.complete i
  | .addSignal i => t.complete i
  | .syncCall i => { t with before := Function.update t.before i t.completed }
  | .workerPop => t.pop
  | .workerWrite =>
    match t.core.worker with
    | .writing q => t.write q
    | _ => t
  | _ => t

/-- One step of one thread, with its effect on the disk. -/
def step (persistLevel : Nat) (t : Traced) (e : Event) : Option Traced :=
  (Bio.step persistLevel t.core e).map fun core => { t.record persistLevel e with core := core }

/-- The start, with the table found on disk. -/
def init (rows : Table) : Traced where
  core := Bio.init
  disk := some rows
  calls := 0
  current := fun _ => ⟨0, Bio.sampleEntry⟩
  queued := []
  inHand := none
  completed := []
  executed := []
  before := fun _ => []

/-- The poll of caller `i` that ends its `bio_sync`. -/
def Returns (persistLevel : Nat) (t : Traced) (i : Nat) (t' : Traced) : Prop :=
  t.core.syncs i = .polling ∧ t.step persistLevel (.syncPoll i) = some t' ∧
    t'.core.syncs i = .idle

/-- Every operation whose `bio_queue_add` completed before the `bio_sync` of
caller `i` was called has been applied to the table on disk: its statement was
executed, and it was the intended one. -/
def Durable (t : Traced) (i : Nat) : Prop :=
  ∀ c ∈ t.before i, c ∈ t.executed ∧ (DiskCall.ofBio c.op).Faithful

/-! ## The invariant -/

/-- The linked calls in the order of their entries. -/
def linkOrder (t : Traced) : List Call := t.executed ++ t.inHand.toList ++ t.queued

end Traced

/-- The entry a worker holds. -/
def Worker.hand : Worker → Option BioQ
  | .writing q => some q
  | _ => none

@[simp] theorem Worker.hand_signal (w : Worker) : w.signal.hand = w.hand := by
  cases w with
  | _ => rfl

namespace Traced

/-- The record describes the threads and the disk. -/
structure Inv (rows : Table) (persistLevel : Nat) (t : Traced) : Prop where
  queue_eq : t.queued.map Call.op = t.core.queue
  hand_eq : t.inHand.map Call.op = t.core.worker.hand
  disk_eq : t.disk = (t.executed.map Call.op).foldlM bioExec rows
  numbered : ∀ c ∈ t.linkOrder, c.number < t.calls
  distinct : (t.linkOrder.map Call.number).Nodup
  owing : ∀ i, (t.core.adds i).Owing → t.current i ∈ t.linkOrder
  linked : persistLevel < 3 → ∀ c ∈ t.completed, c ∈ t.linkOrder
  before_le : ∀ i, t.before i ⊆ t.completed
  off : 3 ≤ persistLevel → t.linkOrder = [] ∧ ∀ i, t.core.adds i = .idle

variable {rows : Table} {persistLevel : Nat} {t t' : Traced}

theorem Inv.init (rows : Table) (persistLevel : Nat) : (init rows).Inv rows persistLevel where
  queue_eq := rfl
  hand_eq := rfl
  disk_eq := rfl
  numbered := by simp [Traced.init, linkOrder]
  distinct := List.nodup_nil
  owing i owes := owes.elim
  linked _ := by simp [Traced.init]
  before_le _ := List.Subset.refl _
  off _ := ⟨rfl, fun _ => rfl⟩

/-- A caller that moves to a state without a debt adds none. -/
theorem owing_of_update {adds : Nat → Add} {i j : Nat} {a : Add} (nothing : ¬ a.Owing)
    (owes : (Function.update adds i a j).Owing) : (adds j).Owing := by
  by_cases same : j = i
  · rw [same, Function.update_self] at owes
    exact absurd owes nothing
  · rwa [Function.update_of_ne same] at owes

/-- A step that moves no entry and completes no call. -/
theorem Inv.frame (inv : t.Inv rows persistLevel) {core : State}
    (queue : core.queue = t.core.queue) (hand : core.worker.hand = t.core.worker.hand)
    (owing : ∀ i, (core.adds i).Owing → (t.core.adds i).Owing)
    (off : 3 ≤ persistLevel → ∀ i, core.adds i = .idle) :
    ({ t with core := core } : Traced).Inv rows persistLevel where
  queue_eq := inv.queue_eq.trans queue.symm
  hand_eq := inv.hand_eq.trans hand.symm
  disk_eq := inv.disk_eq
  numbered := inv.numbered
  distinct := inv.distinct
  owing i owes := inv.owing i (owing i owes)
  linked := inv.linked
  before_le := inv.before_le
  off high := ⟨(inv.off high).1, off high⟩

/-- A step of `bio_sync` or the worker between two lock-protected sections. -/
theorem Inv.frame_adds (inv : t.Inv rows persistLevel) {core : State}
    (queue : core.queue = t.core.queue) (hand : core.worker.hand = t.core.worker.hand)
    (adds : core.adds = t.core.adds) : ({ t with core := core } : Traced).Inv rows persistLevel :=
  inv.frame queue hand (fun _ owes => adds ▸ owes) fun high i =>
    (congrFun adds i).trans ((inv.off high).2 i)

/-- A call that owed its signal returns. -/
theorem Inv.complete (inv : t.Inv rows persistLevel) {i : Nat} (owes : (t.core.adds i).Owing)
    (adds : Nat → Add) (others : ∀ j, (adds j).Owing → (t.core.adds j).Owing) {worker : Worker}
    (hand : worker.hand = t.core.worker.hand) (counter : Nat) :
    ({ t.complete i with
        core := { t.core with adds := adds, worker := worker, wakeUpCounter := counter } } :
      Traced).Inv rows persistLevel where
  queue_eq := inv.queue_eq
  hand_eq := inv.hand_eq.trans hand.symm
  disk_eq := inv.disk_eq
  numbered := inv.numbered
  distinct := inv.distinct
  owing j owes := inv.owing j (others j owes)
  linked low c member := by
    rcases List.mem_append.mp member with old | new
    · exact inv.linked low c old
    · rw [List.mem_singleton.mp new]
      exact inv.owing i owes
  before_le j := List.Subset.trans (inv.before_le j) (List.subset_append_left _ _)
  off high := by
    have idle := (inv.off high).2 i
    rw [idle] at owes
    exact owes.elim

/-- `bio_sync` is called. -/
theorem Inv.snapshot (inv : t.Inv rows persistLevel) (i : Nat) :
    ({ t with before := Function.update t.before i t.completed } : Traced).Inv rows
      persistLevel where
  queue_eq := inv.queue_eq
  hand_eq := inv.hand_eq
  disk_eq := inv.disk_eq
  numbered := inv.numbered
  distinct := inv.distinct
  owing := inv.owing
  linked := inv.linked
  before_le j := by
    by_cases same : j = i
    · simp [same]
    · simpa [Function.update_of_ne same] using inv.before_le j
  off := inv.off

/-- A call that is dropped returns. -/
theorem Inv.drop (inv : t.Inv rows persistLevel) (high : 3 ≤ persistLevel) (q : BioQ) :
    (t.drop q).Inv rows persistLevel where
  queue_eq := inv.queue_eq
  hand_eq := inv.hand_eq
  disk_eq := inv.disk_eq
  numbered c member := Nat.lt_succ_of_lt (inv.numbered c member)
  distinct := inv.distinct
  owing := inv.owing
  linked low := absurd low (by omega)
  before_le j := List.Subset.trans (inv.before_le j) (List.subset_append_left _ _)
  off := inv.off

theorem linkOrder_link (t : Traced) (i : Nat) (q : BioQ) :
    (t.link i q).linkOrder = t.linkOrder ++ [⟨t.calls, q⟩] := by
  simp only [linkOrder, link, List.append_assoc]

/-- A new entry is the youngest. -/
theorem Inv.link (inv : t.Inv rows persistLevel) (low : persistLevel < 3) (i : Nat) (q : BioQ) :
    ({ t.link i q with
        core := { t.core with
          queue := t.core.queue ++ [q]
          adds := Function.update t.core.adds i .linked } } : Traced).Inv rows persistLevel where
  queue_eq := by
    simp only [Traced.link, List.map_append, inv.queue_eq, List.map_cons, List.map_nil]
  hand_eq := inv.hand_eq
  disk_eq := inv.disk_eq
  numbered c member := by
    change c ∈ (t.link i q).linkOrder at member
    rw [linkOrder_link, List.mem_append, List.mem_singleton] at member
    rcases member with old | rfl
    · exact Nat.lt_succ_of_lt (inv.numbered c old)
    · exact Nat.lt_succ_self _
  distinct := by
    change ((t.link i q).linkOrder.map Call.number).Nodup
    rw [linkOrder_link, List.map_append, List.map_cons, List.map_nil, List.nodup_append_comm,
      List.singleton_append, List.nodup_cons]
    refine ⟨?_, inv.distinct⟩
    intro member
    obtain ⟨c, old, same⟩ := List.mem_map.mp member
    have small := inv.numbered c old
    rw [same] at small
    exact Nat.lt_irrefl _ small
  owing j owes := by
    change Function.update t.current i ⟨t.calls, q⟩ j ∈ (t.link i q).linkOrder
    rw [linkOrder_link, List.mem_append]
    by_cases same : j = i
    · rw [same, Function.update_self]
      exact Or.inr List.mem_cons_self
    · replace owes : (Function.update t.core.adds i .linked j).Owing := owes
      rw [Function.update_of_ne same] at owes ⊢
      exact Or.inl (inv.owing j owes)
  linked _ c member := by
    change c ∈ (t.link i q).linkOrder
    rw [linkOrder_link]
    exact List.mem_append_left _ (inv.linked low c member)
  before_le := inv.before_le
  off high := absurd low (by omega)

/-- A step that only moves entries along the order of their calls. -/
theorem Inv.moved (inv : t.Inv rows persistLevel) (order : t'.linkOrder = t.linkOrder)
    (calls : t'.calls = t.calls) (current : t'.current = t.current)
    (completed : t'.completed = t.completed) (before : t'.before = t.before)
    (adds : t'.core.adds = t.core.adds) (queue_eq : t'.queued.map Call.op = t'.core.queue)
    (hand_eq : t'.inHand.map Call.op = t'.core.worker.hand)
    (disk_eq : t'.disk = (t'.executed.map Call.op).foldlM bioExec rows) :
    t'.Inv rows persistLevel where
  queue_eq := queue_eq
  hand_eq := hand_eq
  disk_eq := disk_eq
  numbered := by rw [order, calls]; exact inv.numbered
  distinct := by rw [order]; exact inv.distinct
  owing := by rw [order, current, adds]; exact inv.owing
  linked := by rw [order, completed]; exact inv.linked
  before_le := by rw [before, completed]; exact inv.before_le
  off := by rw [order, adds]; exact inv.off

/-- A worker that takes an entry, or finds none. -/
theorem Inv.pop (inv : t.Inv rows persistLevel) (free : t.core.worker.hand = none)
    (worker : Worker) (hand : worker.hand = t.core.queue.head?) :
    ({ t.pop with core := { t.core with queue := t.core.queue.tail, worker := worker } } :
      Traced).Inv rows persistLevel := by
  have empty : t.inHand = none := by
    have := inv.hand_eq
    rwa [free, Option.map_eq_none_iff] at this
  refine inv.moved ?_ rfl rfl rfl rfl rfl ?_ ?_ inv.disk_eq
  · simp only [linkOrder, Traced.pop, empty, Option.toList_none, List.append_nil]
    cases t.queued with
    | nil => simp
    | cons c rest => simp
  · simp only [Traced.pop, List.map_tail, inv.queue_eq]
  · simp only [Traced.pop, hand, ← inv.queue_eq, List.head?_map]

/-- A worker that executes the statement of its entry. -/
theorem Inv.write (inv : t.Inv rows persistLevel) {q : BioQ}
    (writing : t.core.worker = .writing q) {worker : Worker} (hand : worker.hand = none) :
    ({ t.write q with core := { t.core with worker := worker } } : Traced).Inv rows
      persistLevel := by
  obtain ⟨c, held, op⟩ : ∃ c, t.inHand = some c ∧ c.op = q := by
    have := inv.hand_eq
    rwa [writing, Worker.hand, Option.map_eq_some_iff] at this
  refine inv.moved ?_ rfl rfl rfl rfl rfl inv.queue_eq hand.symm ?_
  · simp only [linkOrder, Traced.write, held, Option.toList_some, Option.toList_none,
      List.append_nil]
  · simp only [Traced.write, held, Option.toList_some, List.map_append, List.map_cons, List.map_nil,
      op, List.foldlM_append, List.foldlM_cons, List.foldlM_nil, inv.disk_eq]
    simp

/-- Every step keeps the invariant. -/
theorem Inv.step (inv : t.Inv rows persistLevel) {e : Event}
    (fired : t.step persistLevel e = some t') : t'.Inv rows persistLevel := by
  obtain ⟨core, moved, rfl⟩ := Option.map_eq_some_iff.mp fired
  cases Bio.Fires.of_step moved with
  | addDrop idle high =>
      rw [record, if_pos high]
      exact inv.drop high _
  | addCall idle low =>
      rw [record, if_neg low]
      exact inv.frame rfl rfl (fun _ owes => owing_of_update (a := .called _) id owes)
        fun high => absurd high low
  | addLink called =>
      rename_i i q
      simp only [record, called]
      apply inv.link
      by_contra high
      have idle := (inv.off (by omega)).2 i
      rw [called] at idle
      cases idle
  | addSignals linked due =>
      rename_i i
      have owes : (t.core.adds i).Owing := by rw [linked]; trivial
      rw [record, if_pos due]
      refine inv.frame rfl rfl ?_ ?_
      · intro j owes'
        by_cases same : j = i
        · rwa [same]
        · replace owes' : (Function.update t.core.adds i .signalling j).Owing := owes'
          rwa [Function.update_of_ne same] at owes'
      · intro high
        rw [(inv.off high).2 i] at owes
        exact owes.elim
  | addQuiet linked early =>
      rw [record, if_neg early]
      exact inv.complete (by rw [linked]; trivial) _
        (fun _ owes => owing_of_update (a := .idle) id owes) rfl _
  | addSignal signalling =>
      exact inv.complete (by rw [signalling]; trivial) _
        (fun _ owes => owing_of_update (a := .idle) id owes) (Worker.hand_signal _) _
  | syncCall => exact (inv.snapshot _).frame_adds rfl rfl rfl
  | syncSignal => exact inv.frame_adds rfl (Worker.hand_signal _) rfl
  | syncEnd => exact inv.frame_adds rfl rfl rfl
  | syncPoll => exact inv.frame_adds rfl rfl rfl
  | workerLock top =>
      refine inv.frame_adds rfl ?_ rfl
      rw [top]
      split <;> rfl
  | workerHandle woken => exact inv.frame_adds rfl (by rw [woken]; rfl) rfl
  | workerPop popping queue =>
      have free : t.core.worker.hand = none := by rw [popping]; rfl
      have popped := inv.pop free (.writing _) (by rw [queue]; rfl)
      rwa [queue] at popped
  | workerReturn popping empty =>
      have free : t.core.worker.hand = none := by rw [popping]; rfl
      have popped := inv.pop free .returned (by rw [empty]; rfl)
      rwa [empty, List.tail_nil, ← empty] at popped
  | workerWrite writing =>
      simp only [record, writing]
      exact inv.write writing rfl
  | workerTestDone returned =>
      refine inv.frame_adds rfl ?_ rfl
      rw [returned]
      split <;> rfl
  | stop => exact inv.frame_adds rfl (Worker.hand_signal _) rfl

/-! ## The barrier -/

/-- The number tells the call in hand from those whose statement was executed. -/
theorem Inv.hand_not_executed (inv : t.Inv rows persistLevel) {c : Call}
    (held : t.inHand = some c) : c ∉ t.executed := by
  intro member
  have distinct := inv.distinct
  rw [linkOrder, held, Option.toList_some, List.append_assoc, List.map_append,
    List.nodup_append] at distinct
  exact distinct.2.2 c.number (List.mem_map_of_mem member) c.number (by simp) rfl

/-- With an empty queue, the statements of the calls before a `bio_sync` were executed
unless the worker holds one of them or nothing is persisted at all. -/
theorem Inv.executed_iff (inv : t.Inv rows persistLevel) (drained : t.core.queue = []) (i : Nat) :
    (∀ c ∈ t.before i, c ∈ t.executed) ↔
      (3 ≤ persistLevel → t.before i = []) ∧ ∀ c, t.inHand = some c → c ∉ t.before i := by
  have queued : t.queued = [] := by
    have := inv.queue_eq
    rwa [drained, List.map_eq_nil_iff] at this
  constructor
  · intro executed
    constructor
    · intro high
      have none_linked := (inv.off high).1
      rw [linkOrder, List.append_assoc, List.append_eq_nil_iff] at none_linked
      rw [List.eq_nil_iff_forall_not_mem]
      intro c member
      have done := executed c member
      rw [none_linked.1] at done
      cases done
    · intro c held member
      exact inv.hand_not_executed held (executed c member)
  · intro found c member
    obtain ⟨off, clear⟩ := found
    rcases Nat.lt_or_ge persistLevel 3 with low | high
    · have linked := inv.linked low c (inv.before_le i member)
      rw [linkOrder, queued, List.append_nil, List.mem_append] at linked
      rcases linked with done | held
      · exact done
      · exact absurd member (clear c (Option.mem_toList.mp held))
    · rw [off high] at member
      cases member

/-- In every run, a `bio_sync` that returns has been a barrier exactly if the
worker does not hold an entry whose call completed before it, calls are not
dropped, and the strings of those calls have no quote and fit into a statement.
The table on disk is made by the executed statements, and if all of them are the
intended ones it is the one that their operations make. -/
theorem durable_iff_hand_clear {i : Nat} (run : Reachable (step persistLevel) (init rows) t)
    (returns : t.Returns persistLevel i t') :
    t'.disk = (t'.executed.map Call.op).foldlM bioExec rows ∧
      ((∀ c ∈ t'.executed, c.op.Storable) →
        t'.disk = some (bioWorker rows (t'.executed.map Call.op))) ∧
      (t'.Durable i ↔
        ((3 ≤ persistLevel → t.before i = []) ∧ ∀ c, t.inHand = some c → c ∉ t.before i) ∧
          ∀ c ∈ t.before i, c.op.Storable) := by
  have inv : t.Inv rows persistLevel :=
    run.invariant (Inv.init rows persistLevel) fun inv _ fired => inv.step fired
  obtain ⟨polling, fired, idle⟩ := returns
  have disk_eq := (inv.step fired).disk_eq
  refine ⟨disk_eq, ?_, ?_⟩
  · intro storable
    rw [disk_eq]
    apply foldlM_bioExec
    intro q member
    obtain ⟨c, done, rfl⟩ := List.mem_map.mp member
    exact storable c done
  · obtain ⟨core, moved, rfl⟩ := Option.map_eq_some_iff.mp fired
    simp only [Bio.step, polling] at moved
    split at moved
    · rename_i drained
      obtain rfl := Option.some.inj moved
      rw [← inv.executed_iff (List.length_eq_zero_iff.mp drained) i, ← forall₂_and]
      refine forall₂_congr fun c member => and_congr_right fun _ => ⟨DiskCall.Faithful.fits _, ?_⟩
      intro storable
      exact DiskCall.faithful_of_fits _ storable.1 storable.2
    · obtain rfl := Option.some.inj moved
      rw [polling] at idle
      cases idle

/-- A `bio_queue_add` that wakes the worker, up to the pop of its entry, and a
`bio_sync` that is about to poll. -/
def popRun : List Event :=
  [.workerLock, .addCall 0 sampleEntry, .addLink 0, .addTryWakeup 0, .addSignal 0, .syncCall 0,
    .syncSignal 0, .workerHandle, .workerPop]

theorem storable_sampleEntry : sampleEntry.Storable := by
  refine ⟨by decide, ?_⟩
  simp [DiskCall.Fits, DiskCall.ofBio, sampleEntry, DiskCall.query, DiskCall.args,
    DiskQuery.text, lit, sqliteMaxSqlLength, CStr.toR, printed]

/-- The worker writes the entry before the poll. -/
theorem durable_after_write :
    ∃ t t' : Traced, runEvents (step 0) (init []) (popRun ++ [.workerWrite]) = some t ∧
      t.Returns 0 0 t' ∧ t.before 0 = [⟨0, sampleEntry⟩] ∧
      t'.disk = some (bioWorker [] [sampleEntry]) ∧ t'.Durable 0 := by
  obtain ⟨t, t', ran, returns, before, executed, hand⟩ : ∃ t t' : Traced,
      runEvents (step 0) (init []) (popRun ++ [.workerWrite]) = some t ∧ t.Returns 0 0 t' ∧
        t.before 0 = [⟨0, sampleEntry⟩] ∧ t'.executed = [⟨0, sampleEntry⟩] ∧ t.inHand = none :=
    ⟨_, _, rfl, ⟨rfl, rfl, rfl⟩, rfl, rfl, rfl⟩
  obtain ⟨_, disk_eq, durable⟩ :=
    durable_iff_hand_clear (Reachable.of_runEvents (popRun ++ [.workerWrite]) ran) returns
  have storable : ∀ c ∈ [(⟨0, sampleEntry⟩ : Call)], c.op.Storable := by
    intro c member
    rw [List.mem_singleton.mp member]
    exact storable_sampleEntry
  rw [executed] at disk_eq
  rw [before, hand] at durable
  refine ⟨t, t', ran, returns, before, disk_eq storable, durable.mpr ⟨⟨by decide, ?_⟩, storable⟩⟩
  intro c held
  cases held

/-- The poll comes between the pop and the write: `bio_sync` returns and the
operation is not on disk. -/
theorem sync_returns_before_write :
    ∃ t t' : Traced, Reachable (step 0) (init []) t ∧ t.Returns 0 0 t' ∧ t'.disk = some [] ∧
      ¬ t'.Durable 0 := by
  refine ⟨_, _, Reachable.of_runEvents popRun rfl, ⟨rfl, rfl, rfl⟩, rfl, ?_⟩
  intro durable
  have executed := (durable ⟨0, sampleEntry⟩ (by decide)).1
  cases executed

end Traced

end Bio

end XFireDB
