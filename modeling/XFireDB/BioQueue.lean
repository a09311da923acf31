import XFireDB.Lib.Trail
import XFireDB.Lib.Runs
import XFireDB.Disk

/-!
# The linked queue of the persistence worker

`struct bio_q_head` and its entries in memory.  `bio_queue_add` links an entry
at `next`, `bio_queue_pop` takes the one at `tail`; from an entry `next` leads
to the older neighbour and `prev` to the newer one.  One step is the section
that a call executes under the queue lock.

`none` as a pointer is null.  A step without a result reads or writes through a
null or dangling pointer; the allocator may give out freed addresses again.
-/

namespace XFireDB

open Lib

namespace BioQueue

abbrev Addr : Type := Nat

/-- A `struct bio_q`. -/
structure Cell where
  next : Option Addr
  prev : Option Addr
  entry : BioQ

/-- The `struct bio_q_head` and the memory of the entries. -/
structure Queue where
  next : Option Addr
  tail : Option Addr
  size : Int
  heap : Addr → Option Cell

namespace Queue

/-- A write to the entry at an address. -/
def write (s : Queue) (a : Addr) (f : Cell → Cell) : Option Queue :=
  (s.heap a).map fun c => { s with heap := Function.update s.heap a (some (f c)) }

/-- `bio_init`. -/
def bioInit : Queue := ⟨none, none, 0, fun _ => none⟩

/-- `bio_queue_add`; `a` is what `xfiredb_zalloc` returns. -/
def bioQueueAdd (persistLevel : Nat) (s : Queue) (a : Addr) (q : BioQ) : Option Queue :=
  if 3 ≤ persistLevel then some s
  else if (s.heap a).isSome then none
  else
    let s := { s with heap := Function.update s.heap a (some ⟨none, none, q⟩), size := s.size + 1 }
    match s.next with
    | some b => do
      let s ← s.write a fun c => { c with next := some b }
      let s ← s.write b fun c => { c with prev := some a }
      some { s with next := some a }
    | none => some { s with next := some a, tail := some a }

/-- `bio_queue_pop`. -/
def bioQueuePop (s : Queue) : Option (Queue × Option Addr) :=
  match s.tail with
  | none => some (s, none)
  | some tail => do
    let c ← s.heap tail
    let s := { s with tail := c.prev }
    let s ← match c.prev with
      | some prev => s.write prev fun c => { c with next := none }
      | none => some { s with next := none }
    let s ← s.write tail fun c => { c with next := none, prev := none }
    some ({ s with size := s.size - 1 }, some tail)

def nextOf (s : Queue) (a : Addr) : Option Addr := (s.heap a).bind Cell.next

def prevOf (s : Queue) (a : Addr) : Option Addr := (s.heap a).bind Cell.prev

def entryOf (s : Queue) (a : Addr) : Option BioQ := (s.heap a).map Cell.entry

/-- The queue holds the entries `qs`, oldest first, at the addresses `as`: `prev`
leads through them from `tail`, `next` backwards from the head. -/
structure Represents (s : Queue) (as : List Addr) (qs : List BioQ) : Prop where
  distinct : as.Nodup
  entries : as.map s.entryOf = qs.map some
  fromTail : Trail s.prevOf s.tail as
  fromHead : Trail s.nextOf s.next as.reverse
  size : s.size = qs.length

variable {s s' : Queue} {as : List Addr} {qs : List BioQ} {a : Addr} {q : BioQ}

theorem represents_bioInit : bioInit.Represents [] [] :=
  ⟨List.nodup_nil, rfl, rfl, rfl, rfl⟩

theorem Represents.length_eq (rep : s.Represents as qs) : as.length = qs.length := by
  simpa using congrArg List.length rep.entries

/-- The entries of the queue are allocated. -/
theorem Represents.allocated (rep : s.Represents as qs) (member : a ∈ as) :
    ∃ c, s.heap a = some c := by
  have listed : s.entryOf a ∈ qs.map some := by
    rw [← rep.entries]
    exact List.mem_map_of_mem member
  obtain ⟨q, _, entry⟩ := List.mem_map.mp listed
  obtain ⟨c, here, _⟩ := Option.map_eq_some_iff.mp entry.symm
  exact ⟨c, here⟩

/-- Both ends are null together. -/
theorem Represents.ends (rep : s.Represents as qs) : s.next = none ↔ s.tail = none := by
  rw [rep.fromHead.start_eq, rep.fromTail.start_eq, List.head?_eq_none_iff, List.head?_eq_none_iff,
    List.reverse_eq_nil_iff]

/-- A cell outside the queue does not matter. -/
theorem Represents.frame (rep : s.Represents as qs) (outside : a ∉ as) (c : Option Cell) :
    Represents { s with heap := Function.update s.heap a c } as qs := by
  have same : ∀ b ∈ as, Function.update s.heap a c b = s.heap b := by
    intro b member
    refine Function.update_of_ne ?_ _ _
    intro same
    obtain rfl := same
    exact outside member
  refine ⟨rep.distinct, ?_, ?_, ?_, rep.size⟩
  · rw [← rep.entries]
    apply List.map_congr_left
    intro b member
    simp only [entryOf, same b member]
  · refine rep.fromTail.congr ?_
    intro b member
    simp only [prevOf, same b member]
  · refine rep.fromHead.congr ?_
    intro b member
    simp only [nextOf, same b (List.mem_reverse.mp member)]

/-! ## Adding an entry -/

theorem write_eq {c : Cell} (here : s.heap a = some c) (f : Cell → Cell) :
    s.write a f = some { s with heap := Function.update s.heap a (some (f c)) } := by
  rw [write, here, Option.map_some]

theorem bioQueueAdd_first {persistLevel : Nat} (level : persistLevel < 3)
    (fresh : s.heap a = none) (empty : s.next = none) :
    bioQueueAdd persistLevel s a q = some ⟨some a, some a, s.size + 1,
      Function.update s.heap a (some ⟨none, none, q⟩)⟩ := by
  unfold bioQueueAdd
  rw [if_neg (Nat.not_le.mpr level), fresh]
  simp only [Option.isSome_none, Bool.false_eq_true, if_false, empty]

/-- The queue after an entry at `a` was linked before the newest one, at `b`. -/
def linked (s : Queue) (a b : Addr) (c : Cell) (q : BioQ) : Queue where
  next := some a
  tail := s.tail
  size := s.size + 1
  heap := Function.update (Function.update s.heap a (some ⟨some b, none, q⟩)) b
    (some { c with prev := some a })

section Linked

variable {b z : Addr} {c : Cell}

theorem entryOf_linked (here : s.heap b = some c) (apart : b ≠ a) :
    (s.linked a b c q).entryOf z = if z = a then some q else s.entryOf z := by
  unfold linked entryOf
  by_cases last : z = b
  · subst last
    simp [here, apart]
  · by_cases new : z = a
    · simp [new, apart.symm]
    · simp [new, last]

theorem prevOf_linked (apart : b ≠ a) : (s.linked a b c q).prevOf z =
    if z = a then none else if z = b then some a else s.prevOf z := by
  unfold linked prevOf
  by_cases last : z = b
  · simp [last, apart]
  · by_cases new : z = a
    · simp [new, apart.symm]
    · simp [new, last]

theorem nextOf_linked (here : s.heap b = some c) (apart : b ≠ a) :
    (s.linked a b c q).nextOf z = if z = a then some b else s.nextOf z := by
  unfold linked nextOf
  by_cases last : z = b
  · subst last
    simp [here, apart]
  · by_cases new : z = a
    · simp [new, apart.symm]
    · simp [new, last]

theorem isSome_linked (here : s.heap b = some c) (other : z ≠ a) :
    ((s.linked a b c q).heap z).isSome = (s.heap z).isSome := by
  unfold linked
  by_cases last : z = b
  · subst last
    simp [here]
  · simp [last, other]

theorem bioQueueAdd_linked {persistLevel : Nat} (level : persistLevel < 3)
    (fresh : s.heap a = none) (newest : s.next = some b) (here : s.heap b = some c) :
    bioQueueAdd persistLevel s a q = some (s.linked a b c q) := by
  have other : b ≠ a := by
    intro same
    obtain rfl := same
    rw [here] at fresh
    cases fresh
  unfold bioQueueAdd
  rw [if_neg (Nat.not_le.mpr level), fresh]
  simp only [Option.isSome_none, Bool.false_eq_true, if_false, newest]
  rw [write_eq (c := ⟨none, none, q⟩) (Function.update_self ..)]
  simp only [Option.bind_eq_bind, Option.bind_some, Function.update_idem]
  rw [write_eq (c := c) ((Function.update_of_ne other ..).trans here)]
  rfl

end Linked

theorem Represents.fresh (rep : s.Represents as qs) (fresh : s.heap a = none) : a ∉ as := by
  intro member
  obtain ⟨c, here⟩ := rep.allocated member
  rw [here] at fresh
  cases fresh

/-- `bio_queue_add` appends the entry, for every length of the queue. -/
theorem bioQueueAdd_spec {persistLevel : Nat} (level : persistLevel < 3)
    (rep : s.Represents as qs) (fresh : s.heap a = none) (q : BioQ) :
    ∃ s', bioQueueAdd persistLevel s a q = some s' ∧ s'.Represents (as ++ [a]) (qs ++ [q]) ∧
      ∀ z, z ≠ a → (s'.heap z).isSome = (s.heap z).isSome := by
  have outside := rep.fresh fresh
  have distinct : (as ++ [a]).Nodup := by
    rw [← List.concat_eq_append]
    exact rep.distinct.concat outside
  have count : s.size + 1 = ((qs ++ [q]).length : Int) := by
    rw [rep.size, List.length_append, List.length_singleton]
    push_cast
    rfl
  rcases List.eq_nil_or_concat as with rfl | ⟨older, b, rfl⟩
  · -- an empty queue: both ends are the new entry
    obtain rfl : qs = [] := List.length_eq_zero_iff.mp rep.length_eq.symm
    refine ⟨_, bioQueueAdd_first level fresh rep.fromHead, ⟨distinct, ?_, ?_, ?_, count⟩, ?_⟩
    · simp [entryOf]
    · simp [Trail, prevOf]
    · simp [Trail, nextOf]
    · intro z other
      simp [Function.update_of_ne other]
  · have newestMember : b ∈ older ++ [b] := List.mem_append_right older List.mem_cons_self
    rw [List.concat_eq_append] at *
    obtain ⟨c, here⟩ := rep.allocated newestMember
    have newest : s.next = some b := by
      simpa using rep.fromHead.start_eq
    have apart : b ≠ a := by
      intro same
      obtain rfl := same
      exact outside newestMember
    have isOld : ∀ z ∈ older ++ [b], z ≠ a := by
      intro z member same
      obtain rfl := same
      exact outside member
    refine ⟨_, bioQueueAdd_linked level fresh newest here, ⟨distinct, ?_, ?_, ?_, count⟩, ?_⟩
    · rw [List.map_append, @List.map_append _ _ _ qs, ← rep.entries]
      congr 1
      · apply List.map_congr_left
        intro z member
        rw [entryOf_linked here apart, if_neg (isOld z member)]
      · simp [entryOf_linked here apart]
    · rw [List.append_assoc]
      refine rep.fromTail.hang ?_ ?_ ?_
      · intro z member
        have notLast : z ≠ b := by
          intro same
          obtain rfl := same
          exact (List.nodup_append.mp rep.distinct).2.2 z member z List.mem_cons_self rfl
        rw [prevOf_linked apart, if_neg (isOld z (List.mem_append_left _ member)), if_neg notLast]
      · rw [prevOf_linked apart, if_neg apart, if_pos rfl]
      · rw [prevOf_linked apart, if_pos rfl]
    · rw [List.reverse_append, List.reverse_singleton, List.singleton_append]
      refine ⟨rfl, ?_⟩
      rw [nextOf_linked here apart, if_pos rfl, ← newest]
      refine rep.fromHead.congr ?_
      intro z member
      rw [nextOf_linked here apart, if_neg (isOld z (List.mem_reverse.mp member))]
    · intro z other
      exact isSome_linked here other

/-! ## Taking the oldest entry -/

theorem bioQueuePop_empty (empty : s.tail = none) : bioQueuePop s = some (s, none) := by
  rw [bioQueuePop, empty]

/-- The queue after its only entry, at `a`, was taken. -/
def emptied (s : Queue) (a : Addr) (c : Cell) : Queue where
  next := none
  tail := none
  size := s.size - 1
  heap := Function.update s.heap a (some ⟨none, none, c.entry⟩)

/-- The queue after the oldest entry, at `a`, was cut from the next one, at `b`. -/
def unlinked (s : Queue) (a b : Addr) (c d : Cell) : Queue where
  next := s.next
  tail := some b
  size := s.size - 1
  heap := Function.update (Function.update s.heap b (some { d with next := none })) a
    (some ⟨none, none, c.entry⟩)

section Unlinked

variable {b z : Addr} {c d : Cell}

theorem bioQueuePop_last (oldest : s.tail = some a) (here : s.heap a = some c)
    (alone : c.prev = none) : bioQueuePop s = some (s.emptied a c, some a) := by
  unfold bioQueuePop
  simp only [oldest, here, alone, Option.bind_eq_bind, Option.bind_some]
  rw [write_eq (s := ⟨none, none, s.size, s.heap⟩) here]
  rfl

theorem bioQueuePop_unlinked (oldest : s.tail = some a) (here : s.heap a = some c)
    (newer : c.prev = some b) (there : s.heap b = some d) (apart : a ≠ b) :
    bioQueuePop s = some (s.unlinked a b c d, some a) := by
  unfold bioQueuePop
  simp only [oldest, here, newer, Option.bind_eq_bind, Option.bind_some]
  rw [write_eq (s := ⟨s.next, some b, s.size, s.heap⟩) there]
  simp only [Option.bind_some]
  rw [write_eq (c := c) ((Function.update_of_ne apart ..).trans here)]
  rfl

theorem entryOf_unlinked (here : s.heap a = some c) (there : s.heap b = some d) :
    (s.unlinked a b c d).entryOf z = s.entryOf z := by
  unfold unlinked entryOf
  by_cases oldest : z = a
  · subst oldest
    simp [here]
  · by_cases newer : z = b
    · subst newer
      simp [there, oldest]
    · simp [oldest, newer]

theorem prevOf_unlinked (there : s.heap b = some d) (other : z ≠ a) :
    (s.unlinked a b c d).prevOf z = s.prevOf z := by
  unfold unlinked prevOf
  by_cases newer : z = b
  · subst newer
    simp [there, other]
  · simp [other, newer]

theorem nextOf_unlinked (other : z ≠ a) :
    (s.unlinked a b c d).nextOf z = if z = b then none else s.nextOf z := by
  unfold unlinked nextOf
  by_cases newer : z = b
  · subst newer
    simp [other]
  · simp [other, newer]

theorem isSome_unlinked (here : s.heap a = some c) (there : s.heap b = some d) :
    ((s.unlinked a b c d).heap z).isSome = (s.heap z).isSome := by
  have same := congrArg Option.isSome (entryOf_unlinked (z := z) here there)
  simpa only [entryOf, Option.isSome_map] using same

end Unlinked

/-- `bio_queue_pop` on a queue that holds entries takes the oldest. -/
theorem bioQueuePop_spec (rep : s.Represents (a :: as) (q :: qs)) :
    ∃ s', bioQueuePop s = some (s', some a) ∧ s'.Represents as qs ∧ s'.entryOf a = some q ∧
      ∀ z, (s'.heap z).isSome = (s.heap z).isSome := by
  obtain ⟨c, here⟩ := rep.allocated List.mem_cons_self
  obtain ⟨oldest, rest⟩ := rep.fromTail
  obtain ⟨outside, distinct⟩ := List.nodup_cons.mp rep.distinct
  have entries := rep.entries
  rw [List.map_cons, List.map_cons, List.cons_eq_cons] at entries
  have newer : s.prevOf a = c.prev := by
    rw [prevOf, here, Option.bind_some]
  have count : s.size - 1 = (qs.length : Int) := by
    rw [rep.size, List.length_cons]
    push_cast
    omega
  cases as with
  | nil =>
      obtain rfl : qs = [] := by simpa using entries.2.symm
      have alone : c.prev = none := newer.symm.trans rest
      refine ⟨_, bioQueuePop_last oldest here alone, ⟨distinct, rfl, rfl, rfl, count⟩, ?_, ?_⟩
      · rw [← entries.1]
        simp [emptied, entryOf, here]
      · intro z
        unfold emptied
        by_cases last : z = a
        · subst last
          simp [here]
        · simp [last]
  | cons b younger =>
      obtain ⟨d, there⟩ := rep.allocated (List.mem_cons_of_mem a List.mem_cons_self)
      have apart : a ≠ b := by
        intro same
        obtain rfl := same
        exact outside List.mem_cons_self
      have other : ∀ z ∈ b :: younger, z ≠ a := by
        intro z member same
        obtain rfl := same
        exact outside member
      refine ⟨_, bioQueuePop_unlinked oldest here (newer.symm.trans rest.1) there apart,
        ⟨distinct, ?_, ?_, ?_, count⟩, ?_, ?_⟩
      · rw [← entries.2]
        apply List.map_congr_left
        intro z member
        exact entryOf_unlinked here there
      · rw [rest.1] at rest
        refine rest.congr ?_
        intro z member
        exact prevOf_unlinked there (other z member)
      · have whole := rep.fromHead
        rw [List.reverse_cons, List.reverse_cons, List.append_assoc] at whole
        rw [List.reverse_cons]
        refine whole.cut ?_ ?_
        · intro z member
          have young := List.mem_reverse.mp member
          have notNext : z ≠ b := by
            intro same
            obtain rfl := same
            exact (List.nodup_cons.mp distinct).1 young
          rw [nextOf_unlinked (other z (List.mem_cons_of_mem b young)), if_neg notNext]
        · rw [nextOf_unlinked apart.symm, if_pos rfl]
      · rw [← entries.1]
        exact entryOf_unlinked here there
      · intro z
        exact isSome_unlinked here there

end Queue

/-! ## Runs -/

/-- The queue, the log of the entries added and popped so far, and the popped
entries that the worker has not freed yet. -/
structure Trace where
  queue : Queue
  added : List BioQ
  popped : List BioQ
  held : List Addr

/-- A locked section of `bio_queue_add` or `bio_queue_pop`, or the worker's
`xfiredb_free` of an entry it popped. -/
inductive Event
  | add (a : Addr) (q : BioQ)
  | pop
  | free (a : Addr)

namespace Trace

def start : Trace := ⟨Queue.bioInit, [], [], []⟩

/-- An event; an addition gets its memory from the allocator. -/
def step (persistLevel : Nat) (t : Trace) : Event → Option Trace
  | .add a q => do
    let s ← t.queue.bioQueueAdd persistLevel a q
    some { t with queue := s, added := t.added ++ [q] }
  | .pop => do
    let (s, popped) ← t.queue.bioQueuePop
    match popped with
    | none => some { t with queue := s }
    | some a =>
      let q ← s.entryOf a
      some { t with queue := s, popped := t.popped ++ [q], held := a :: t.held }
  | .free a =>
    if a ∈ t.held then
      some { t with
        queue := { t.queue with heap := Function.update t.queue.heap a none }
        held := t.held.filter (· ≠ a) }
    else none

/-- What is queued is what was added and not yet popped. -/
structure Sound (t : Trace) (as : List Addr) (qs : List BioQ) : Prop where
  queue : t.queue.Represents as qs
  fifo : t.added = t.popped ++ qs
  held : ∀ a ∈ t.held, a ∉ as ∧ (t.queue.heap a).isSome

theorem sound_start : start.Sound [] [] :=
  ⟨Queue.represents_bioInit, rfl, fun _ member => by cases member⟩

variable {persistLevel : Nat} {t t' : Trace} {as : List Addr} {qs : List BioQ}

/-- An addition is refused only at an address that is in use. -/
theorem Sound.add (sound : t.Sound as qs) (level : persistLevel < 3) {a : Addr}
    (fresh : t.queue.heap a = none) (q : BioQ) :
    ∃ t', t.step persistLevel (.add a q) = some t' ∧ t'.Sound (as ++ [a]) (qs ++ [q]) ∧
      t'.added = t.added ++ [q] ∧ t'.popped = t.popped := by
  obtain ⟨s, added, rep, kept⟩ := Queue.bioQueueAdd_spec level sound.queue fresh q
  refine ⟨{ t with queue := s, added := t.added ++ [q] }, ?_, ⟨rep, ?_, ?_⟩, rfl, rfl⟩
  · rw [step, added]
    rfl
  · rw [sound.fifo, List.append_assoc]
  · intro b member
    obtain ⟨outside, allocated⟩ := sound.held b member
    have other : b ≠ a := by
      intro same
      obtain rfl := same
      rw [fresh] at allocated
      cases allocated
    refine ⟨?_, ?_⟩
    · rw [List.mem_append, List.mem_singleton]
      intro either
      rcases either with old | new
      · exact outside old
      · exact other new
    · rw [kept b other]
      exact allocated

theorem step_add_used (level : persistLevel < 3) {a : Addr}
    (used : (t.queue.heap a).isSome) (q : BioQ) : t.step persistLevel (.add a q) = none := by
  rw [step, Queue.bioQueueAdd, if_neg (Nat.not_le.mpr level), if_pos used]
  rfl

/-- A pop takes the oldest entry, if there is one. -/
theorem Sound.pop (sound : t.Sound as qs) :
    ∃ t', t.step persistLevel .pop = some t' ∧ t'.Sound as.tail qs.tail ∧
      t'.added = t.added ∧ t'.popped = t.popped ++ qs.head?.toList := by
  have lengths := sound.queue.length_eq
  cases qs with
  | nil =>
      obtain rfl : as = [] := List.length_eq_zero_iff.mp lengths
      have empty : t.queue.tail = none := sound.queue.fromTail
      refine ⟨t, ?_, sound, rfl, (List.append_nil _).symm⟩
      rw [step, Queue.bioQueuePop_empty empty]
      rfl
  | cons q qs =>
      cases as with
      | nil => cases lengths
      | cons a as =>
          obtain ⟨s, popped, rep, entry, kept⟩ := Queue.bioQueuePop_spec sound.queue
          refine ⟨{ t with queue := s, popped := t.popped ++ [q], held := a :: t.held },
            ?_, ⟨rep, ?_, ?_⟩, rfl, rfl⟩
          · rw [step, popped]
            simp only [Option.bind_eq_bind, Option.bind_some, entry]
          · rw [sound.fifo, List.append_assoc]
            rfl
          · intro b member
            rw [kept b]
            rcases List.mem_cons.mp member with rfl | member
            · obtain ⟨c, here⟩ := sound.queue.allocated List.mem_cons_self
              refine ⟨(List.nodup_cons.mp sound.queue.distinct).1, ?_⟩
              rw [here]
              rfl
            · obtain ⟨outside, allocated⟩ := sound.held b member
              exact ⟨fun inside => outside (List.mem_cons_of_mem a inside), allocated⟩

/-- Freeing a popped entry does not touch the queue. -/
theorem Sound.free (sound : t.Sound as qs) {a : Addr}
    (fired : t.step persistLevel (.free a) = some t') :
    t'.Sound as qs := by
  rw [Trace.step] at fired
  by_cases member : a ∈ t.held
  · rw [if_pos member] at fired
    obtain rfl := Option.some.inj fired
    refine ⟨sound.queue.frame (sound.held a member).1 none, sound.fifo, ?_⟩
    intro b kept
    obtain ⟨held, other⟩ := List.mem_filter.mp kept
    have apart : b ≠ a := by simpa using other
    obtain ⟨outside, allocated⟩ := sound.held b held
    refine ⟨outside, ?_⟩
    show (Function.update t.queue.heap a none b).isSome = true
    rw [Function.update_of_ne apart]
    exact allocated
  · rw [if_neg member] at fired
    cases fired

theorem Sound.step (level : persistLevel < 3) {e : Event} (sound : ∃ as qs, t.Sound as qs)
    (fired : t.step persistLevel e = some t') : ∃ as qs, t'.Sound as qs := by
  obtain ⟨as, qs, sound⟩ := sound
  cases e with
  | add a q =>
      cases used : t.queue.heap a with
      | none =>
          obtain ⟨t'', added, sound', _⟩ := sound.add level used q
          rw [added] at fired
          obtain rfl := Option.some.inj fired
          exact ⟨_, _, sound'⟩
      | some c =>
          rw [step_add_used level (by rw [used]; rfl)] at fired
          cases fired
  | pop =>
      obtain ⟨t'', popped, sound', _⟩ := sound.pop
      rw [popped] at fired
      obtain rfl := Option.some.inj fired
      exact ⟨_, _, sound'⟩
  | free a => exact ⟨_, _, sound.free fired⟩

/-- The queued entries are `qs`, oldest first, at the addresses `as`. -/
structure FirstInFirstOut (persistLevel : Nat) (t : Trace) (as : List Addr) (qs : List BioQ) :
    Prop where
  /-- What was added is what was popped, followed by what is queued. -/
  order : t.added = t.popped ++ qs
  distinct : as.Nodup
  entries : as.map t.queue.entryOf = qs.map some
  oldestFirst : Trail t.queue.prevOf t.queue.tail as
  newestFirst : Trail t.queue.nextOf t.queue.next as.reverse
  ends : t.queue.next = none ↔ t.queue.tail = none
  size : t.queue.size = qs.length
  /-- The next pop returns the oldest queued entry, or nothing. -/
  pop : ∃ t', t.step persistLevel .pop = some t' ∧ t'.added = t.added ∧
    t'.popped = t.popped ++ qs.head?.toList
  add : ∀ a q, t.queue.heap a = none →
    ∃ t', t.step persistLevel (.add a q) = some t' ∧ t'.added = t.added ++ [q] ∧
      t'.popped = t.popped

/-- The queue of the background worker is first in, first out, in every run, and
neither of its operations ever follows a null or dangling pointer. -/
theorem bioQueue_fifo (level : persistLevel < 3) (run : Reachable (step persistLevel) start t) :
    ∃ as qs, t.FirstInFirstOut persistLevel as qs := by
  obtain ⟨as, qs, sound⟩ := Reach.invariant ⟨[], [], sound_start⟩
    (fun inv _ fired => Sound.step level inv fired) run
  obtain ⟨popped, fires, _, same, oldest⟩ :
      ∃ t', t.step persistLevel .pop = some t' ∧ t'.Sound as.tail qs.tail ∧
        t'.added = t.added ∧ t'.popped = t.popped ++ qs.head?.toList := sound.pop
  refine ⟨as, qs, sound.fifo, sound.queue.distinct, sound.queue.entries, sound.queue.fromTail,
    sound.queue.fromHead, sound.queue.ends, sound.queue.size, ⟨popped, fires, same, oldest⟩, ?_⟩
  intro a q fresh
  obtain ⟨longer, fires, _, added, same⟩ := sound.add level fresh q
  exact ⟨longer, fires, added, same⟩

private def queued (op : BioOp) : BioQ := ⟨nullText, none, some nullText, op⟩

/-- Two entries are added and popped, and a third reuses the memory of the first. -/
theorem bioQueue_fifo_reuse : ∃ t, Reachable (step 0) start t ∧
    t.popped = [queued .stringAdd, queued .stringUpdate] ∧
    t.added = [queued .stringAdd, queued .stringUpdate, queued .stringDel] ∧
    ∃ as qs, t.FirstInFirstOut 0 as qs := by
  have run : ∃ t, runEvents (step 0) start [.add 0 (queued .stringAdd),
      .add 1 (queued .stringUpdate), .pop, .free 0, .add 0 (queued .stringDel), .pop] = some t ∧
      t.popped = [queued .stringAdd, queued .stringUpdate] ∧
      t.added = [queued .stringAdd, queued .stringUpdate, queued .stringDel] := ⟨_, rfl, rfl, rfl⟩
  obtain ⟨t, ran, popped, added⟩ := run
  have reach := Reachable.of_runEvents _ ran
  exact ⟨t, reach, popped, added, bioQueue_fifo (by decide) reach⟩

end Trace

end BioQueue

end XFireDB
