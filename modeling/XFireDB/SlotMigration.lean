import XFireDB.Lib.Runs
import XFireDB.Lib.Ownership
import XFireDB.KeyShard

/-!
# Slots under concurrent migrations

Any number of `LocalNode#migrate` runs at the nodes of a cluster.  A run takes
slots out of the source's shard with `KeyShard#reshard`, rewrites the stored
`shards` record, sends the slots as one line of text and, once the destination
has handled the `ADDSLOTS` message, copies its keys.

The slots of a run are in its `ADDSLOTS` message from the moment `reshard` has
returned them until the destination has added them, whether or not the line is
already on the wire.
-/

namespace XFireDB.Slots

open XFireDB.Lib

/-- What a node keeps about its slots: the shard, and the text stored under
`db['xfiredb']['shards']`. -/
structure Member where
  shard : KeyShard
  record : Option RStr

/-- `Cluster#add_slots` with the words of an `ADDSLOTS` line. -/
def Member.addSlots (m : Member) (slots : List RStr) : Member where
  shard := m.shard.addSlots slots
  record := match m.record with
    | some old => some (join (lit ":") slots ++ lit ":" ++ old)
    | none => some (join (lit ":") slots)

/-- The record `migrate` writes after `reshard`. -/
def Member.rewriteRecord (m : Member) : Member :=
  { m with
    record := if 0 < m.shard.slots.length then some (join (lit ":") m.shard.slots) else none }

section System

variable {ι : Type}

/-- Where a run of `migrate` is. -/
inductive Migration (ι : Type)
  | idle
  /-- `reshard` has returned -/
  | resharded (src dst : ι) (slots keys : List RStr)
  /-- the `shards` record is rewritten -/
  | recorded (src dst : ι) (slots keys : List RStr)
  /-- the `ADDSLOTS` line is on its way to the destination -/
  | sent (src dst : ι) (line : RStr) (keys : List RStr)
  /-- the destination has answered; the keys are copied -/
  | copying (src dst : ι) (keys : List RStr)

structure State (ι : Type) where
  members : ι → Member
  runs : Nat → Migration ι

inductive Event (ι : Type)
  | migrate (i : Nat) (src : ι) (num : Int) (dst : ι)
  | record (i : Nat)
  | send (i : Nat)
  | deliver (i : Nat)
  | finish (i : Nat)

def State.setMember [DecidableEq ι] (s : State ι) (n : ι) (m : Member) : State ι :=
  { s with members := Function.update s.members n m }

def State.setRun (s : State ι) (i : Nat) (r : Migration ι) : State ι :=
  { s with runs := Function.update s.runs i r }

/-- One step of one run; `deliver` is the destination's handler. -/
def step [DecidableEq ι] (s : State ι) : Event ι → Option (State ι)
  | .migrate i src num dst =>
    match s.runs i with
    | .idle =>
      let (shard, slots, keys) := (s.members src).shard.reshard num
      some ((s.setMember src { s.members src with shard := shard }).setRun i
        (.resharded src dst slots keys))
    | _ => none
  | .record i =>
    match s.runs i with
    | .resharded src dst slots keys =>
      some ((s.setMember src (s.members src).rewriteRecord).setRun i
        (.recorded src dst slots keys))
    | _ => none
  | .send i =>
    match s.runs i with
    | .recorded src dst slots keys =>
      some (s.setRun i (.sent src dst (join (lit " ") slots) keys))
    | _ => none
  | .deliver i =>
    match s.runs i with
    | .sent src dst line keys =>
      some ((s.setMember dst ((s.members dst).addSlots (splitSpace (wireLine line)))).setRun i
        (.copying src dst keys))
    | _ => none
  | .finish i =>
    match s.runs i with
    | .copying _ _ _ => some (s.setRun i .idle)
    | _ => none

/-! ## Places -/

/-- The slots of a run's undelivered `ADDSLOTS` message. -/
def Migration.slots : Migration ι → List RStr
  | .resharded _ _ slots _ => slots
  | .recorded _ _ slots _ => slots
  | .sent _ _ line _ => splitSpace (wireLine line)
  | _ => []

/-- A slot is in a node's shard or in the message of a run. -/
inductive Place (ι : Type)
  | node (n : ι)
  | message (i : Nat)

/-- The slots in a place. -/
def State.held (s : State ι) : Place ι → Set RStr
  | .node n => { slot | slot ∈ (s.members n).shard.slots }
  | .message i => { slot | slot ∈ (s.runs i).slots }

/-- Every slot is in exactly one place. -/
def State.Conserves (s : State ι) : Prop := Partitioned { slot | slot ∈ allSlots } s.held

@[simp] theorem held_node_setRun (s : State ι) (i : Nat) (r : Migration ι) (n : ι) :
    (s.setRun i r).held (.node n) = s.held (.node n) := rfl

@[simp] theorem held_message_setMember [DecidableEq ι] (s : State ι) (n : ι)
    (m : Member) (i : Nat) :
    (s.setMember n m).held (.message i) = s.held (.message i) := rfl

@[simp] theorem held_node_setMember [DecidableEq ι] (s : State ι) (n : ι) (m : Member) :
    (s.setMember n m).held (.node n) = { slot | slot ∈ m.shard.slots } := by
  simp [State.held, State.setMember]

theorem held_node_setMember_of_ne [DecidableEq ι] (s : State ι) {n n' : ι} (m : Member)
    (other : n' ≠ n) :
    (s.setMember n m).held (.node n') = s.held (.node n') := by
  simp [State.held, State.setMember, other]

@[simp] theorem held_message_setRun (s : State ι) (i : Nat) (r : Migration ι) :
    (s.setRun i r).held (.message i) = { slot | slot ∈ r.slots } := by
  simp [State.held, State.setRun]

theorem held_message_setRun_of_ne (s : State ι) {i i' : Nat} (r : Migration ι) (other : i' ≠ i) :
    (s.setRun i r).held (.message i') = s.held (.message i') := by
  simp [State.held, State.setRun, other]

/-- A run that changes its stage but not its message moves nothing. -/
theorem held_setRun_same (s : State ι) {i : Nat} {r : Migration ι}
    (same : r.slots = (s.runs i).slots) : (s.setRun i r).held = s.held := by
  funext place
  cases place with
  | node n => rfl
  | message j =>
      by_cases here : j = i
      · subst here
        rw [held_message_setRun, same, State.held]
      · exact held_message_setRun_of_ne s r here

/-- A node whose slots stay the same moves nothing. -/
theorem held_setMember_same [DecidableEq ι] (s : State ι) {n : ι} {m : Member}
    (same : m.shard.slots = (s.members n).shard.slots) : (s.setMember n m).held = s.held := by
  funext place
  cases place with
  | message i => rfl
  | node n' =>
      by_cases here : n' = n
      · subst here
        rw [held_node_setMember, same, State.held]
      · exact held_node_setMember_of_ne s m here

/-! ## What each step moves -/

/-- `reshard` moves the removed slots from the source into the run's message. -/
theorem moves_migrate [DecidableEq ι] {s : State ι} {i : Nat} (idle : s.runs i = .idle)
    (src dst : ι) (num : Int) :
    Moves s.held
      ((s.setMember src
        { s.members src with shard := ((s.members src).shard.reshard num).1 }).setRun i
        (.resharded src dst ((s.members src).shard.reshard num).2.1
          ((s.members src).shard.reshard num).2.2)).held
      (.node src) (.message i) { slot | slot ∈ ((s.members src).shard.reshard num).2.1 } where
  distinct := by simp
  taken := by
    intro slot removed
    exact (KeyShard.mem_reshard _ num slot).mpr (Or.inr removed)
  source := by
    ext slot
    rw [held_node_setRun, held_node_setMember, Set.mem_sdiff]
    constructor
    · intro kept
      exact ⟨(KeyShard.mem_reshard _ num slot).mpr (Or.inl kept),
        KeyShard.not_mem_reshard_both _ num kept⟩
    · intro stays
      exact ((KeyShard.mem_reshard _ num slot).mp stays.1).resolve_right stays.2
  target := by
    rw [held_message_setRun]
    simp [State.held, Migration.slots, idle]
  others := by
    intro place notSource notTarget
    cases place with
    | node n =>
        rw [held_node_setRun, held_node_setMember_of_ne]
        exact fun same => notSource (by rw [same])
    | message j =>
        rw [held_message_setRun_of_ne, held_message_setMember]
        exact fun same => notTarget (by rw [same])

/-- The `ADDSLOTS` handler moves the message's slots into the destination. -/
theorem moves_deliver [DecidableEq ι] {s : State ι} {i : Nat} {src dst : ι} {line : RStr}
    {keys : List RStr} (sent : s.runs i = .sent src dst line keys) :
    Moves s.held
      ((s.setMember dst ((s.members dst).addSlots (splitSpace (wireLine line)))).setRun i
        (.copying src dst keys)).held
      (.message i) (.node dst) { slot | slot ∈ splitSpace (wireLine line) } where
  distinct := by simp
  taken := by simp [State.held, Migration.slots, sent]
  source := by
    rw [held_message_setRun]
    simp [State.held, Migration.slots, sent]
  target := by
    ext slot
    rw [held_node_setRun, held_node_setMember]
    exact mem_setMerge
  others := by
    intro place notSource notTarget
    cases place with
    | node n =>
        rw [held_node_setRun, held_node_setMember_of_ne]
        exact fun same => notTarget (by rw [same])
    | message j =>
        rw [held_message_setRun_of_ne, held_message_setMember]
        exact fun same => notSource (by rw [same])

/-- The line of an `ADDSLOTS` message is read back as the slots it was made
from. -/
theorem splitSpace_wireLine_join {slots : List RStr} (known : ∀ x ∈ slots, x ∈ allSlots) :
    splitSpace (wireLine (join (lit " ") slots)) = slots := by
  have words : ∀ x ∈ slots, IsWord x := fun x member => isWord_of_mem_allSlots (known x member)
  rw [wireLine_join words, splitSpace_join words]

theorem State.Conserves.step [DecidableEq ι] {s s' : State ι} {e : Event ι} (inv : s.Conserves)
    (fired : step s e = some s') : s'.Conserves := by
  cases e with
  | migrate i src num dst =>
      cases stage : s.runs i with
      | idle =>
          simp only [Slots.step, stage] at fired
          obtain rfl := Option.some.inj fired
          exact Partitioned.moves inv (moves_migrate stage src dst num)
      | _ => simp [Slots.step, stage] at fired
  | record i =>
      cases stage : s.runs i with
      | resharded src dst slots keys =>
          simp only [Slots.step, stage] at fired
          obtain rfl := Option.some.inj fired
          have sameSlots : (s.members src).rewriteRecord.shard.slots =
            (s.members src).shard.slots := rfl
          rw [State.Conserves,
            held_setRun_same _ (by simp [Migration.slots, State.setMember, stage]),
            held_setMember_same s sameSlots]
          exact inv
      | _ => simp [Slots.step, stage] at fired
  | send i =>
      cases stage : s.runs i with
      | recorded src dst slots keys =>
          simp only [Slots.step, stage] at fired
          obtain rfl := Option.some.inj fired
          have known : ∀ x ∈ slots, x ∈ allSlots := by
            intro x member
            refine inv.inside (.message i) ?_
            simpa [State.held, stage, Migration.slots] using member
          rw [State.Conserves, held_setRun_same _
            (by simp [Migration.slots, stage, splitSpace_wireLine_join known])]
          exact inv
      | _ => simp [Slots.step, stage] at fired
  | deliver i =>
      cases stage : s.runs i with
      | sent src dst line keys =>
          simp only [Slots.step, stage] at fired
          obtain rfl := Option.some.inj fired
          exact Partitioned.moves inv (moves_deliver stage)
      | _ => simp [Slots.step, stage] at fired
  | finish i =>
      cases stage : s.runs i with
      | copying src dst keys =>
          simp only [Slots.step, stage] at fired
          obtain rfl := Option.some.inj fired
          rw [State.Conserves, held_setRun_same _ (by simp [Migration.slots, stage])]
          exact inv
      | _ => simp [Slots.step, stage] at fired

/-- The start of a cluster: the slots are partitioned over the nodes and no
migration has begun. -/
structure State.Initial (s : State ι) : Prop where
  covered : ∀ slot ∈ allSlots, ∃! n, slot ∈ (s.members n).shard.slots
  known : ∀ n, ∀ slot ∈ (s.members n).shard.slots, slot ∈ allSlots
  quiet : ∀ i, s.runs i = .idle

theorem State.Initial.conserves {s : State ι} (start : s.Initial) : s.Conserves where
  unique := by
    intro slot member
    obtain ⟨n, owns, only⟩ := start.covered slot member
    refine ⟨.node n, owns, ?_⟩
    intro place holds
    cases place with
    | node n' => rw [only n' holds]
    | message i => simp [State.held, start.quiet i, Migration.slots] at holds
  inside := by
    intro place slot holds
    cases place with
    | node n => exact start.known n slot holds
    | message i => simp [State.held, start.quiet i, Migration.slots] at holds

/-- The answer of a node to `CLUSTER YOUHAVE? key`. -/
def State.youHave (s : State ι) (n : ι) (key : RStr) : Except Raise Bool :=
  (s.members n).shard.includes key

theorem State.Conserves.youHave_unique {s : State ι} (inv : s.Conserves) {n n' : ι} {key : RStr}
    (first : s.youHave n key = .ok true) (second : s.youHave n' key = .ok true) : n = n' := by
  cases known : keyToSlot key with
  | error e => simp [State.youHave, KeyShard.includes, known, Except.map] at first
  | ok slot =>
      simp only [State.youHave, KeyShard.includes, known, Except.map, Except.ok.injEq,
        decide_eq_true_eq] at first second
      have same := (inv.unique slot (keyToSlot_mem_allSlots known)).unique
        (show slot ∈ s.held (.node n) from first) (show slot ∈ s.held (.node n') from second)
      exact Place.node.inj same

/-- In every interleaving of migrations each slot is in exactly one node's shard
or in exactly one undelivered `ADDSLOTS` message, and no two nodes claim a key. -/
theorem slots_conserved [DecidableEq ι] {s₀ s : State ι} (start : s₀.Initial)
    (run : Reachable step s₀ s) :
    (∀ slot ∈ allSlots, ∃! place, slot ∈ s.held place) ∧
      ∀ n n' key, s.youHave n key = .ok true → s.youHave n' key = .ok true → n = n' := by
  have inv : s.Conserves := run.invariant start.conserves fun inv _ fired => inv.step fired
  exact ⟨inv.unique, fun n n' key first second => inv.youHave_unique first second⟩

end System

/-- Two nodes, of which `true` owns every slot. -/
def sampleCluster : State Bool where
  members
    | true => ⟨⟨allSlots, [], nodup_allSlots, List.nodup_nil⟩, none⟩
    | false => ⟨⟨[], [], List.nodup_nil, List.nodup_nil⟩, none⟩
  runs _ := .idle

theorem sampleCluster_initial : sampleCluster.Initial where
  covered := by
    intro slot member
    refine ⟨true, member, ?_⟩
    intro n owns
    cases n with
    | true => rfl
    | false => exact absurd owns List.not_mem_nil
  known := by
    intro n slot owns
    cases n with
    | true => exact owns
    | false => exact absurd owns List.not_mem_nil
  quiet _ := rfl

/-- The cluster while the first hundred slots are in an `ADDSLOTS` message. -/
theorem slots_conserved_sampleCluster :
    sampleCluster.Initial ∧
      ∃ s, step sampleCluster (.migrate 0 true 100 false) = some s ∧
        ∀ slot ∈ allSlots, ∃! place, slot ∈ s.held place := by
  refine ⟨sampleCluster_initial, _, rfl, ?_⟩
  exact (slots_conserved sampleCluster_initial
    (.next (e := .migrate 0 true 100 false) .init trivial rfl)).1

end XFireDB.Slots
