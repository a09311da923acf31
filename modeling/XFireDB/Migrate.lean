import XFireDB.SlotRecord
import XFireDB.ClusterBus

/-!
# CLUSTER MIGRATE

`LocalNode#migrate` as a whole: it takes slots and their keys out of the shard,
rewrites the stored `shards` record, looks the destination up, sends it the slots
and then each key as query texts, and deletes the key.

The record of a node stands beside its database here, since no storage command
reaches it.
-/

namespace XFireDB

open Lib Slots

/-- A cluster with the stored `shards` records and the nodes that a bus connection
cannot be opened to: `create_cluster_socket` returns nil or raises on nil. -/
structure Deployment (ι : Type) where
  cluster : Cluster ι
  record : ι → Option RStr
  refuses : ι → Bool

namespace Deployment

variable {ι : Type} [DecidableEq ι]

def node (d : Deployment ι) (i : ι) : Node := d.cluster.node i

def setNode (d : Deployment ι) (i : ι) (n : Node) : Deployment ι :=
  { d with cluster := { d.cluster with node := Function.update d.cluster.node i n } }

/-- What a node keeps about its slots. -/
def member (d : Deployment ι) (i : ι) : Member := ⟨(d.node i).shard, d.record i⟩

def setMember (d : Deployment ι) (i : ι) (m : Member) : Deployment ι :=
  { d.setNode i { d.node i with shard := m.shard } with
    record := Function.update d.record i m.record }

/-! ## Copying a key -/

/-- The texts that carry the elements of a container, in the order of `each`. -/
def texts (key : RStr) : Container → List RStr
  | .list elems => elems.map fun entry => lit "LPUSH " ++ key ++ lit " " ++ quote entry.toR
  | .hashmap nodes _ => nodes.map fun node =>
    lit "MADD " ++ key ++ lit " " ++ node.key.toR ++ lit " " ++ quote node.value.toR
  | .set nodes _ => nodes.map fun node => lit "SADD " ++ key ++ lit " " ++ quote node.key.toR

/-- The text of the element that `each` comes to.  `rb_list_each` ends where the position
is not below the length as an `int`; the other two walk an iterator. -/
def nextText (key : RStr) (c : Container) (pos : Nat) : Option RStr :=
  match c with
  | .list elems => if (pos : Int) < int32 elems.length then (texts key c)[pos]? else none
  | _ => (texts key c)[pos]?

/-- `dst.cluster_query(text)`; the reply is not looked at. -/
def query (fuel : Nat) (dst : ι) (d : Deployment ι) (text : RStr) :
    Option (Except Raise Unit × Deployment ι) :=
  (Cluster.busQuery (Cluster.forward fuel) dst d.cluster text).map fun out =>
    (out.1.map fun _ => (), { d with cluster := out.2 })

/-- `val.each`: element after element of the object as it is by then.  The fuel
bounds the rounds. -/
def each (fuel : Nat) (e dst : ι) (key : RStr) (id : Nat) :
    Nat → Nat → Deployment ι → Option (Except Raise Unit × Deployment ι)
  | 0, _, _ => none
  | rounds + 1, pos, d =>
    match (d.node e).objs id with
    | none => some (.error .noMethodError, d)
    | some o =>
      match nextText key o.c pos with
      | none => some (.ok (), d)
      | some text =>
        match d.query fuel dst text with
        | none => none
        | some (.error r, d) => some (.error r, d)
        | some (.ok (), d) => each fuel e dst key id rounds (pos + 1) d

/-- The body of the `case` on a value. -/
def copyValue (fuel : Nat) (e dst : ι) (key : RStr) (d : Deployment ι) :
    Val → Option (Except Raise Unit × Deployment ι)
  | .nil => some (.ok (), d)
  | .str val => d.query fuel dst (lit "SET " ++ key ++ lit " " ++ quote val)
  | .obj _ id => each fuel e dst key id fuel 0 d

/-- `db.delete(key)`. -/
def deleteKey (e : ι) (key : RStr) (d : Deployment ι) : Except Raise Unit × Deployment ι :=
  let out := (d.node e).rbDbDelete key
  (out.1, d.setNode e out.2)

/-- The loop over the keys. -/
def copyKeys (fuel : Nat) (e dst : ι) :
    List RStr → Deployment ι → Option (Except Raise Bool × Deployment ι)
  | [], d => some (.ok true, d)
  | key :: rest, d =>
    match ((d.node e).rbDbRef key).1 with
    | .error r => some (.error r, d)
    | .ok val =>
      match d.copyValue fuel e dst key val with
      | none => none
      | some (.error r, d) => some (.error r, d)
      | some (.ok (), d) =>
        match d.deleteKey e key with
        | (.error r, d) => some (.error r, d)
        | (.ok (), d) => copyKeys fuel e dst rest d

/-! ## The whole run -/

/-- The text cannot be stored. -/
def unstorable (record : Option RStr) : Bool := record.any fun text => decide (0 ∈ text)

/-- The part of `migrate` before it looks at the destination: the deployment left,
the slots and the keys to be moved.  The store of the record may raise. -/
def takeSlots (d : Deployment ι) (e : ι) (num : Int) :
    Except Raise Unit × Deployment ι × List RStr × List RStr :=
  let (shard, slots, keys) := (d.node e).shard.reshard num
  let left := Member.rewriteRecord ⟨shard, d.record e⟩
  let d := d.setMember e (left.store (d.record e))
  (if unstorable left.record then .error .argumentError else .ok (), d, slots, keys)

/-- The handler of the `ADDSLOTS` message at the destination; if it raises, the
sender waits on. -/
def sendSlots (d : Deployment ι) (dst : ι) (slots : List RStr) : Except Raise Unit × Deployment ι :=
  let line := join (lit " ") slots
  let added := (d.member dst).addSlots (splitSpace (wireLine line))
  (if unstorable added.record then .error .noReply else .ok (),
    d.setMember dst ((d.member dst).operate (.addSlots line)))

/-- `LocalNode#migrate` at node `e`. -/
def migrate (fuel : Nat) (d : Deployment ι) (e : ι) (num : Int) (dst : ι) :
    Option (Except Raise Bool × Deployment ι) :=
  match d.takeSlots e num with
  | (.error r, d, _, _) => some (.error r, d)
  | (.ok (), d, slots, keys) =>
    -- `nil.add_slots`, and `nil.puts` in `ClusterNode#add_slots`
    if dst ∉ d.cluster.table e ∨ d.refuses dst then some (.error .noMethodError, d)
    else
      match d.sendSlots dst slots with
      | (.error r, d) => some (.error r, d)
      | (.ok (), d) => copyKeys fuel e dst keys d

/-! ## Runs that fail -/

/-- The run ends in an exception and has changed nothing. -/
def FailsCleanly (fuel : Nat) (d : Deployment ι) (e : ι) (num : Int) (dst : ι) : Prop :=
  ∃ r, d.migrate fuel e num dst = some (.error r, d)

/-- The run takes no slot and writes the record that is there already. -/
def TakesNothing (d : Deployment ι) (e : ι) (num : Int) : Prop :=
  (num ≤ 0 ∨ (d.node e).shard.slots = []) ∧
    (0 ∈ join (lit ":") (d.node e).shard.slots ∨
      d.record e = if 0 < (d.node e).shard.slots.length then
        some (join (lit ":") (d.node e).shard.slots) else none)

variable {d : Deployment ι} {e dst : ι}

theorem setMember_eq_iff {m : Member} : d.setMember e m = d ↔ m = d.member e := by
  constructor
  · intro same
    have shard := congrArg (fun d => (d.node e).shard) same
    have record := congrArg (fun d => d.record e) same
    simp only [setMember, setNode, node, Function.update_self] at shard record
    cases m
    rw [member]
    congr
  · intro same
    obtain rfl := same
    simp [setMember, setNode, member, node]

/-- A store leaves a member as it was if the shard is the same and the new record
is the old one or cannot be stored. -/
theorem store_eq_iff {m m' : Member} : m.store m'.record = m' ↔
    m.shard = m'.shard ∧ ((∃ text, m.record = some text ∧ 0 ∈ text) ∨ m.record = m'.record) := by
  obtain ⟨shard, record⟩ := m
  obtain ⟨shard', record'⟩ := m'
  cases record with
  | none => simp [Member.store]
  | some text =>
      by_cases nul : 0 ∈ text
      · simp [Member.store, nul]
      · simp [Member.store, nul]

/-- A run that cannot reach its destination leaves what it has taken out. -/
theorem migrate_unreachable (fuel : Nat) (num : Int)
    (unreachable : dst ∉ d.cluster.table e ∨ d.refuses dst) :
    ∃ r, d.migrate fuel e num dst = some (.error r, (d.takeSlots e num).2.1) := by
  have table : (d.takeSlots e num).2.1.cluster.table = d.cluster.table := rfl
  have refuses : (d.takeSlots e num).2.1.refuses = d.refuses := rfl
  unfold migrate
  rcases taken : d.takeSlots e num with ⟨r, left, slots, keys⟩
  rw [taken] at table refuses
  cases r with
  | error r => exact ⟨r, rfl⟩
  | ok _ =>
      refine ⟨.noMethodError, ?_⟩
      have blocked : dst ∉ left.cluster.table e ∨ left.refuses dst := by
        rw [show left.cluster.table = d.cluster.table from table,
          show left.refuses = d.refuses from refuses]
        exact unreachable
      simp only [if_pos blocked]

/-- Where the destination is unknown or refuses the connection, a run changes
nothing exactly if it had nothing to take and nothing to write. -/
theorem failsCleanly_iff (fuel : Nat) (num : Int)
    (unreachable : dst ∉ d.cluster.table e ∨ d.refuses dst) :
    d.FailsCleanly fuel e num dst ↔ d.TakesNothing e num := by
  obtain ⟨r, failed⟩ := migrate_unreachable fuel num unreachable
  have unchanged : d.FailsCleanly fuel e num dst ↔ (d.takeSlots e num).2.1 = d := by
    rw [FailsCleanly, failed]
    constructor
    · intro found
      obtain ⟨_, same⟩ := found
      exact (Prod.mk.inj (Option.some.inj same)).2
    · intro same
      exact ⟨r, by rw [same]⟩
  have taken : (d.takeSlots e num).2.1 = d.setMember e (Member.store
      (Member.rewriteRecord ⟨((d.node e).shard.reshard num).1, d.record e⟩)
      (d.member e).record) := rfl
  rw [unchanged, taken, setMember_eq_iff, store_eq_iff, TakesNothing]
  have sameShard : (Member.rewriteRecord ⟨((d.node e).shard.reshard num).1, d.record e⟩).shard =
      (d.member e).shard ↔ num ≤ 0 ∨ (d.node e).shard.slots = [] :=
    KeyShard.reshard_eq_self_iff
  rw [sameShard]
  refine and_congr_right ?_
  intro nothing
  rw [KeyShard.reshard_eq_self_iff.mpr nothing]
  by_cases empty : (d.node e).shard.slots = []
  · simp [Member.rewriteRecord, member, empty, join, eq_comm]
  · simp [Member.rewriteRecord, member, List.length_pos_iff.mpr empty, eq_comm]

theorem nodup_slotFive : [lit "5"].Nodup := by decide

/-- Node `false` knows itself only and holds slot 5, as its record says. -/
def alone : Deployment Bool where
  cluster :=
    { node := fun _ =>
        { db := fun _ => none
          objs := fun _ => none
          fresh := 0
          shard := ⟨[lit "5"], [], nodup_slotFive, List.nodup_nil⟩
          loadState := true
          persistLevel := 0
          queue := [] }
      table := fun i => [i] }
  record := fun _ => some (lit "5")
  refuses := fun _ => false

theorem unknown_alone : true ∉ alone.cluster.table false ∨ alone.refuses true = true :=
  Or.inl (by decide)

theorem failsCleanly_alone : (true ∉ alone.cluster.table false ∨ alone.refuses true) ∧
    alone.FailsCleanly 1 false 0 true :=
  ⟨unknown_alone, (failsCleanly_iff 1 0 unknown_alone).mpr ⟨Or.inl le_rfl, Or.inr rfl⟩⟩

/-- `MIGRATE 1` to an unknown node loses the slot. -/
theorem migrate_unknown_loses : (true ∉ alone.cluster.table false ∨ alone.refuses true) ∧
    ¬ alone.FailsCleanly 1 false 1 true := by
  refine ⟨unknown_alone, ?_⟩
  intro found
  obtain ⟨r, ran⟩ := found
  have lost : (migrate 1 alone false 1 true).map (fun out => (out.2.node false).shard.slots) =
      some [] := by decide
  rw [ran] at lost
  have kept : some [lit "5"] = some [] := lost
  exact absurd kept (by decide)

end Deployment

end XFireDB
