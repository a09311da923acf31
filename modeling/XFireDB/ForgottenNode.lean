import XFireDB.MovingSlots

/-!
# What a forgotten node leaves behind

The queries of `Cluster#forget` as runs of `LocalNode#migrate` on the stored keys: the
node to be forgotten is left with nothing, and every key is at one of the others.
-/

namespace XFireDB

open Lib Slots

variable {ι : Type} [DecidableEq ι] {queries : List (MigrateQuery ι)}

/-! ## The slots alone -/

/-- Which slots a query moves depends on the slots only. -/
theorem exec_slots_congr {s s' : ι → KeyShard} (same : ∀ i, (s i).slots = (s' i).slots)
    {q : MigrateQuery ι} (apart : q.node ≠ q.dst) (i : ι) :
    (q.exec s i).slots = (q.exec s' i).slots := by
  rcases eq_or_ne i q.node with rfl | notNode
  · rw [exec_node apart, exec_node apart, same]
  · rcases eq_or_ne i q.dst with rfl | notDst
    · rw [exec_dst apart, exec_dst apart, same, same]
    · rw [exec_other notNode notDst, exec_other notNode notDst, same]

theorem afterQueries_slots_congr {s s' : ι → KeyShard} (same : ∀ i, (s i).slots = (s' i).slots)
    (apart : ∀ q ∈ queries, q.node ≠ q.dst) (i : ι) :
    (afterQueries s queries i).slots = (afterQueries s' queries i).slots := by
  induction queries generalizing s s' with
  | nil => exact same i
  | cons q queries ih =>
      have first := exec_slots_congr same (apart q List.mem_cons_self)
      exact ih first fun q' member => apart q' (List.mem_cons_of_mem q member)

namespace Deployment

/-- The run that a query asks for. -/
def Event.ofQuery (q : MigrateQuery ι) : Event ι := .migrate q.node q.num q.dst

/-- The node has no slot, tracks no key and stores none. -/
structure Emptied (n : Node) : Prop where
  slots : n.shard.slots = []
  keys : n.shard.keys = []
  db : ∀ k, n.db k = none

variable {d : Deployment ι} {n : Node} {fuel : Nat}

/-- Queries whose destination is another node, one after the other. -/
theorem Divides.migrateAll (rel : d.Divides n) (short : n.Short 0)
    (rounds : ∀ k c, n.content k = some (.container c) → c.size < fuel)
    (apart : ∀ q ∈ queries, q.node ≠ q.dst) :
    ∃ d', replies (act fuel) d (queries.map Event.ofQuery) =
        some (queries.map fun _ => .migrated (.ok true), d') ∧ d'.Divides n ∧
      ∀ i, (d'.node i).shard.slots =
        (afterQueries (fun i => (d.node i).shard) queries i).slots := by
  induction queries generalizing d with
  | nil => exact ⟨d, rfl, rel, fun _ => rfl⟩
  | cons q queries ih =>
      have later : ∀ q' ∈ queries, q'.node ≠ q'.dst := fun q' member =>
        apart q' (List.mem_cons_of_mem q member)
      obtain ⟨d₁, ran, rel₁, slots₁⟩ :=
        rel.migrate short (apart q List.mem_cons_self).symm q.num rounds
      obtain ⟨d', ranLater, rel', slots'⟩ := ih rel₁ later
      refine ⟨d', ?_, rel', ?_⟩
      · have first : d.act fuel (Event.ofQuery q) = some (.migrated (.ok true), d₁) :=
          congrArg (Option.map _) ran
        rw [List.map_cons, replies, first, Option.bind_some, ranLater]
        rfl
      · intro i
        rw [slots']
        exact afterQueries_slots_congr slots₁ later i

omit [DecidableEq ι] in
/-- A node without slots has nothing. -/
theorem Divides.emptied (rel : d.Divides n) {i : ι} (slots : (d.node i).shard.slots = []) :
    Emptied (d.node i) := by
  have missing : ∀ k, (d.node i).db k = none := by
    intro k
    apply ((rel.divides.proper i).wf.db_eq_none k).mpr
    apply rel.away
    rw [slots]
    exact List.not_mem_nil
  refine ⟨slots, ?_, missing⟩
  rw [List.eq_nil_iff_forall_not_mem]
  intro key member
  obtain ⟨k, _, held⟩ := ((rel.kept i).keys key).mp member
  exact held (missing k)

omit [DecidableEq ι] in
/-- Some number of rounds is enough for every container after the events. -/
theorem exists_rounds_after (n₀ : Node) (events : List (Event ι)) :
    ∃ bound, ∀ outcomes n, replies Event.alone n₀ events = some (outcomes, n) → n.Settled →
      ∀ k c, n.content k = some (.container c) → c.size < bound := by
  cases alone : replies Event.alone n₀ events with
  | none =>
      refine ⟨0, fun outcomes n same => ?_⟩
      cases same
  | some out =>
      by_cases settled : out.2.Settled
      · obtain ⟨bound, rounds⟩ := settled.kept.exists_rounds settled.proper.wf
        refine ⟨bound, fun outcomes n same _ => ?_⟩
        cases same
        exact rounds
      · refine ⟨0, fun outcomes n same settled' => ?_⟩
        cases same
        exact absurd settled' settled

/-- CLUSTER FORGET up to the gossip, after any history of requests and migrations of a
deployment that started empty: the queries are sent, every run that they ask for ends
well, the node is left with nothing, and what clients have stored is at the others. -/
theorem forget_of_moving (starts : d.Starts) (level : Nat) {events : List (Event ι)}
    (plain : ∀ event ∈ events, event.Plain) (few : events.length < 2 ^ 31) {nodes : List ι}
    {localId nodeId : ι} (nodup : nodes.Nodup)
    (own : localId ∈ nodes) (known : nodeId ∈ nodes) (other : nodeId ≠ localId) :
    ∃ bound, ∀ fuel, bound ≤ fuel → ∀ outcomes d', replies (act fuel) d events =
        some (outcomes, d') →
      ∃ queries d'',
        (∀ rounds, clusterForget (rounds + 3) nodes (fun i => (d'.node i).shard) nodeId =
          some (.ok queries)) ∧
        replies (act fuel) d' (queries.map Event.ofQuery) =
          some (queries.map fun _ => .migrated (.ok true), d'') ∧
        Emptied (d''.node nodeId) ∧
        ∃ outcomes' n, replies Event.alone (Node.empty wholeShard level true) events =
            some (outcomes', n) ∧
          List.Forall₂ Outcome.As outcomes outcomes' ∧
          ∀ k v, n.content k = some v ↔ ∃ i, i ≠ nodeId ∧ d''.AtHome i k v := by
  obtain ⟨bound, alike⟩ := Divides.act_simulates.replies 0 (Node.empty wholeShard level true) plain
  obtain ⟨more, rounds⟩ := exists_rounds_after (Node.empty wholeShard level true) events
  refine ⟨max bound more, fun fuel enough outcomes d' ran => ?_⟩
  have both := alike d fuel ⟨starts.divides level, short_empty level few⟩
    (le_trans (le_max_left _ _) enough)
  rw [ran] at both
  obtain ⟨outcomes', n, alone, as, divides, short⟩ := exists_related both
  obtain ⟨queries, hands, sent⟩ :=
    forgetWhile_hands (Int.natCast_nonneg (d'.node nodeId).shard.slots.length)
    (remaining_length nodup known) (List.length_pos_of_mem (mem_remaining.mpr ⟨own, other⟩))
  have apart : ∀ q ∈ queries, q.node ≠ q.dst := by
    intro q member same
    obtain ⟨isNode, notDst, _⟩ := hands.takes q member
    exact notDst (same ▸ isNode)
  have size := rounds outcomes' n alone ⟨divides.divides.one, divides.one⟩
  obtain ⟨d'', moved, rel', slots⟩ :=
    divides.migrateAll short
      (fun k c held => lt_of_lt_of_le (size k c held) (le_trans (le_max_right _ _) enough)) apart
  have emptied : Emptied (d''.node nodeId) := by
    apply rel'.emptied
    rw [slots, afterQueries_node hands.takes, hands.total, Int.toNat_natCast, List.drop_length]
  refine ⟨queries, d'', ?_, moved, emptied, outcomes', n, alone, as, ?_⟩
  · intro rounds
    rw [clusterForget, if_neg (not_not_intro known)]
    exact sent rounds
  · intro k v
    rw [rel'.atHome_iff]
    constructor
    · intro found
      obtain ⟨i, atHome⟩ := found
      refine ⟨i, ?_, atHome⟩
      intro same
      have owns := atHome.owns
      rw [same, Owns, emptied.slots] at owns
      cases owns
    · intro found
      obtain ⟨i, _, atHome⟩ := found
      exact ⟨i, atHome⟩

theorem nodup_pair : [false, true].Nodup := by decide

/-- The owner of every slot is forgotten after SET, a migration and GET. -/
theorem forget_of_moving_pair : ∃ bound, ∀ fuel, bound ≤ fuel → ∀ outcomes d',
    replies (act fuel) pair setMoveGet = some (outcomes, d') →
      ∃ queries d'',
        (∀ rounds, clusterForget (rounds + 3) [false, true] (fun i => (d'.node i).shard) false =
          some (.ok queries)) ∧
        replies (act fuel) d' (queries.map Event.ofQuery) =
          some (queries.map fun _ => .migrated (.ok true), d'') ∧
        Emptied (d''.node false) ∧
        ∃ outcomes' n, replies Event.alone (Node.empty wholeShard 0 true) setMoveGet =
            some (outcomes', n) ∧
          List.Forall₂ Outcome.As outcomes outcomes' ∧
          ∀ k v, n.content k = some v ↔ ∃ i, i ≠ false ∧ d''.AtHome i k v :=
  forget_of_moving starts_pair 0 plain_setMoveGet (by decide) nodup_pair
    (List.mem_cons_of_mem false List.mem_cons_self)
    List.mem_cons_self Bool.false_ne_true

end Deployment

end XFireDB
