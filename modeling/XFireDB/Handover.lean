import XFireDB.KeyShardRuns
import XFireDB.MigrateData

/-!
# CLUSTER FORGET

The node that executes `CLUSTER FORGET` sends `CLUSTER MIGRATE` queries to the node to be
forgotten, until the number of slots that it had at the start is asked for.
-/

namespace XFireDB

open Lib

variable {ι : Type} [DecidableEq ι]

/-- The text `CLUSTER MIGRATE num dst` in a `cluster_query` to a node. -/
structure MigrateQuery (ι : Type) where
  node : ι
  num : Int
  dst : ι
deriving DecidableEq

/-- The shards after a query: the node gives away what `reshard` removes, the destination
adds it. -/
def MigrateQuery.exec (s : ι → KeyShard) (q : MigrateQuery ι) : ι → KeyShard :=
  let resharded := (s q.node).reshard q.num
  let s := Function.update s q.node resharded.1
  Function.update s q.dst ((s q.dst).addSlots resharded.2.1)

/-- The shards after one query after the other. -/
def afterQueries (s : ι → KeyShard) (queries : List (MigrateQuery ι)) : ι → KeyShard :=
  queries.foldl MigrateQuery.exec s

/-- Ruby's `ZeroDivisionError`. -/
inductive ZeroDivisionError
  | raised
deriving DecidableEq

/-- `@nodes.each` in `Cluster#forget`: what is left of `num` behind the loop, and the
queries. -/
def forgetEach (nodeId : ι) (perNode : Int) : List ι → Int → Int × List (MigrateQuery ι)
  | [], num => (num, [])
  | id :: nodes, num =>
    if nodeId = id then forgetEach nodeId perNode nodes num
    else
      let num := num - perNode
      if 0 < num then
        let (left, queries) := forgetEach nodeId perNode nodes num
        (left, ⟨nodeId, perNode, id⟩ :: queries)
      else (num, [⟨nodeId, perNode, id⟩])

/-- `while num > 0`, for at most `fuel` rounds. -/
def forgetWhile (nodeId : ι) (nodes : List ι) :
    Nat → Int → Option (Except ZeroDivisionError (List (MigrateQuery ι)))
  | 0, _ => none
  | fuel + 1, num =>
    if 0 < num then
      if (nodes.length : Int) - 1 = 0 then some (.error .raised)
      else
        let perNode := num / (nodes.length - 1)
        let perNode := if perNode = 0 then num else perNode
        let (left, queries) := forgetEach nodeId perNode nodes num
        (forgetWhile nodeId nodes fuel left).map (·.map (queries ++ ·))
    else some (.ok [])

/-- `Cluster#forget` up to the gossip; an unknown node is sent nothing. -/
def clusterForget (fuel : Nat) (nodes : List ι) (s : ι → KeyShard) (nodeId : ι) :
    Option (Except ZeroDivisionError (List (MigrateQuery ι))) :=
  if nodeId ∉ nodes then some (.ok []) else forgetWhile nodeId nodes fuel (s nodeId).slots.length

/-! ## What a query moves -/

variable {s : ι → KeyShard} {q : MigrateQuery ι}

theorem exec_node (apart : q.node ≠ q.dst) :
    (q.exec s q.node).slots = (s q.node).slots.drop q.num.toNat := by
  rw [MigrateQuery.exec, Function.update_of_ne apart, Function.update_self,
    KeyShard.reshard_slots]

theorem exec_dst (apart : q.node ≠ q.dst) :
    (q.exec s q.dst).slots = setMerge (s q.dst).slots ((s q.node).slots.take q.num.toNat) := by
  rw [MigrateQuery.exec, Function.update_self, Function.update_of_ne apart.symm,
    ← KeyShard.reshardLoop_snd]
  rfl

theorem exec_other {i : ι} (notNode : i ≠ q.node) (notDst : i ≠ q.dst) : q.exec s i = s i := by
  rw [MigrateQuery.exec, Function.update_of_ne notDst, Function.update_of_ne notNode]

theorem shards_setMember (d : Deployment ι) (i : ι) (m : Slots.Member) :
    (fun j => ((d.setMember i m).node j).shard) =
      Function.update (fun j => (d.node j).shard) i m.shard := by
  funext j
  rw [Deployment.node_setMember, Function.update_apply]
  split <;> rfl

/-- A run of `LocalNode#migrate` moves the slots so, before it copies the keys. -/
theorem exec_eq_migrate {d : Deployment ι} (orderly : d.Orderly)
    (known : q.dst ∈ d.cluster.table q.node) (reachable : d.refuses q.dst = false) :
    ∃ d' : Deployment ι, (fun i => (d'.node i).shard) = q.exec (fun i => (d.node i).shard) ∧
      ∀ fuel, d.migrate fuel q.node q.num q.dst =
        d'.copyKeys fuel q.node q.dst ((d.node q.node).shard.reshard q.num).2.2 := by
  obtain ⟨m, shard, ran⟩ := orderly.migrate_sent known reachable q.num
  refine ⟨_, ?_, ran⟩
  rw [shards_setMember, shards_setMember, MigrateQuery.exec, ← shard, ← shards_setMember]
  rfl

/-- Where the slots are. -/
def holding (s : ι → KeyShard) (i : ι) : Set RStr := { slot | slot ∈ (s i).slots }

/-- A query moves the first slots of its node. -/
theorem moves_exec (apart : q.node ≠ q.dst) :
    Moves (holding s) (holding (q.exec s)) q.node q.dst
      { slot | slot ∈ (s q.node).slots.take q.num.toNat } where
  distinct := apart
  taken := fun slot member => List.mem_of_mem_take member
  source := by
    have split := (s q.node).slots.take_append_drop q.num.toNat
    have nodup := split ▸ (s q.node).slotsNodup
    ext slot
    rw [holding, Set.mem_sdiff, Set.mem_ofPred_eq, exec_node apart]
    constructor
    · intro kept
      exact ⟨List.mem_of_mem_drop kept, fun taken => List.disjoint_of_nodup_append nodup taken kept⟩
    · intro found
      rcases found with ⟨held, notTaken⟩
      have either : slot ∈ (s q.node).slots.take q.num.toNat ++
        (s q.node).slots.drop q.num.toNat := by
        rw [split]
        exact held
      exact (List.mem_append.mp either).resolve_left notTaken
  target := by
    ext slot
    rw [holding, Set.mem_ofPred_eq, exec_dst apart, mem_setMerge]
    rfl
  others := by
    intro i notNode notDst
    rw [holding, exec_other notNode notDst, holding]

/-! ## What a list of queries moves -/

variable {queries : List (MigrateQuery ι)} {nodeId : ι}

theorem afterQueries_append (s : ι → KeyShard) (queries more : List (MigrateQuery ι)) :
    afterQueries s (queries ++ more) = afterQueries (afterQueries s queries) more :=
  List.foldl_append

/-- Slots keep having one owner. -/
theorem partitioned_afterQueries {all : Set RStr} (part : Partitioned all (holding s))
    (apart : ∀ q ∈ queries, q.node ≠ q.dst) :
    Partitioned all (holding (afterQueries s queries)) := by
  induction queries generalizing s with
  | nil => exact part
  | cons q queries ih =>
      exact ih (part.moves (moves_exec (apart q List.mem_cons_self)))
        fun q' member => apart q' (List.mem_cons_of_mem q member)

theorem afterQueries_other {i : ι} (notNode : ∀ q ∈ queries, i ≠ q.node)
    (notDst : ∀ q ∈ queries, i ≠ q.dst) : afterQueries s queries i = s i := by
  induction queries generalizing s with
  | nil => rfl
  | cons q queries ih =>
      have rest := ih (s := q.exec s) (fun q' member => notNode q' (List.mem_cons_of_mem q member))
        (fun q' member => notDst q' (List.mem_cons_of_mem q member))
      exact rest.trans (exec_other (notNode q List.mem_cons_self) (notDst q List.mem_cons_self))

/-- Who is asked for nothing loses nothing. -/
theorem subset_afterQueries {i : ι} (notNode : ∀ q ∈ queries, i ≠ q.node) :
    (s i).slots ⊆ (afterQueries s queries i).slots := by
  induction queries generalizing s with
  | nil => exact List.Subset.refl _
  | cons q queries ih =>
      have rest := ih (s := q.exec s) fun q' member => notNode q' (List.mem_cons_of_mem q member)
      have notFirst := notNode q List.mem_cons_self
      refine List.Subset.trans ?_ rest
      by_cases isDst : i = q.dst
      · subst isDst
        rw [exec_dst (Ne.symm notFirst)]
        exact fun slot member => mem_setMerge.mpr (Or.inl member)
      · rw [exec_other notFirst isDst]
        exact List.Subset.refl _

/-- The number of slots that queries ask for. -/
def asked (queries : List (MigrateQuery ι)) : Int := (queries.map MigrateQuery.num).sum

/-- The query asks `nodeId` for slots for another node. -/
def MigrateQuery.TakesFrom (nodeId : ι) (q : MigrateQuery ι) : Prop :=
  q.node = nodeId ∧ q.dst ≠ nodeId ∧ 0 ≤ q.num

omit [DecidableEq ι] in
theorem asked_nonneg (takes : ∀ q ∈ queries, q.TakesFrom nodeId) : 0 ≤ asked queries := by
  refine List.sum_nonneg ?_
  intro num member
  obtain ⟨q, isIn, rfl⟩ := List.mem_map.mp member
  exact (takes q isIn).2.2

theorem afterQueries_node (takes : ∀ q ∈ queries, q.TakesFrom nodeId) :
    (afterQueries s queries nodeId).slots = (s nodeId).slots.drop (asked queries).toNat := by
  induction queries generalizing s with
  | nil => rfl
  | cons q queries ih =>
      have others := fun q' member => takes q' (List.mem_cons_of_mem q member)
      obtain ⟨isNode, notDst, some_⟩ := takes q List.mem_cons_self
      have more := asked_nonneg others
      have first : (q.exec s nodeId).slots = (s nodeId).slots.drop q.num.toNat := by
        rw [← isNode]
        exact exec_node (isNode ▸ notDst.symm)
      have total : (asked (q :: queries)).toNat = q.num.toNat + (asked queries).toNat := by
        rw [← Int.toNat_add some_ more]
        rfl
      rw [total, ← List.drop_drop, ← first]
      exact ih others

/-! ## The queries of a round -/

/-- The nodes that are to take the slots over. -/
def remaining (nodeId : ι) (nodes : List ι) : List ι := nodes.filter (nodeId ≠ ·)

theorem remaining_cons_self (nodeId : ι) (nodes : List ι) :
    remaining nodeId (nodeId :: nodes) = remaining nodeId nodes :=
  List.filter_cons_of_neg (by simp)

theorem remaining_cons {id : ι} (other : nodeId ≠ id) (nodes : List ι) :
    remaining nodeId (id :: nodes) = id :: remaining nodeId nodes :=
  List.filter_cons_of_pos (by simpa using other)

/-- As long as the quota is there for each of them, each is given it. -/
theorem forgetEach_all {perNode : Int} (some_ : 0 < perNode) {nodes : List ι} {num : Int}
    (enough : perNode * (remaining nodeId nodes).length ≤ num) :
    forgetEach nodeId perNode nodes num =
      (num - perNode * (remaining nodeId nodes).length,
        (remaining nodeId nodes).map fun id => ⟨nodeId, perNode, id⟩) := by
  induction nodes generalizing num with
  | nil =>
      change (num, ([] : List (MigrateQuery ι))) = (num - perNode * ((0 : Nat) : Int), [])
      rw [Nat.cast_zero, mul_zero, sub_zero]
  | cons id nodes ih =>
      by_cases same : nodeId = id
      · subst same
        rw [remaining_cons_self] at enough ⊢
        rw [forgetEach, if_pos rfl, ih enough]
      · rw [remaining_cons same, List.length_cons, Nat.cast_succ, mul_add, mul_one] at enough ⊢
        rw [forgetEach, if_neg same]
        by_cases more : 0 < num - perNode
        · simp only [if_pos more, @ih (num - perNode) (by omega), List.map_cons]
          congr 1
          omega
        · have last : (remaining nodeId nodes).length = 0 := by
            by_contra notLast
            have room : perNode * 1 ≤ perNode * ((remaining nodeId nodes).length : Int) :=
              mul_le_mul_of_nonneg_left (by omega) some_.le
            omega
          rw [List.length_eq_zero_iff] at last
          simp only [if_neg more, last]
          simp

/-- A quota that is all there is goes to the first of them. -/
theorem forgetEach_first {nodes rest : List ι} {id : ι}
    (first : remaining nodeId nodes = id :: rest) (num : Int) :
    forgetEach nodeId num nodes num = (0, [⟨nodeId, num, id⟩]) := by
  induction nodes with
  | nil => cases first
  | cons id' nodes ih =>
      by_cases same : nodeId = id'
      · subst same
        rw [remaining_cons_self] at first
        rw [forgetEach, if_pos rfl, ih first]
      · rw [remaining_cons same] at first
        obtain ⟨rfl, _⟩ := List.cons.inj first
        rw [forgetEach, if_neg same]
        simp

/-! ## The rounds -/

/-- The queries take `num` slots in sum from the node, for the other nodes of the cluster. -/
structure Hands (nodeId : ι) (nodes : List ι) (num : Int) (queries : List (MigrateQuery ι)) :
    Prop where
  takes : ∀ q ∈ queries, q.TakesFrom nodeId
  cluster : ∀ q ∈ queries, q.dst ∈ nodes
  total : asked queries = num

theorem mem_remaining {nodes : List ι} {id : ι} :
    id ∈ remaining nodeId nodes ↔ id ∈ nodes ∧ nodeId ≠ id := by
  simp [remaining]

/-- A round in which each of the other nodes gets as many. -/
theorem Hands.round {nodes : List ι} {perNode : Int} (some_ : 0 ≤ perNode) :
    Hands nodeId nodes (perNode * (remaining nodeId nodes).length)
      ((remaining nodeId nodes).map fun id => ⟨nodeId, perNode, id⟩) where
  takes q member := by
    obtain ⟨id, isIn, rfl⟩ := List.mem_map.mp member
    exact ⟨rfl, (mem_remaining.mp isIn).2.symm, some_⟩
  cluster q member := by
    obtain ⟨id, isIn, rfl⟩ := List.mem_map.mp member
    exact (mem_remaining.mp isIn).1
  total := by
    rw [asked, List.map_map, mul_comm]
    simp [Function.comp_def]

omit [DecidableEq ι] in
theorem Hands.append {nodes : List ι} {num more total : Int} {queries' : List (MigrateQuery ι)}
    (hands : Hands nodeId nodes num queries) (hands' : Hands nodeId nodes more queries')
    (sum : num + more = total) : Hands nodeId nodes total (queries ++ queries') where
  takes q member := (List.mem_append.mp member).elim (hands.takes q) (hands'.takes q)
  cluster q member := (List.mem_append.mp member).elim (hands.cluster q) (hands'.cluster q)
  total := by
    rw [← sum, ← hands.total, ← hands'.total]
    simp [asked]

theorem forgetWhile_done (nodes : List ι) (fuel : Nat) :
    forgetWhile nodeId nodes (fuel + 1) 0 = some (.ok []) := rfl

/-- Fewer slots than nodes: the first node gets them. -/
theorem forgetWhile_few {nodes : List ι} {num : Int} (some_ : 0 ≤ num)
    (others : (nodes.length : Int) - 1 = (remaining nodeId nodes).length)
    (few : num < (remaining nodeId nodes).length) :
    ∃ queries, Hands nodeId nodes num queries ∧
      ∀ fuel, forgetWhile nodeId nodes (fuel + 2) num = some (.ok queries) := by
  by_cases none_ : num = 0
  · subst none_
    exact ⟨[], ⟨by simp, by simp, rfl⟩, fun fuel => forgetWhile_done nodes (fuel + 1)⟩
  · obtain ⟨id, rest, first⟩ := List.exists_cons_of_length_pos
      (show 0 < (remaining nodeId nodes).length by omega)
    have member : id ∈ remaining nodeId nodes := first ▸ List.mem_cons_self
    obtain ⟨isNode, other⟩ := mem_remaining.mp member
    refine ⟨[⟨nodeId, num, id⟩], ⟨?_, ?_, ?_⟩, ?_⟩
    · intro q isIn
      obtain rfl := List.mem_singleton.mp isIn
      exact ⟨rfl, other.symm, some_⟩
    · intro q isIn
      obtain rfl := List.mem_singleton.mp isIn
      exact isNode
    · simp [asked]
    · intro fuel
      have quota : num / ((remaining nodeId nodes).length : Int) = 0 :=
        Int.ediv_eq_zero_of_lt some_ few
      rw [forgetWhile, others, if_pos (by omega), if_neg (by omega), quota]
      simp only [if_pos, forgetEach_first first]
      rfl

theorem forgetWhile_hands {nodes : List ι} {num : Int} (some_ : 0 ≤ num)
    (others : (nodes.length : Int) - 1 = (remaining nodeId nodes).length)
    (notAlone : 0 < (remaining nodeId nodes).length) :
    ∃ queries, Hands nodeId nodes num queries ∧
      ∀ fuel, forgetWhile nodeId nodes (fuel + 3) num = some (.ok queries) := by
  by_cases few : num < (remaining nodeId nodes).length
  · obtain ⟨queries, hands, ran⟩ := forgetWhile_few some_ others few
    exact ⟨queries, hands, fun fuel => ran (fuel + 1)⟩
  · generalize size : ((remaining nodeId nodes).length : Int) = k at others few
    have positive : 0 < k := by omega
    have quota : 1 ≤ num / k := (Int.le_ediv_iff_mul_le positive).mpr (by omega)
    have whole : num / k * k + num % k = num := Int.ediv_mul_add_emod num k
    have rest_nonneg : 0 ≤ num % k := Int.emod_nonneg num positive.ne'
    have rest_few : num % k < (remaining nodeId nodes).length := by
      rw [size]
      exact Int.emod_lt_of_pos num positive
    obtain ⟨queries, hands, ran⟩ := forgetWhile_few rest_nonneg (size ▸ others) rest_few
    have enough : num / k * (remaining nodeId nodes).length ≤ num := by
      rw [size]
      omega
    have round := forgetEach_all quota enough
    refine ⟨(remaining nodeId nodes).map (fun id => ⟨nodeId, num / k, id⟩) ++ queries, ?_, ?_⟩
    · exact (Hands.round (by omega)).append hands (by rw [size]; omega)
    · intro fuel
      rw [forgetWhile, others, if_pos (by omega), if_neg (by omega)]
      simp only [if_neg (show ¬ num / k = 0 by omega), round, size]
      rw [show num - num / k * k = num % k by omega, ran fuel]
      rfl

/-! ## The whole run -/

/-- What the queries do to the slots: none asks the node for more than it has by then, the
node is left with none, each of its slots has one owner among the other nodes, and those
keep theirs. -/
structure HandsOver (nodes : List ι) (s : ι → KeyShard) (nodeId : ι)
    (queries : List (MigrateQuery ι)) : Prop where
  within : ∀ (before : List (MigrateQuery ι)) (q : MigrateQuery ι) (rest : List (MigrateQuery ι)),
     queries = before ++ q :: rest →
    q.node = nodeId ∧ q.num ≤ (afterQueries s before nodeId).slots.length
  emptied : (afterQueries s queries nodeId).slots = []
  owned : ∀ slot ∈ (s nodeId).slots,
    ∃ i ∈ nodes, i ≠ nodeId ∧ ∀ j, slot ∈ (afterQueries s queries j).slots ↔ j = i
  kept : ∀ i, i ≠ nodeId → (s i).slots ⊆ (afterQueries s queries i).slots

theorem Hands.handsOver {nodes : List ι}
    (hands : Hands nodeId nodes (s nodeId).slots.length queries)
    (sole : ∀ i j slot, slot ∈ (s i).slots → slot ∈ (s j).slots → i = j) :
    HandsOver nodes s nodeId queries := by
  have node : ∀ q ∈ queries, q.node = nodeId := fun q member => (hands.takes q member).1
  have emptied : (afterQueries s queries nodeId).slots = [] := by
    rw [afterQueries_node hands.takes, hands.total, Int.toNat_natCast, List.drop_length]
  have part : Partitioned { slot | ∃ i, slot ∈ (s i).slots } (holding s) :=
    { unique := by
        intro slot found
        rcases found with ⟨i, held⟩
        exact ⟨i, held, fun j held' => sole j i slot held' held⟩
      inside := fun i slot held => ⟨i, held⟩ }
  have apart : ∀ q ∈ queries, q.node ≠ q.dst := fun q member same =>
    (hands.takes q member).2.1 (same ▸ node q member)
  have after := partitioned_afterQueries part apart
  exact {
    within := by
      intro before q rest same
      obtain rfl := same
      have inside := fun q' member => hands.takes q' (List.mem_append_left _ member)
      have total : asked before + (q.num + asked rest) = (s nodeId).slots.length := by
        rw [← hands.total]
        simp [asked]
      have nonneg := asked_nonneg fun q' member => hands.takes q'
        (List.mem_append_right before (List.mem_cons_of_mem q member))
      have nonneg' := asked_nonneg inside
      rw [afterQueries_node inside, List.length_drop]
      exact ⟨node q (by simp), by omega⟩
    emptied
    owned := by
      intro slot held
      obtain ⟨i, holds, only⟩ := after.unique slot ⟨nodeId, held⟩
      have notNode : i ≠ nodeId := by
        intro same
        obtain rfl := same
        rw [holding, Set.mem_ofPred_eq, emptied] at holds
        cases holds
      refine ⟨i, ?_, notNode, fun j => ⟨only j, fun same => same ▸ holds⟩⟩
      by_contra outside
      have same : afterQueries s queries i = s i :=
        afterQueries_other (fun q member isNode => notNode (isNode.trans (node q member)))
          fun q member isDst => outside (isDst ▸ hands.cluster q member)
      rw [holding, same] at holds
      exact notNode (sole i nodeId slot holds held)
    kept := fun i notNode =>
      subset_afterQueries fun q member isNode => notNode (isNode.trans (node q member)) }

theorem remaining_eq_erase {nodes : List ι} (nodup : nodes.Nodup) (nodeId : ι) :
    remaining nodeId nodes = nodes.erase nodeId := by
  rw [nodup.erase_eq_filter, remaining]
  refine List.filter_congr ?_
  intro id _
  rw [bne, decide_not, Bool.not_inj_iff, beq_eq_decide, decide_eq_decide]
  exact eq_comm

theorem remaining_length {nodes : List ι} (nodup : nodes.Nodup) (known : nodeId ∈ nodes) :
    (nodes.length : Int) - 1 = (remaining nodeId nodes).length := by
  have positive := List.length_pos_of_mem known
  rw [remaining_eq_erase nodup, List.length_erase_of_mem known]
  omega

/-- The rounds of `CLUSTER FORGET` at a node of the cluster, for another one: they come to an
end without a division by zero, and the slots are handed over. -/
theorem forget_hands_over {nodes : List ι} {localId : ι} (nodup : nodes.Nodup)
    (own : localId ∈ nodes) (known : nodeId ∈ nodes) (other : nodeId ≠ localId)
    (sole : ∀ i j slot, slot ∈ (s i).slots → slot ∈ (s j).slots → i = j) :
    ∃ queries, HandsOver nodes s nodeId queries ∧
      ∀ fuel, clusterForget (fuel + 3) nodes s nodeId = some (.ok queries) := by
  have others := remaining_length nodup known
  have notAlone : 0 < (remaining nodeId nodes).length :=
    List.length_pos_of_mem (mem_remaining.mpr ⟨own, other⟩)
  obtain ⟨queries, hands, ran⟩ := forgetWhile_hands (Int.natCast_nonneg _) others notAlone
  refine ⟨queries, hands.handsOver sole, fun fuel => ?_⟩
  rw [clusterForget, if_neg (not_not_intro known)]
  exact ran fuel

/-- A cluster of three nodes with a slot each at the first two and three at the last. -/
def threeNodes : Fin 3 → KeyShard
  | 0 => ⟨[lit "1"], [], by decide, by decide⟩
  | 1 => ⟨[lit "2"], [], by decide, by decide⟩
  | 2 => ⟨[lit "3", lit "4", lit "5"], [], by decide, by decide⟩

theorem forget_hands_over_threeNodes :
    ∃ queries, HandsOver [0, 1, 2] threeNodes 2 queries ∧
      ∀ fuel, clusterForget (fuel + 3) [0, 1, 2] threeNodes 2 = some (.ok queries) :=
  @forget_hands_over (Fin 3) _ threeNodes 2 [0, 1, 2] 0 (by decide) (by decide) (by decide)
    (by decide) (by
    have apart : ∀ i j, ∀ slot ∈ (threeNodes i).slots, slot ∈ (threeNodes j).slots → i = j := by
      decide
    exact fun i j slot held held' => apart i j slot held held')

end XFireDB
