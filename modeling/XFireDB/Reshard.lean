import XFireDB.Handover
import XFireDB.Lib.Quotas

/-!
# CLUSTER RESHARD

`Cluster#reshard` with the source `all` takes slots from all nodes but the destination, from
the most populated nodes first.
-/

namespace XFireDB

open Lib Lib.Quotas

variable {ι : Type}

/-- `sort_by { |id, num| num }.reverse`; the order of equal counts is open. -/
structure SortBy (ι : Type) where
  sort : List (ι × Nat) → List (ι × Nat)
  perm : ∀ dist, (sort dist).Perm dist
  sorted : ∀ dist, (sort dist).Pairwise fun a b => b.2 ≤ a.2

/-- `shard_dist.each_with_object` in `Cluster#reshard`: what is left of `num` behind it, and
the queries. The counts that the block writes down are in a hash that nothing reads. -/
def reshardEach (dst : ι) (perNode : Int) : List (ι × Nat) → Int → Int × List (MigrateQuery ι)
  | [], num => (num, [])
  | (id, shards) :: dist, num =>
    let x : Int := if perNode ≤ shards then perNode else shards
    let num := num - x
    if num ≤ 0 then (num, [⟨id, x, dst⟩])
    else
      let (left, queries) := reshardEach dst perNode dist num
      (left, ⟨id, x, dst⟩ :: queries)

/-- `while num > 0`, for at most `fuel` rounds. -/
def reshardWhile (sortBy : SortBy ι) (dst : ι) :
    Nat → List (ι × Nat) → Int → Option (Except ZeroDivisionError (List (MigrateQuery ι)))
  | 0, _, _ => none
  | fuel + 1, shardDist, num =>
    if 0 < num then
      let shardDist := shardDist.filter fun node => node.2 ≠ 0
      if shardDist.length = 0 then some (.error .raised)
      else
        let perNode := num / shardDist.length
        let perNode := if perNode = 0 then num else perNode
        let shardDist := sortBy.sort shardDist
        let (left, queries) := reshardEach dst perNode shardDist num
        (reshardWhile sortBy dst fuel shardDist left).map (·.map (queries ++ ·))
    else some (.ok [])

/-- `Cluster#reshard` at a node that knows `nodes`: the reply, and the queries it sends. -/
def clusterReshard (sortBy : SortBy RStr) (fuel : Nat) (nodes : List RStr) (s : RStr → KeyShard)
    (num : Int) (src dst : RStr) :
    Option (Except ZeroDivisionError (RStr × List (MigrateQuery RStr))) :=
  if src = lit "all" then
    if dst ∉ nodes then some (.ok (lit "Destination node not known", []))
    else
      let shardDist := nodes.map fun id => (id, (s id).slots.length)
      let total : Int := 16384 - (s dst).slots.length
      if total < num then some (.ok (lit "Reshard operation not possible", []))
      else
        let shardDist := shardDist.filter fun node => node.1 ≠ dst
        (reshardWhile sortBy dst fuel shardDist num).map (·.map fun queries => (lit "OK", queries))
  else if src ∈ nodes ∧ dst ∈ nodes then some (.ok (lit "OK", [⟨src, num, dst⟩]))
  else some (.ok (lit "Source or destination not known", []))

/-! ## One round -/

variable {dst : ι} {dist : List (ι × Nat)} {s : ι → KeyShard}

/-- The slot counts of a distribution. -/
def counts (dist : List (ι × Nat)) : List Nat := dist.map Prod.snd

/-- The queries to nodes that are each asked for the quota or for all they have. -/
def offers (dst : ι) (quota : Nat) (dist : List (ι × Nat)) : List (MigrateQuery ι) :=
  dist.map fun node => ⟨node.1, (min quota node.2 : Nat), dst⟩

theorem asked_of_node (quota shards : Nat) :
    (if (quota : Int) ≤ shards then (quota : Int) else shards) = (min quota shards : Nat) := by
  split <;> omega

/-- A quota that is there for all nodes is taken from all. -/
theorem reshardEach_all {quota num : Nat} (some_ : 0 < quota)
    (positive : ∀ x ∈ counts dist, 0 < x) (enough : share quota (counts dist) ≤ num) :
    reshardEach dst quota dist num =
      (((num - share quota (counts dist) : Nat) : Int), offers dst quota dist) := by
  induction dist generalizing num with
  | nil => rfl
  | cons node dist ih =>
      rcases node with ⟨id, shards⟩
      obtain ⟨first, others⟩ := List.forall_mem_cons.mp positive
      change min quota shards + share quota (counts dist) ≤ num at enough
      have total : share quota (counts ((id, shards) :: dist)) =
        min quota shards + share quota (counts dist) := rfl
      rw [reshardEach, asked_of_node, total]
      dsimp only
      by_cases last : (num : Int) - (min quota shards : Nat) ≤ 0
      · have length : (counts dist).length ≤ share quota (counts dist) :=
          length_le_share some_ others
        have empty : counts dist = [] := List.length_eq_zero_iff.mp (by omega)
        obtain rfl : dist = [] := List.map_eq_nil_iff.mp empty
        rw [if_pos last]
        refine Prod.ext ?_ rfl
        dsimp only
        omega
      · rw [if_neg last, show (num : Int) - (min quota shards : Nat) =
          ((num - min quota shards : Nat) : Int) by omega, ih others (by omega)]
        refine Prod.ext ?_ rfl
        dsimp only
        omega

/-- In the last round each node is asked for all that is left, until that many were asked
for. -/
theorem reshardEach_last (dst : ι) {f num : Nat} (some_ : 0 < num) (most : num ≤ f)
    (enough : num ≤ (counts dist).sum) :
    ∃ front back, dist = front ++ back ∧ counts front = reach num (counts dist) ∧
      (reshardEach dst f dist num).2 = offers dst f front ∧ (reshardEach dst f dist num).1 ≤ 0 := by
  induction dist generalizing num with
  | nil =>
      have none_ : num ≤ 0 := enough
      omega
  | cons node dist ih =>
      rcases node with ⟨id, shards⟩
      change num ≤ shards + (counts dist).sum at enough
      rw [reshardEach, asked_of_node]
      dsimp only
      by_cases last : num ≤ shards
      · refine ⟨[(id, shards)], dist, rfl, (reach_first last (counts dist)).symm, ?_, ?_⟩
        · rw [if_pos (by omega)]
          rfl
        · rw [if_pos (by omega)]
          dsimp only
          omega
      · obtain ⟨front, back, split, reached, queries, left⟩ := @ih (num - shards) (by omega)
          (by omega) (by omega)
        have rest : (num : Int) - (min f shards : Nat) = ((num - shards : Nat) : Int) := by omega
        rw [rest, if_neg (by omega)]
        refine ⟨(id, shards) :: front, back, by rw [split, List.cons_append], ?_, ?_, left⟩
        · change shards :: counts front = reach num (shards :: counts dist)
          rw [reach, if_neg last, reached]
        · change _ :: (reshardEach dst f dist _).2 = _
          rw [queries]
          rfl

/-! ## The order of the nodes -/

/-- The counts in the order of the rounds. -/
def descending (counts : List Nat) : List Nat := counts.mergeSort fun a b => decide (b ≤ a)

theorem descending_perm (counts : List Nat) : (descending counts).Perm counts :=
  List.mergeSort_perm counts _

theorem descending_sorted (counts : List Nat) : (descending counts).Pairwise fun a b => b ≤ a := by
  have sorted := @List.pairwise_mergeSort Nat (fun a b => decide (b ≤ a))
    (fun a b c => by simpa using fun first second => second.trans first)
    (fun a b => by simpa using Nat.le_total b a) counts
  simpa [descending] using sorted

/-- Whatever order the nodes come in, their counts come in this one. -/
theorem counts_sort (sortBy : SortBy ι) (dist : List (ι × Nat)) :
    counts (sortBy.sort dist) = descending (counts dist) := by
  have perm := ((sortBy.perm dist).map Prod.snd).trans (descending_perm (counts dist)).symm
  exact perm.eq_of_pairwise (fun a b _ _ first second => le_antisymm second first)
    (List.pairwise_map.mpr (sortBy.sorted dist)) (descending_sorted (counts dist))

theorem descending_congr {l l' : List Nat} (same : l.Perm l') : descending l = descending l' :=
  (((descending_perm l).trans same).trans (descending_perm l').symm).eq_of_pairwise
    (fun _ _ _ _ first second => le_antisymm second first) (descending_sorted l)
    (descending_sorted l')

theorem descending_counts_sort (sortBy : SortBy ι) (dist : List (ι × Nat)) :
    descending (counts (sortBy.sort dist)) = counts (sortBy.sort dist) :=
  (descending_congr ((sortBy.perm dist).map Prod.snd)).trans (counts_sort sortBy dist).symm

/-- One round of the loop, for a distribution without empty nodes. -/
theorem reshardWhile_succ (sortBy : SortBy ι) (fuel : Nat) {n : Nat} (some_ : 0 < n)
    (positive : ∀ node ∈ dist, 0 < node.2) (places : dist ≠ []) :
    reshardWhile sortBy dst (fuel + 1) dist n =
      (reshardWhile sortBy dst fuel (sortBy.sort dist)
        (reshardEach dst ((if n / dist.length = 0 then n else n / dist.length : Nat))
          (sortBy.sort dist) n).1).map (·.map
            ((reshardEach dst ((if n / dist.length = 0 then n else n / dist.length : Nat))
              (sortBy.sort dist) n).2 ++ ·)) := by
  have kept : dist.filter (fun node => node.2 ≠ 0) = dist := by
    refine List.filter_eq_self.mpr ?_
    intro node member
    simpa using (positive node member).ne'
  have length := List.length_pos_iff.mpr places
  have quota :
      (if (n : Int) / (dist.length : Int) = 0 then (n : Int) else (n : Int) / dist.length) =
      ((if n / dist.length = 0 then n else n / dist.length : Nat) : Int) := by
    push_cast
    norm_cast
  rw [reshardWhile, if_pos (by omega), kept, if_neg (by omega)]
  dsimp only
  rw [quota]

theorem reshardWhile_done (sortBy : SortBy ι) (fuel : Nat) (dist : List (ι × Nat)) {num : Int}
    (done : num ≤ 0) : reshardWhile sortBy dst (fuel + 1) dist num = some (.ok []) := by
  rw [reshardWhile, if_neg (not_lt.mpr done)]

theorem reshardWhile_filter (sortBy : SortBy ι) (fuel : Nat) (dist : List (ι × Nat)) (num : Int) :
    reshardWhile sortBy dst fuel (dist.filter fun node => node.2 ≠ 0) num =
      reshardWhile sortBy dst fuel dist num := by
  cases fuel with
  | zero => rfl
  | succ fuel =>
      rw [reshardWhile, reshardWhile, List.filter_filter]
      simp only [Bool.and_self]

theorem rounds_descending_few {n : Nat} (few : n < dist.length) :
    rounds (descending (counts dist)) n = (0, n) := by
  apply rounds_few
  rw [(descending_perm (counts dist)).length_eq, counts, List.length_map]
  exact few

/-! ## What the nodes have left -/

/-- Nodes with their counts at the start, after rounds with `quota` slots from each in sum. -/
structure Offered (dst : ι) (dist : List (ι × Nat)) (quota : Nat) (s : ι → KeyShard) : Prop where
  distinct : (dist.map Prod.fst).Nodup
  others : ∀ node ∈ dist, node.1 ≠ dst
  positive : ∀ node ∈ dist, 0 < node.2
  left : ∀ node ∈ dist, (s node.1).slots.length = node.2 - quota

/-- The slots that the nodes have. -/
def owned (s : ι → KeyShard) (ids : List ι) : Nat := (ids.map fun id => (s id).slots.length).sum

variable {quota : Nat}

theorem Offered.perm (offered : Offered dst dist quota s) {dist' : List (ι × Nat)}
    (same : dist'.Perm dist) : Offered dst dist' quota s where
  distinct := (same.map Prod.fst).nodup_iff.mpr offered.distinct
  others node member := offered.others node (same.mem_iff.mp member)
  positive node member := offered.positive node (same.mem_iff.mp member)
  left node member := offered.left node (same.mem_iff.mp member)

theorem Offered.positive_counts (offered : Offered dst dist quota s) :
    ∀ x ∈ counts dist, 0 < x := by
  intro x member
  obtain ⟨node, isIn, rfl⟩ := List.mem_map.mp member
  exact offered.positive node isIn

theorem owned_perm (s : ι → KeyShard) {ids ids' : List ι} (same : ids.Perm ids') :
    owned s ids = owned s ids' :=
  (same.map _).sum_eq

variable [DecidableEq ι]

/-- Queries to different nodes take from each what it is asked for. -/
theorem length_afterQueries {queries : List (MigrateQuery ι)} {q : MigrateQuery ι}
    (distinct : (queries.map MigrateQuery.node).Nodup)
    (dsts : ∀ q ∈ queries, q.dst = dst ∧ q.node ≠ dst) (member : q ∈ queries) :
    (afterQueries s queries q.node).slots.length = (s q.node).slots.length - q.num.toNat := by
  induction queries generalizing s with
  | nil => cases member
  | cons first queries ih =>
      obtain ⟨fresh, distinct'⟩ := List.nodup_cons.mp distinct
      obtain ⟨⟨isDst, notDst⟩, dsts'⟩ := List.forall_mem_cons.mp dsts
      change (afterQueries (first.exec s) queries q.node).slots.length = _
      rcases List.mem_cons.mp member with rfl | later
      · have kept : afterQueries (q.exec s) queries q.node = q.exec s q.node := by
          refine afterQueries_other ?_ ?_
          · intro q' isIn same
            exact fresh (same ▸ List.mem_map_of_mem isIn)
          · intro q' isIn same
            exact notDst (same.trans (dsts' q' isIn).1)
        rw [kept, exec_node (isDst ▸ notDst), List.length_drop]
      · have other : q.node ≠ first.node := fun same => fresh (same ▸ List.mem_map_of_mem later)
        have notDst' : q.node ≠ first.dst := isDst ▸ (dsts' q later).2
        rw [ih distinct' dsts' later, exec_other other notDst']

/-- A node that is offered to after some others is asked for what it had. -/
theorem Offered.length_after (offered : Offered dst dist quota s) (more : Nat)
    {front : List (ι × Nat)} (sub : front.Sublist dist) {node : ι × Nat} (member : node ∈ front) :
    (afterQueries s (offers dst more front) node.1).slots.length =
      node.2 - quota - min more node.2 := by
  have nodes : (offers dst more front).map MigrateQuery.node = front.map Prod.fst := by
    rw [offers, List.map_map]
    rfl
  have distinct : ((offers dst more front).map MigrateQuery.node).Nodup := by
    rw [nodes]
    exact offered.distinct.sublist (sub.map Prod.fst)
  have dsts : ∀ q ∈ offers dst more front, q.dst = dst ∧ q.node ≠ dst := by
    intro q isIn
    obtain ⟨node', isIn', rfl⟩ := List.mem_map.mp isIn
    exact ⟨rfl, offered.others node' (sub.subset isIn')⟩
  have asked := length_afterQueries (s := s) distinct dsts (List.mem_map_of_mem member)
  rw [asked]
  dsimp only
  rw [offered.left node (sub.subset member), Int.toNat_natCast]

/-- After a round with a quota from each. -/
theorem Offered.round (offered : Offered dst dist quota s) (more : Nat) :
    Offered dst dist (quota + more) (afterQueries s (offers dst more dist)) where
  distinct := offered.distinct
  others := offered.others
  positive := offered.positive
  left node member := by
    rw [offered.length_after more (List.Sublist.refl dist) member]
    omega

theorem sum_map_add_of_eq {α : Type} {l : List α} {f g h : α → Nat}
    (sum : ∀ x ∈ l, f x + g x = h x) : (l.map f).sum + (l.map g).sum = (l.map h).sum := by
  rw [← List.sum_map_add, List.map_congr_left sum]

/-- After the last round, which comes to the front of the list only. -/
theorem Offered.last (offered : Offered dst dist quota s) (f : Nat) {front back : List (ι × Nat)}
    (split : dist = front ++ back) :
    owned (afterQueries s (offers dst f front)) (dist.map Prod.fst) +
        ((counts front).map fun x => min f (x - quota)).sum =
      ((counts dist).map fun x => x - quota).sum := by
  have sub : front.Sublist dist := split ▸ List.sublist_append_left front back
  have asked : ∀ node ∈ front, (afterQueries s (offers dst f front) node.1).slots.length +
      min f (node.2 - quota) = node.2 - quota := by
    intro node member
    rw [offered.length_after f sub member]
    omega
  have kept : ∀ node ∈ back, (afterQueries s (offers dst f front) node.1).slots.length =
      node.2 - quota := by
    intro node member
    have isIn : node ∈ dist := split ▸ List.mem_append_right front member
    have other : afterQueries s (offers dst f front) node.1 = s node.1 := by
      refine afterQueries_other ?_ ?_
      · intro q isQuery same
        obtain ⟨node', member', rfl⟩ := List.mem_map.mp isQuery
        have distinct := offered.distinct
        rw [split, List.map_append] at distinct
        have isOther : node.1 = node'.1 := same
        exact List.disjoint_of_nodup_append distinct (List.mem_map_of_mem member')
          (isOther ▸ List.mem_map_of_mem member)
      · intro q isQuery same
        obtain ⟨node', member', rfl⟩ := List.mem_map.mp isQuery
        exact offered.others node isIn same
    rw [other, offered.left node isIn]
  have inFront := sum_map_add_of_eq asked
  have inBack := congrArg List.sum (List.map_congr_left kept)
  subst split
  simp only [owned, counts, List.map_append, List.map_map, List.sum_append, Function.comp_def]
  omega

/-! ## The rounds -/

/-- What queries leave at the nodes of a distribution when `n` slots are asked for. -/
structure Leaves (dst : ι) (dist : List (ι × Nat)) (quota : Nat) (s : ι → KeyShard) (n : Nat)
    (queries : List (MigrateQuery ι)) : Prop where
  cluster : ∀ q ∈ queries, q.node ∈ dist.map Prod.fst ∧ q.dst = dst
  left : owned (afterQueries s queries) (dist.map Prod.fst) +
      ((reach (rounds (descending (counts dist)) n).2 (descending (counts dist))).map fun x =>
        min (rounds (descending (counts dist)) n).2
          (x - (quota + (rounds (descending (counts dist)) n).1))).sum =
    ((counts dist).map fun x => x - (quota + (rounds (descending (counts dist)) n).1)).sum

theorem Leaves.perm {n : Nat} {queries : List (MigrateQuery ι)} {dist' : List (ι × Nat)}
    (leaves : Leaves dst dist' quota s n queries) (same : dist'.Perm dist) :
    Leaves dst dist quota s n queries where
  cluster q member := by
    obtain ⟨node, isDst⟩ := leaves.cluster q member
    exact ⟨(same.map Prod.fst).mem_iff.mp node, isDst⟩
  left := by
    have order : descending (counts dist') = descending (counts dist) :=
      descending_congr (same.map Prod.snd)
    have left := leaves.left
    rw [order, owned_perm _ (same.map Prod.fst)] at left
    exact left.trans ((same.map Prod.snd).map _).sum_eq

theorem Offered.leaves_nothing (offered : Offered dst dist quota s) :
    Leaves dst dist quota s 0 [] where
  cluster q member := by cases member
  left := by
    have start : rounds (descending (counts dist)) 0 = (0, 0) := by
      rw [rounds, Nat.zero_div, share_zero, if_neg (lt_irrefl 0)]
    have kept := congrArg List.sum (List.map_congr_left offered.left)
    rw [start]
    simpa [owned, counts, afterQueries, Function.comp_def] using kept

/-- Fewer slots than nodes are taken in one last round. -/
theorem Offered.leaves_few (offered : Offered dst dist quota s) (sortBy : SortBy ι) {n : Nat}
    (some_ : 0 < n) (few : n < dist.length) :
    ∃ queries, Leaves dst dist quota s n queries ∧
      ∀ fuel, reshardWhile sortBy dst (fuel + 2) dist n = some (.ok queries) := by
  have places : dist ≠ [] := List.length_pos_iff.mp (Nat.zero_lt_of_lt few)
  have sorted := offered.perm (sortBy.perm dist)
  have order := descending_counts_sort sortBy dist
  have few' : n < (sortBy.sort dist).length := (sortBy.perm dist).length_eq ▸ few
  have enough : n ≤ (counts (sortBy.sort dist)).sum := by
    have length := List.length_le_sum_of_one_le (counts (sortBy.sort dist)) sorted.positive_counts
    rw [counts, List.length_map] at length
    exact few'.le.trans length
  obtain ⟨front, back, split, reached, queries, left⟩ := reshardEach_last dst some_ le_rfl enough
  have leaves : Leaves dst (sortBy.sort dist) quota s n (offers dst n front) :=
    { cluster := by
        intro q member
        obtain ⟨node, isIn, rfl⟩ := List.mem_map.mp member
        rw [split]
        exact ⟨List.mem_map_of_mem (List.mem_append_left back isIn), rfl⟩
      left := by
        rw [rounds_descending_few few', order, ← reached]
        exact sorted.last n split }
  refine ⟨_, leaves.perm (sortBy.perm dist), ?_⟩
  intro fuel
  rw [reshardWhile_succ sortBy _ some_ offered.positive places, Nat.div_eq_of_lt few, if_pos rfl,
    queries, reshardWhile_done sortBy _ _ left]
  change some (Except.ok (offers dst n front ++ [])) = _
  rw [List.append_nil]

/-- A round in which all nodes are asked for the quota comes before the others. -/
theorem Leaves.round (sortBy : SortBy ι) (offered : Offered dst dist quota s) {n : Nat}
    {queries : List (MigrateQuery ι)} (places : dist ≠ []) (many : dist.length ≤ n)
    (later : Leaves dst (sortBy.sort dist) (quota + n / dist.length)
      (afterQueries s (offers dst (n / dist.length) (sortBy.sort dist)))
      (n - share (n / dist.length) (counts (sortBy.sort dist))) queries) :
    Leaves dst dist quota s n (offers dst (n / dist.length) (sortBy.sort dist) ++ queries) := by
  have sorted := offered.perm (sortBy.perm dist)
  have length : (counts (sortBy.sort dist)).length = dist.length := by
    rw [counts, List.length_map, (sortBy.perm dist).length_eq]
  have some_ : counts (sortBy.sort dist) ≠ [] := by
    rw [← List.length_pos_iff, length]
    exact List.length_pos_iff.mpr places
  have split := rounds_many sorted.positive_counts some_ (length.trans_le many)
  rw [length] at split
  have leaves : Leaves dst (sortBy.sort dist) quota s n
      (offers dst (n / dist.length) (sortBy.sort dist) ++ queries) :=
    { cluster := by
        intro q member
        rcases List.mem_append.mp member with first | rest
        · obtain ⟨node, isIn, rfl⟩ := List.mem_map.mp first
          exact ⟨List.mem_map_of_mem isIn, rfl⟩
        · exact later.cluster q rest
      left := by
        have left := later.left
        rw [descending_counts_sort] at left ⊢
        rw [split, afterQueries_append]
        simpa only [add_assoc] using left }
  exact leaves.perm (sortBy.perm dist)

/-- The loop comes to an end, and its queries leave what the rounds of quotas leave. -/
theorem Offered.leaves (sortBy : SortBy ι) (n : Nat) (offered : Offered dst dist quota s)
    (places : dist ≠ [] ∨ n = 0) :
    ∃ queries, Leaves dst dist quota s n queries ∧
      ∀ fuel, n < fuel → reshardWhile sortBy dst fuel dist n = some (.ok queries) := by
  induction n using Nat.strong_induction_on generalizing dist quota s with
  | _ n ih =>
      by_cases done : n = 0
      · subst done
        refine ⟨[], offered.leaves_nothing, ?_⟩
        intro fuel enough
        obtain ⟨fuel, rfl⟩ := Nat.exists_eq_add_of_lt enough
        rw [Nat.zero_add]
        exact reshardWhile_done sortBy fuel dist le_rfl
      have some_ := Nat.pos_of_ne_zero done
      have notEmpty := places.resolve_right done
      by_cases few : n < dist.length
      · obtain ⟨queries, leaves, ran⟩ := offered.leaves_few sortBy some_ few
        refine ⟨queries, leaves, ?_⟩
        intro fuel enough
        obtain ⟨fuel, rfl⟩ := Nat.exists_eq_add_of_le' (show 2 ≤ fuel by omega)
        exact ran fuel
      · have sorted := offered.perm (sortBy.perm dist)
        have length := List.length_pos_iff.mpr notEmpty
        have quota_pos := Nat.div_pos (not_lt.mp few) length
        have some_left : sortBy.sort dist ≠ [] := by
          rw [← List.length_pos_iff, (sortBy.perm dist).length_eq]
          exact length
        have asked := length_le_share quota_pos sorted.positive_counts
        have most := share_div_le (counts (sortBy.sort dist)) n
        rw [counts, List.length_map, (sortBy.perm dist).length_eq] at asked most
        obtain ⟨queries, leaves, ran⟩ :=
          ih (n - share (n / dist.length) (counts (sortBy.sort dist)))
          (by rw [counts]; omega) (sorted.round (n / dist.length)) (Or.inl some_left)
        refine ⟨_, leaves.round sortBy offered notEmpty (not_lt.mp few), ?_⟩
        intro fuel enough
        obtain ⟨fuel, rfl⟩ := Nat.exists_eq_add_of_le' (show 1 ≤ fuel by omega)
        rw [reshardWhile_succ sortBy fuel some_ offered.positive notEmpty, if_neg quota_pos.ne',
          reshardEach_all quota_pos sorted.positive_counts most, ran fuel (by rw [counts]; omega)]
        rfl

/-! ## The whole run -/

/-- The slots are with the nodes of the cluster, each with one. -/
structure Assigned (nodes : List ι) (s : ι → KeyShard) : Prop where
  distinct : nodes.Nodup
  once : Partitioned { slot | slot ∈ allSlots } (holding s)
  inside : ∀ i slot, slot ∈ (s i).slots → i ∈ nodes

variable {nodes : List ι}

omit [DecidableEq ι] in
theorem Assigned.owned_eq (assigned : Assigned nodes s) : owned s nodes = 16384 := by
  have nodup : (nodes.flatMap fun i => (s i).slots).Nodup := by
    rw [List.nodup_flatMap]
    refine ⟨fun i _ => (s i).slotsNodup, assigned.distinct.imp_of_mem ?_⟩
    intro i j _ _ other slot first second
    exact other ((assigned.once.unique slot (assigned.once.inside i first)).unique first second)
  have same : (nodes.flatMap fun i => (s i).slots).Perm allSlots := by
    rw [List.perm_ext_iff_of_nodup nodup nodup_allSlots]
    intro slot
    rw [List.mem_flatMap]
    constructor
    · intro found
      rcases found with ⟨i, _, held⟩
      exact assigned.once.inside i held
    · intro member
      obtain ⟨i, held, _⟩ := assigned.once.unique slot member
      exact ⟨i, assigned.inside i slot held, held⟩
  have length := same.length_eq
  rw [List.length_flatMap] at length
  exact length.trans length_allSlots

theorem owned_remaining (s : ι → KeyShard) (distinct : nodes.Nodup) (known : dst ∈ nodes) :
    owned s nodes = (s dst).slots.length + owned s (remaining dst nodes) := by
  rw [owned_perm s (List.perm_cons_erase known), remaining_eq_erase distinct]
  rfl

theorem Assigned.afterQueries (assigned : Assigned nodes s) (known : dst ∈ nodes)
    {queries : List (MigrateQuery ι)}
    (others : ∀ q ∈ queries, q.node ∈ remaining dst nodes ∧ q.dst = dst) :
    Assigned nodes (afterQueries s queries) where
  distinct := assigned.distinct
  once := by
    refine partitioned_afterQueries assigned.once ?_
    intro q member same
    obtain ⟨other, isDst⟩ := others q member
    exact (mem_remaining.mp other).2 (isDst.symm.trans same.symm)
  inside := by
    intro i slot held
    by_contra outside
    have kept : XFireDB.afterQueries s queries i = s i := by
      refine afterQueries_other ?_ ?_
      · intro q member same
        obtain rfl := same
        exact outside (mem_remaining.mp (others q member).1).1
      · intro q member same
        obtain rfl := same
        exact outside ((others q member).2 ▸ known)
    rw [kept] at held
    exact outside (assigned.inside i slot held)

/-- The other nodes that have slots, with their counts. -/
def populated (nodes : List ι) (s : ι → KeyShard) (dst : ι) : List (ι × Nat) :=
  ((nodes.map fun id => (id, (s id).slots.length)).filter fun node => node.1 ≠ dst).filter
    fun node => node.2 ≠ 0

theorem mem_populated {node : ι × Nat} : node ∈ populated nodes s dst ↔
    node.1 ∈ remaining dst nodes ∧ (s node.1).slots.length = node.2 ∧ node.2 ≠ 0 := by
  rcases node with ⟨id, count⟩
  simp only [populated, List.mem_filter, List.mem_map, Prod.mk.injEq, decide_eq_true_eq,
    mem_remaining]
  constructor
  · intro found
    obtain ⟨⟨⟨_, isNode, rfl, rfl⟩, other⟩, some_⟩ := found
    exact ⟨⟨isNode, Ne.symm other⟩, rfl, some_⟩
  · intro found
    rcases found with ⟨⟨isNode, other⟩, rfl, some_⟩
    exact ⟨⟨⟨id, isNode, rfl, rfl⟩, Ne.symm other⟩, some_⟩

theorem offered_populated (distinct : nodes.Nodup) :
    Offered dst (populated nodes s dst) 0 s where
  distinct := by
    have ids : (nodes.map fun id => (id, (s id).slots.length)).map Prod.fst = nodes := by
      rw [List.map_map]
      exact List.map_id nodes
    have sub := (List.filter_sublist (p := fun node : ι × Nat => node.2 ≠ 0)).trans
      (List.filter_sublist (p := fun node : ι × Nat => node.1 ≠ dst)
        (l := nodes.map fun id => (id, (s id).slots.length)))
    exact (ids ▸ distinct).sublist (sub.map Prod.fst)
  others node member := (mem_remaining.mp (mem_populated.mp member).1).2.symm
  positive node member := Nat.pos_of_ne_zero (mem_populated.mp member).2.2
  left node member := (mem_populated.mp member).2.1

/-- Nodes without slots do not count. -/
theorem owned_populated {s' : ι → KeyShard} (nodes : List ι)
    (empty : ∀ i ∈ remaining dst nodes, (s i).slots.length = 0 → (s' i).slots.length = 0) :
    owned s' ((populated nodes s dst).map Prod.fst) = owned s' (remaining dst nodes) := by
  induction nodes with
  | nil => rfl
  | cons id nodes ih =>
      by_cases isDst : dst = id
      · subst isDst
        rw [remaining_cons_self] at empty ⊢
        have same : populated (dst :: nodes) s dst = populated nodes s dst := by
          simp [populated]
        rw [same, ih empty]
      · rw [remaining_cons isDst] at empty ⊢
        obtain ⟨first, others⟩ := List.forall_mem_cons.mp empty
        have rest := ih others
        by_cases none_ : (s id).slots.length = 0
        · have same : populated (id :: nodes) s dst = populated nodes s dst := by
            simp [populated, Ne.symm isDst, List.length_eq_zero_iff.mp none_]
          rw [same, rest, owned, owned, List.map_cons, List.sum_cons, first none_, Nat.zero_add]
        · have same : populated (id :: nodes) s dst =
              (id, (s id).slots.length) :: populated nodes s dst := by
            rw [populated, List.map_cons, List.filter_cons_of_pos (by simpa using Ne.symm isDst),
              List.filter_cons_of_pos (by simpa using none_)]
            rfl
          rw [same]
          simp only [owned, List.map_cons, List.sum_cons] at rest ⊢
          rw [rest]

/-- The other nodes have lost what the rounds of quotas give. -/
theorem owned_given (assigned : Assigned nodes s) (sortBy : SortBy ι) (known : dst ∈ nodes)
    {n : Nat} (possible : n + (s dst).slots.length ≤ 16384) :
    n ≤ (descending (counts (populated nodes s dst))).sum ∧
      ∃ queries, Assigned nodes (afterQueries s queries) ∧
        owned (afterQueries s queries) (remaining dst nodes) +
            given (descending (counts (populated nodes s dst))) n =
          owned s (remaining dst nodes) ∧
        ∀ fuel, n < fuel →
          reshardWhile sortBy dst fuel (populated nodes s dst) n = some (.ok queries) := by
  have offered : Offered dst (populated nodes s dst) 0 s := offered_populated assigned.distinct
  have order := descending_perm (counts (populated nodes s dst))
  have start : owned s (remaining dst nodes) = (counts (populated nodes s dst)).sum := by
    rw [← owned_populated nodes fun i _ none_ => none_, owned, List.map_map, counts]
    exact congrArg List.sum (List.map_congr_left offered.left)
  have all := owned_remaining s assigned.distinct known
  rw [assigned.owned_eq] at all
  have enough : n ≤ (counts (populated nodes s dst)).sum := by omega
  have places : populated nodes s dst ≠ [] ∨ n = 0 := by
    by_cases none_ : populated nodes s dst = []
    · rw [none_] at enough
      exact Or.inr (Nat.le_zero.mp enough)
    · exact Or.inl none_
  obtain ⟨queries, leaves, ran⟩ := offered.leaves sortBy n places
  have others : ∀ q ∈ queries, q.node ∈ remaining dst nodes ∧ q.dst = dst := by
    intro q member
    obtain ⟨isNode, isDst⟩ := leaves.cluster q member
    obtain ⟨node, isIn, same⟩ := List.mem_map.mp isNode
    exact ⟨same ▸ (mem_populated.mp isIn).1, isDst⟩
  refine ⟨order.sum_eq ▸ enough, queries, assigned.afterQueries known others, ?_, ran⟩
  have empty : ∀ i ∈ remaining dst nodes, (s i).slots.length = 0 →
      (afterQueries s queries i).slots.length = 0 := by
    intro i member none_
    have kept : afterQueries s queries i = s i := by
      refine afterQueries_other ?_ ?_
      · intro q isQuery same
        obtain rfl := same
        obtain ⟨node, isIn, same⟩ := List.mem_map.mp (leaves.cluster q isQuery).1
        obtain ⟨_, count, some_⟩ := mem_populated.mp isIn
        rw [same, none_] at count
        exact some_ count.symm
      · intro q isQuery same
        obtain rfl := same
        exact (mem_remaining.mp member).2 (leaves.cluster q isQuery).2.symm
    rw [kept, none_]
  have left := leaves.left
  have split := share_add_rest (rounds (descending (counts (populated nodes s dst))) n).1
    (counts (populated nodes s dst))
  rw [owned_populated nodes empty, Nat.zero_add] at left
  rw [given, start, share_perm _ order]
  omega

section Cluster

variable {nodes : List RStr} {s : RStr → KeyShard} {dst : RStr}

/-- The command moves `num` slots from the other nodes to the destination. -/
def MovesExactly (sortBy : SortBy RStr) (nodes : List RStr) (s : RStr → KeyShard) (num : Nat)
    (dst : RStr) : Prop :=
  ∃ queries, (∀ fuel, num < fuel →
      clusterReshard sortBy fuel nodes s num (lit "all") dst = some (.ok (lit "OK", queries))) ∧
    (afterQueries s queries dst).slots.length = (s dst).slots.length + num ∧
    owned (afterQueries s queries) (remaining dst nodes) + num = owned s (remaining dst nodes)

theorem clusterReshard_all (sortBy : SortBy RStr) (known : dst ∈ nodes) {num : Nat}
    (possible : num + (s dst).slots.length ≤ 16384) (fuel : Nat) :
    clusterReshard sortBy fuel nodes s num (lit "all") dst =
      (reshardWhile sortBy dst fuel (populated nodes s dst) num).map
        (·.map fun queries => (lit "OK", queries)) := by
  rw [clusterReshard, if_pos rfl, if_neg (not_not_intro known)]
  dsimp only
  rw [if_neg (by omega), populated, reshardWhile_filter]

/-- The slots that move are those that the rounds of quotas give. -/
theorem reshard_given (assigned : Assigned nodes s) (sortBy : SortBy RStr) (known : dst ∈ nodes)
    {num : Nat} (possible : num + (s dst).slots.length ≤ 16384) :
    (∃ queries, ∀ fuel, num < fuel →
        clusterReshard sortBy fuel nodes s num (lit "all") dst = some (.ok (lit "OK", queries))) ∧
      (MovesExactly sortBy nodes s num dst ↔
        given (descending (counts (populated nodes s dst))) num = num) := by
  obtain ⟨_, queries, assigned', lost, ran⟩ := owned_given assigned sortBy known possible
  have replied : ∀ fuel, num < fuel →
      clusterReshard sortBy fuel nodes s num (lit "all") dst = some (.ok (lit "OK", queries)) := by
    intro fuel enough
    rw [clusterReshard_all sortBy known possible, ran fuel enough]
    rfl
  have before := owned_remaining s assigned.distinct known
  have after := owned_remaining (afterQueries s queries) assigned.distinct known
  rw [assigned.owned_eq] at before
  rw [assigned'.owned_eq] at after
  refine ⟨⟨queries, replied⟩, ?_⟩
  constructor
  · intro found
    rcases found with ⟨queries', replied', _, others⟩
    have same := (replied (num + 1) (Nat.lt_succ_self num)).symm.trans
      (replied' (num + 1) (Nat.lt_succ_self num))
    obtain rfl : queries = queries' := by simpa using same
    omega
  · intro exactly
    exact ⟨queries, replied, by omega, by omega⟩

/-- With all nodes answering, the command always comes to an end with `OK`. It moves as many
slots as it was asked to if the counts of the other nodes, in descending order, are such that
the rounds of quotas give that number, and in no other case where there is one round of equal
quotas at most or the largest count is almost the number of nodes. -/
theorem reshard_all_iff (assigned : Assigned nodes s) (sortBy : SortBy RStr) (known : dst ∈ nodes)
    {num : Nat} (possible : num + (s dst).slots.length ≤ 16384) :
    (∃ queries, ∀ fuel, num < fuel →
        clusterReshard sortBy fuel nodes s num (lit "all") dst = some (.ok (lit "OK", queries))) ∧
      (Exact (descending (counts (populated nodes s dst))) num →
        MovesExactly sortBy nodes s num dst) ∧
      (Roomy (descending (counts (populated nodes s dst))) num →
        MovesExactly sortBy nodes s num dst →
          Exact (descending (counts (populated nodes s dst))) num) := by
  obtain ⟨replied, moves⟩ := reshard_given assigned sortBy known possible
  obtain ⟨enough, _⟩ := owned_given assigned sortBy known possible
  have offered : Offered dst (populated nodes s dst) 0 s := offered_populated assigned.distinct
  have order := descending_perm (counts (populated nodes s dst))
  have positive : ∀ x ∈ descending (counts (populated nodes s dst)), 0 < x :=
    fun x member => offered.positive_counts x (order.mem_iff.mp member)
  have sorted := descending_sorted (counts (populated nodes s dst))
  refine ⟨replied, ?_, ?_⟩
  · intro exact_
    exact moves.mpr (given_of_exact positive sorted enough exact_)
  · intro roomy all
    exact exact_of_given positive sorted enough roomy (moves.mp all)

/-! ## A cluster of three nodes -/

/-- A stable sort. -/
def SortBy.stable : SortBy RStr where
  sort dist := dist.mergeSort fun a b => decide (b.2 ≤ a.2)
  perm dist := List.mergeSort_perm dist _
  sorted dist := by
    have sorted := @List.pairwise_mergeSort (RStr × Nat) (fun a b => decide (b.2 ≤ a.2))
      (fun a b c => by simpa using fun first second => second.trans first)
      (fun a b => by simpa using Nat.le_total b.2 a.2) dist
    simpa using sorted

def threeIds : List RStr := [lit "a", lit "b", lit "d"]

/-- The first ten slots are with `a`, the next one with `b`, and all others with `d`. -/
def crowdedSlots (id : RStr) : List RStr :=
  if id = lit "a" then allSlots.take 10
  else if id = lit "b" then (allSlots.drop 10).take 1
  else if id = lit "d" then (allSlots.drop 10).drop 1
  else []

theorem nodup_crowdedSlots (id : RStr) : (crowdedSlots id).Nodup := by
  have rest := nodup_allSlots.sublist (List.drop_sublist 10 allSlots)
  unfold crowdedSlots
  split_ifs
  · exact nodup_allSlots.sublist (List.take_sublist 10 allSlots)
  · exact rest.sublist (List.take_sublist 1 _)
  · exact rest.sublist (List.drop_sublist 1 _)
  · exact List.nodup_nil

def crowded (id : RStr) : KeyShard := ⟨crowdedSlots id, [], nodup_crowdedSlots id, List.nodup_nil⟩

theorem mem_crowdedSlots {id slot : RStr} : slot ∈ crowdedSlots id ↔
    id = lit "a" ∧ slot ∈ allSlots.take 10 ∨ id = lit "b" ∧ slot ∈ (allSlots.drop 10).take 1 ∨
      id = lit "d" ∧ slot ∈ (allSlots.drop 10).drop 1 := by
  have apart : lit "a" ≠ lit "b" ∧ lit "a" ≠ lit "d" ∧ lit "b" ≠ lit "d" := by decide
  unfold crowdedSlots
  split_ifs with isA isB isD
  · simp [isA, apart]
  · simp [isB, apart, apart.1.symm]
  · simp [isD, apart.2.1.symm, apart.2.2.symm]
  · simp [isA, isB, isD]

theorem sole_crowdedSlots {i j slot : RStr} (held : slot ∈ crowdedSlots i)
    (held' : slot ∈ crowdedSlots j) : i = j := by
  have front := List.disjoint_of_nodup_append
    ((List.take_append_drop 10 allSlots).symm ▸ nodup_allSlots)
  have nodup := nodup_allSlots.sublist (List.drop_sublist 10 allSlots)
  have back := List.disjoint_of_nodup_append
    ((List.take_append_drop 1 (allSlots.drop 10)).symm ▸ nodup)
  rcases mem_crowdedSlots.mp held with ⟨rfl, first⟩ | ⟨rfl, second⟩ | ⟨rfl, rest⟩
  · rcases mem_crowdedSlots.mp held' with ⟨rfl, _⟩ | ⟨_, second'⟩ | ⟨_, rest'⟩
    · rfl
    · exact (front first (List.mem_of_mem_take second')).elim
    · exact (front first (List.mem_of_mem_drop rest')).elim
  · rcases mem_crowdedSlots.mp held' with ⟨_, first'⟩ | ⟨rfl, _⟩ | ⟨_, rest'⟩
    · exact (front first' (List.mem_of_mem_take second)).elim
    · rfl
    · exact (back second rest').elim
  · rcases mem_crowdedSlots.mp held' with ⟨_, first'⟩ | ⟨_, second'⟩ | ⟨rfl, _⟩
    · exact (front first' (List.mem_of_mem_drop rest)).elim
    · exact (back second' rest).elim
    · rfl

theorem assigned_crowded : Assigned threeIds crowded where
  distinct := by decide
  once :=
    { unique := by
        intro slot member
        have split : slot ∈ allSlots.take 10 ++
            ((allSlots.drop 10).take 1 ++ (allSlots.drop 10).drop 1) := by
          rw [List.take_append_drop, List.take_append_drop]
          exact member
        have owner : ∃ id, slot ∈ crowdedSlots id := by
          rcases List.mem_append.mp split with first | others
          · exact ⟨lit "a", mem_crowdedSlots.mpr (Or.inl ⟨rfl, first⟩)⟩
          · rcases List.mem_append.mp others with second | rest
            · exact ⟨lit "b", mem_crowdedSlots.mpr (Or.inr (Or.inl ⟨rfl, second⟩))⟩
            · exact ⟨lit "d", mem_crowdedSlots.mpr (Or.inr (Or.inr ⟨rfl, rest⟩))⟩
        rcases owner with ⟨id, held⟩
        exact ⟨id, held, fun id' held' => sole_crowdedSlots held' held⟩
      inside := by
        intro i slot held
        rcases mem_crowdedSlots.mp held with ⟨_, member⟩ | ⟨_, member⟩ | ⟨_, member⟩
        · exact List.mem_of_mem_take member
        · exact List.mem_of_mem_drop (List.mem_of_mem_take member)
        · exact List.mem_of_mem_drop (List.mem_of_mem_drop member) }
  inside := by
    intro i slot held
    rcases mem_crowdedSlots.mp held with ⟨rfl, _⟩ | ⟨rfl, _⟩ | ⟨rfl, _⟩ <;> decide

theorem length_crowded : (crowded (lit "a")).slots.length = 10 ∧
    (crowded (lit "b")).slots.length = 1 ∧ (crowded (lit "d")).slots.length = 16373 := by
  have front : (crowded (lit "a")).slots = allSlots.take 10 := rfl
  have second : (crowded (lit "b")).slots = (allSlots.drop 10).take 1 := rfl
  have rest : (crowded (lit "d")).slots = (allSlots.drop 10).drop 1 := rfl
  rw [front, second, rest, List.length_take, List.length_take, List.length_drop, List.length_drop,
    List.length_drop, length_allSlots]
  decide

theorem populated_crowded :
    populated threeIds crowded (lit "d") = [(lit "a", 10), (lit "b", 1)] := by
  rcases length_crowded with ⟨first, second, _⟩
  have ids : (threeIds.map fun id => (id, (crowded id).slots.length)) = [(lit "a", 10),
      (lit "b", 1), (lit "d", (crowded (lit "d")).slots.length)] := by
    rw [threeIds, List.map_cons, List.map_cons, List.map_singleton, first, second]
  rw [populated, ids]
  generalize (crowded (lit "d")).slots.length = n
  rfl

theorem descending_crowded : descending [10, 1] = [10, 1] :=
  List.mergeSort_of_pairwise (by decide)

/-- The second node is asked again for the slot that it has given before. -/
theorem given_crowded : given [10, 1] 11 = 9 := by
  have positive : ∀ x ∈ [10, 1], 0 < x := by decide
  have places : [10, 1] ≠ [] := by decide
  have last : rounds [10, 1] 0 = (0, 0) := rounds_few (by decide)
  have third : rounds [10, 1] 2 = (1, 0) := by
    rw [rounds_many positive places (by decide)]
    change (1 + (rounds [10, 1] 0).1, (rounds [10, 1] 0).2) = (1, 0)
    rw [last]
    rfl
  have second : rounds [10, 1] 5 = (3, 0) := by
    rw [rounds_many positive places (by decide)]
    change (2 + (rounds [10, 1] 2).1, (rounds [10, 1] 2).2) = (3, 0)
    rw [third]
    rfl
  have first : rounds [10, 1] 11 = (8, 0) := by
    rw [rounds_many positive places (by decide)]
    change (5 + (rounds [10, 1] 5).1, (rounds [10, 1] 5).2) = (8, 0)
    rw [second]
    rfl
  rw [given, first]
  rfl

theorem possible_crowded : 3 + (crowded (lit "d")).slots.length ≤ 16384 := by
  rw [length_crowded.2.2]
  decide

theorem reshard_crowded_moves :
    (∃ queries, ∀ fuel, 3 < fuel →
        clusterReshard .stable fuel threeIds crowded 3 (lit "all") (lit "d") =
          some (.ok (lit "OK", queries))) ∧
      MovesExactly .stable threeIds crowded 3 (lit "d") ∧
      (Roomy (descending (counts (populated threeIds crowded (lit "d")))) 3 →
        MovesExactly .stable threeIds crowded 3 (lit "d") →
          Exact (descending (counts (populated threeIds crowded (lit "d")))) 3) := by
  obtain ⟨replied, moves, only⟩ :=
    reshard_all_iff assigned_crowded .stable (by decide) possible_crowded
  refine ⟨replied, moves ?_, only⟩
  rw [populated_crowded]
  change Exact (descending [10, 1]) 3
  rw [descending_crowded]
  exact .once (by decide) (by decide) (by decide)

/-- Eleven slots asked of the two nodes that have eleven: only nine come. -/
theorem reshard_crowded_short : Assigned threeIds crowded ∧ lit "d" ∈ threeIds ∧
    11 + (crowded (lit "d")).slots.length ≤ 16384 ∧
    ¬ MovesExactly .stable threeIds crowded 11 (lit "d") := by
  have known : lit "d" ∈ threeIds := by decide
  have possible : 11 + (crowded (lit "d")).slots.length ≤ 16384 := by
    rw [length_crowded.2.2]
  refine ⟨assigned_crowded, known, possible, ?_⟩
  rw [(reshard_given assigned_crowded .stable known possible).2, populated_crowded]
  change ¬ given (descending [10, 1]) 11 = 11
  rw [descending_crowded, given_crowded]
  decide

end Cluster

end XFireDB
