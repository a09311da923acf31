import XFireDB.SkiplistSearch

/-!
# Inserting into a skiplist

The new node goes before the first node whose hash is not smaller, on each of
its levels.  That node alone is compared with the key, so a key that is linked
further back in a run of equal hashes gets a second node.
-/

namespace XFireDB

open Lib

namespace SkiplistMem

/-- Two skiplists that differ in forward pointers only. -/
structure Rewired (l l' : SkiplistMem) : Prop where
  keyOf_eq : l'.keyOf = l.keyOf
  hashOf_eq : l'.hashOf = l.hashOf
  height_eq : l'.height = l.height
  level_eq : l'.level = l.level
  size_eq : l'.size = l.size

section Rewired

variable {l l' l'' : SkiplistMem}

theorem Rewired.refl (l : SkiplistMem) : Rewired l l := ⟨rfl, rfl, rfl, rfl, rfl⟩

theorem Rewired.trans (first : Rewired l l') (second : Rewired l' l'') : Rewired l l'' :=
  ⟨second.keyOf_eq.trans first.keyOf_eq, second.hashOf_eq.trans first.hashOf_eq,
    second.height_eq.trans first.height_eq, second.level_eq.trans first.level_eq,
    second.size_eq.trans first.size_eq⟩

theorem Rewired.setForward (l : SkiplistMem) (a : NodeAddr) (i : Nat) (p : Option NodeAddr) :
    Rewired l (l.setForward a i p) :=
  ⟨funext fun b => by simp, funext fun b => by simp, funext fun b => by simp, rfl, rfl⟩

end Rewired

/-! ## The linking loop -/

/-- The pointers after node `node` is linked behind `update[j]` on the given
levels. -/
def linkedSlot (l : SkiplistMem) (node : NodeAddr) (update : Nat → NodeAddr) (levels : List Nat)
    (j : Nat) (b : NodeAddr) : Option (Option NodeAddr) :=
  if j ∈ levels then
    if b = update j then some (some node)
    else if b = node then l.slot j (update j)
    else l.slot j b
  else l.slot j b

theorem linkLevel_spec {l : SkiplistMem} {node : NodeAddr} {update : Nat → NodeAddr} {i : Nat}
    {p q : Option NodeAddr} (here : l.slot i (update i) = some p) (own : l.slot i node = some q)
    (other : update i ≠ node) :
    ∃ l', linkLevel node update l i = .ok l' ∧ Rewired l l' ∧
      ∀ j b, l'.slot j b = linkedSlot l node update [i] j b := by
  refine ⟨(l.setForward node i p).setForward (update i) i (some node), ?_, ?_, ?_⟩
  · rw [linkLevel, here]
    rfl
  · exact (Rewired.setForward l node i p).trans (Rewired.setForward _ _ _ _)
  · intro j b
    by_cases level : j = i
    · subst level
      rw [linkedSlot, if_pos List.mem_cons_self, slot_setForward]
      by_cases atUpdate : b = update j
      · subst atUpdate
        rw [if_pos ⟨rfl, rfl⟩, if_pos rfl, slot_setForward, if_neg (fun both => other both.1), here]
        rfl
      · rw [if_neg (fun both => atUpdate both.1), if_neg atUpdate, slot_setForward]
        by_cases atNode : b = node
        · subst atNode
          rw [if_pos ⟨rfl, rfl⟩, if_pos rfl, own, here]
          rfl
        · rw [if_neg (fun both => atNode both.1), if_neg atNode]
    · rw [linkedSlot, if_neg (by simpa using level), slot_setForward,
        if_neg (fun both => level both.2), slot_setForward, if_neg (fun both => level both.2)]

/-- The loop over all levels of the new node. -/
theorem linkLevels_spec {levels : List Nat} (distinct : levels.Nodup) {l : SkiplistMem}
    {node : NodeAddr} {update : Nat → NodeAddr}
    (here : ∀ i ∈ levels, ∃ p, l.slot i (update i) = some p)
    (own : ∀ i ∈ levels, ∃ q, l.slot i node = some q) (other : ∀ i ∈ levels, update i ≠ node) :
    ∃ l', levels.foldlM (linkLevel node update) l = .ok l' ∧ Rewired l l' ∧
      ∀ j b, l'.slot j b = linkedSlot l node update levels j b := by
  induction levels generalizing l with
  | nil => exact ⟨l, rfl, .refl l, fun j b => rfl⟩
  | cons i levels ih =>
      obtain ⟨fresh, distinct⟩ := List.nodup_cons.mp distinct
      obtain ⟨p, here_i⟩ := here i List.mem_cons_self
      obtain ⟨q, own_i⟩ := own i List.mem_cons_self
      obtain ⟨l₁, ran₁, same₁, slots₁⟩ :=
        linkLevel_spec here_i own_i (other i List.mem_cons_self)
      -- the other levels are untouched by this round
      have apart : ∀ j, j ≠ i → ∀ b, l₁.slot j b = l.slot j b := by
        intro j ne b
        rw [slots₁, linkedSlot, if_neg (by simpa using ne)]
      have ne_of_mem : ∀ j ∈ levels, j ≠ i := by
        intro j member same
        exact fresh (same ▸ member)
      obtain ⟨l', ran, same, slots⟩ := @ih distinct l₁
        (fun j member => by
          rw [apart j (ne_of_mem j member)]
          exact here j (List.mem_cons_of_mem i member))
        (fun j member => by
          rw [apart j (ne_of_mem j member)]
          exact own j (List.mem_cons_of_mem i member))
        (fun j member => other j (List.mem_cons_of_mem i member))
      refine ⟨l', ?_, same₁.trans same, ?_⟩
      · rw [List.foldlM_cons, ran₁]
        exact ran
      · intro j b
        rw [slots, linkedSlot]
        by_cases level : j = i
        · subst level
          rw [if_neg fresh, slots₁, linkedSlot, linkedSlot, if_pos List.mem_cons_self,
            if_pos List.mem_cons_self]
        · rw [apart j level, apart j level, linkedSlot]
          simp only [List.mem_cons, level, false_or]

/-! ## The new node -/

/-- The skiplist with a freshly allocated node and the raised level, before the
linking loop. -/
def withNode (l : SkiplistMem) (key : CStr) (level : Nat) : SkiplistMem :=
  { l with
    level := max level l.level
    nodes := l.nodes ++ [⟨some key, skiplistHash key, List.replicate (level + 1) none⟩] }

/-- `l'` has one more node than `l`: with this key and height, at the first free
address. -/
structure Grown (l l' : SkiplistMem) (key : CStr) (level : Nat) : Prop where
  keyOf_old : ∀ a < l.nodes.length, l'.keyOf a = l.keyOf a
  hashOf_old : ∀ a < l.nodes.length, l'.hashOf a = l.hashOf a
  height_old : ∀ a < l.nodes.length, l'.height a = l.height a
  keyOf_new : l'.keyOf l.nodes.length = some key
  hashOf_new : l'.hashOf l.nodes.length = skiplistHash key
  height_new : l'.height l.nodes.length = level
  level_eq : l'.level = max level l.level
  size_eq : l'.size = l.size

section NewNode

variable {l l' : SkiplistMem} {key : CStr} {level : Nat}

theorem nodes_withNode_old {a : NodeAddr} (old : a < l.nodes.length) :
    (l.withNode key level).nodes[a]? = l.nodes[a]? := by
  rw [withNode, List.getElem?_append_left old]

theorem nodes_withNode_new : (l.withNode key level).nodes[l.nodes.length]? =
    some ⟨some key, skiplistHash key, List.replicate (level + 1) none⟩ := by
  rw [withNode, List.getElem?_concat_length]

theorem slot_withNode_old {a : NodeAddr} (old : a < l.nodes.length) (i : Nat) :
    (l.withNode key level).slot i a = l.slot i a := by
  rw [slot, nodes_withNode_old old, slot]

theorem slot_withNode_new {i : Nat} (inside : i ≤ level) :
    (l.withNode key level).slot i l.nodes.length = some none := by
  rw [slot, nodes_withNode_new, Option.bind_some, List.getElem?_replicate, if_pos (by omega)]

theorem grown_withNode (l : SkiplistMem) (key : CStr) (level : Nat) :
    Grown l (l.withNode key level) key level where
  keyOf_old a old := by rw [keyOf, nodes_withNode_old old, keyOf]
  hashOf_old a old := by rw [hashOf, nodes_withNode_old old, hashOf]
  height_old a old := by rw [height, nodes_withNode_old old, height]
  keyOf_new := by rw [keyOf, nodes_withNode_new, Option.bind_some]
  hashOf_new := by rw [hashOf, nodes_withNode_new, Option.map_some, Option.getD_some]
  height_new := by
    rw [height, nodes_withNode_new, Option.map_some, Option.getD_some, List.length_replicate,
      Nat.add_sub_cancel]
  level_eq := rfl
  size_eq := rfl

theorem Grown.rewired {l'' : SkiplistMem} (grown : Grown l l' key level)
    (same : Rewired l' l'') : Grown l l'' key level where
  keyOf_old a old := by rw [same.keyOf_eq, grown.keyOf_old a old]
  hashOf_old a old := by rw [same.hashOf_eq, grown.hashOf_old a old]
  height_old a old := by rw [same.height_eq, grown.height_old a old]
  keyOf_new := by rw [same.keyOf_eq, grown.keyOf_new]
  hashOf_new := by rw [same.hashOf_eq, grown.hashOf_new]
  height_new := by rw [same.height_eq, grown.height_new]
  level_eq := same.level_eq.trans grown.level_eq
  size_eq := same.size_eq.trans grown.size_eq

end NewNode

/-! ## The result -/

section Insert

variable {l l' : SkiplistMem} {ns pre post : List NodeAddr} {key : CStr} {level : Nat}
  {update : Nat → NodeAddr}

/-- A skiplist with one more node, between `pre` and `post` on each of its
levels. -/
structure Spliced (l l' : SkiplistMem) (pre post : List NodeAddr) (key : CStr) (level : Nat) :
    Prop where
  grown : Grown l l' key level
  linked : ∀ j, 1 ≤ j → j ≤ level → ∀ b < l.nodes.length,
    l'.forward j b = if b = (l.onLevel j pre).getLastD skiplistHeader then some l.nodes.length
      else l.forward j b
  next : ∀ j, 1 ≤ j → j ≤ level →
    l'.forward j l.nodes.length = l.forward j ((l.onLevel j pre).getLastD skiplistHeader)
  above : ∀ j, level < j → ∀ b < l.nodes.length, l'.forward j b = l.forward j b

theorem Spliced.onLevel_eq (spliced : Spliced l l' pre post key level) (linked : l.Linked ns)
    (split : ns = pre ++ post) (j : Nat) :
    l'.onLevel j (pre ++ l.nodes.length :: post) =
      l.onLevel j pre ++ (if j ≤ level then [l.nodes.length] else []) ++ l.onLevel j post := by
  have old : ∀ s : List NodeAddr, s ⊆ ns → l'.onLevel j s = l.onLevel j s := by
    intro s inside
    apply List.filter_congr
    intro a member
    rw [spliced.grown.height_old a (linked.lt_nodes (List.mem_cons_of_mem _ (inside member)))]
  have new : l'.onLevel j [l.nodes.length] = if j ≤ level then [l.nodes.length] else [] := by
    by_cases tall : j ≤ level <;> simp [onLevel, spliced.grown.height_new, tall]
  have parts : pre ++ l.nodes.length :: post = pre ++ [l.nodes.length] ++ post := by simp
  rw [parts, onLevel_append, onLevel_append, new,
    old pre (split ▸ List.subset_append_left pre post),
    old post (split ▸ List.subset_append_right pre post)]

/-- Every level runs through the new node where it is tall enough, and is as
before otherwise. -/
theorem Spliced.chain (spliced : Spliced l l' pre post key level) (linked : l.Linked ns)
    (split : ns = pre ++ post) (j : Nat) (low : 1 ≤ j) (high : j ≤ skiplistMaxLevels) :
    Chain (l'.forward j) skiplistHeader skiplistHeader
      (l'.onLevel j (pre ++ l.nodes.length :: post)) := by
  have chain := linked.chain j low high
  have distinct := linked.nodup_onLevel j
  have bound : ∀ a ∈ skiplistHeader :: l.onLevel j ns, a < l.nodes.length := by
    intro a member
    apply linked.lt_nodes
    rcases List.mem_cons.mp member with rfl | inside
    · exact List.mem_cons_self
    · exact List.mem_cons_of_mem _ (List.mem_of_mem_filter inside)
  rw [spliced.onLevel_eq linked split]
  rw [split, onLevel_append] at chain distinct bound
  by_cases tall : j ≤ level
  · rw [if_pos tall, List.append_assoc, List.singleton_append]
    have last := bound _ (List.mem_append_left _ (List.getLastD_mem_cons ..))
    apply chain.insert distinct
    · exact (Nat.ne_of_lt (linked.lt_nodes List.mem_cons_self)).symm
    · rw [spliced.linked j low tall _ last, if_pos rfl]
    · exact spliced.next j low tall
    · intro y member notLast
      rw [spliced.linked j low tall y (bound y member), if_neg notLast]
  · rw [if_neg tall, List.append_nil]
    apply chain.congr
    intro y member
    exact spliced.above j (by omega) y (bound y member)

/-- The linked nodes after an insertion. -/
theorem Spliced.members (split : ns = pre ++ post) {n a : NodeAddr}
    (member : a ∈ pre ++ n :: post) : a = n ∨ a ∈ ns := by
  rw [split, List.mem_append]
  rcases List.mem_append.mp member with early | late
  · exact Or.inr (Or.inl early)
  · rcases List.mem_cons.mp late with same | behind
    · exact Or.inl same
    · exact Or.inr (Or.inr behind)

theorem Spliced.sorted (spliced : Spliced l l' pre post key level) (linked : l.Linked ns)
    (split : ns = pre ++ post) (below : ∀ a ∈ pre, l.hashOf a < skiplistHash key)
    (above : ∀ a ∈ post, skiplistHash key ≤ l.hashOf a) :
    (pre ++ l.nodes.length :: post).Pairwise (l'.hashOf · ≤ l'.hashOf ·) := by
  have sorted := linked.sorted
  have old : ∀ a ∈ ns, l'.hashOf a = l.hashOf a := fun a member =>
    spliced.grown.hashOf_old a (linked.lt_nodes (List.mem_cons_of_mem _ member))
  have sorted' : ns.Pairwise (l'.hashOf · ≤ l'.hashOf ·) := by
    apply sorted.imp_of_mem
    intro a b inA inB le
    rwa [old a inA, old b inB]
  rw [split] at sorted' old
  obtain ⟨first, second, across⟩ := List.pairwise_append.mp sorted'
  refine List.pairwise_append.mpr ⟨first, List.pairwise_cons.mpr ⟨?_, second⟩, ?_⟩
  · intro b behind
    rw [spliced.grown.hashOf_new, old b (List.mem_append_right pre behind)]
    exact above b behind
  · intro a before b member
    rcases List.mem_cons.mp member with rfl | behind
    · rw [spliced.grown.hashOf_new, old a (List.mem_append_left post before)]
      exact (below a before).le
    · exact across a before b behind

/-- An insertion keeps the invariant. -/
theorem Spliced.linked_result (spliced : Spliced l l' pre post key level) (linked : l.Linked ns)
    (split : ns = pre ++ post) (below : ∀ a ∈ pre, l.hashOf a < skiplistHash key)
    (above : ∀ a ∈ post, skiplistHash key ≤ l.hashOf a) (low : 1 ≤ level)
    (high : level ≤ skiplistMaxLevels) (short : key.Short) :
    Linked { l' with size := int32 (l'.size + 1) } (pre ++ l.nodes.length :: post) := by
  have header : skiplistHeader < l.nodes.length := linked.lt_nodes List.mem_cons_self
  have old : ∀ a ∈ ns, a < l.nodes.length := fun a member =>
    linked.lt_nodes (List.mem_cons_of_mem _ member)
  have grown := spliced.grown
  have level_eq := grown.level_eq
  have old_le := linked.level_le
  have old_pos := linked.level_pos
  refine ⟨?_, ?_, ?_, ?_, ?_, ?_, spliced.chain linked split, ?_, ?_, ?_, ?_, ?_, ?_⟩
  · exact (grown.keyOf_old _ header).trans linked.header_key
  · exact (grown.hashOf_old _ header).trans linked.header_hash
  · exact (grown.height_old _ header).trans linked.header_height
  · intro a member
    rcases Spliced.members split member with rfl | inside
    · exact ⟨key, grown.keyOf_new, grown.hashOf_new⟩
    · obtain ⟨key', labelled, hash⟩ := linked.node a inside
      exact ⟨key', (grown.keyOf_old a (old a inside)).trans labelled,
        (grown.hashOf_old a (old a inside)).trans hash⟩
  · intro a member
    show 1 ≤ l'.height a ∧ l'.height a ≤ l'.level
    rcases Spliced.members split member with rfl | inside
    · rw [grown.height_new]
      omega
    · have := linked.tall a inside
      rw [grown.height_old a (old a inside)]
      omega
  · have fresh : l.nodes.length ∉ ns := fun member => lt_irrefl _ (old _ member)
    have distinct := linked.distinct
    rw [split] at fresh distinct
    exact List.nodup_middle.mpr (List.nodup_cons.mpr ⟨fresh, distinct⟩)
  · exact spliced.sorted linked split below above
  · show 1 ≤ l'.level
    omega
  · show l'.level ≤ skiplistMaxLevels
    omega
  · show l'.level = 1 ∨ ∃ a ∈ _, l'.height a = l'.level
    rcases Nat.lt_or_ge l.level level with raised | kept
    · exact Or.inr ⟨l.nodes.length, by simp, by rw [grown.height_new]; omega⟩
    · rcases linked.level_used with one | ⟨a, inside, top⟩
      · exact Or.inl (by omega)
      · refine Or.inr ⟨a, ?_, by rw [grown.height_old a (old a inside)]; omega⟩
        rw [split] at inside
        rcases List.mem_append.mp inside with early | late <;> simp [*]
  · show int32 (l'.size + 1) = _
    rw [grown.size_eq, linked.size_eq, split, int32_add_int32]
    congr 1
    push_cast [List.length_append, List.length_cons]
    ring
  · intro a member key' labelled
    rcases Spliced.members split member with rfl | inside
    · obtain rfl : key = key' := Option.some.inj (grown.keyOf_new.symm.trans labelled)
      exact short
    · exact linked.copied a inside key' ((grown.keyOf_old a (old a inside)).symm.trans labelled)

/-- The linking loop on a fresh node splices it in. -/
theorem Linked.spliced_of_update (linked : l.Linked ns) (split : ns = pre ++ post) (key : CStr)
    {level : Nat} (high : level ≤ skiplistMaxLevels) {update : Nat → NodeAddr}
    (update_eq : ∀ i, 1 ≤ i → update i = (l.onLevel i pre).getLastD skiplistHeader) :
    ∃ l', (List.range' 1 level).foldlM (linkLevel l.nodes.length update) (l.withNode key level) =
        .ok l' ∧ Spliced l l' pre post key level := by
  have levels : ∀ i, i ∈ List.range' 1 level ↔ 1 ≤ i ∧ i ≤ level := by
    intro i
    rw [List.mem_range'_1]
    omega
  have update_mem : ∀ i, 1 ≤ i → update i < l.nodes.length := by
    intro i low
    rw [update_eq i low]
    apply linked.lt_nodes
    rcases List.mem_cons.mp (List.getLastD_mem_cons (l := l.onLevel i pre) (a := skiplistHeader))
      with header | inside
    · rw [header]
      exact List.mem_cons_self
    · rw [split]
      exact List.mem_cons_of_mem _ (List.mem_append_left _ (List.mem_of_mem_filter inside))
  have here : ∀ i ∈ List.range' 1 level,
      ∃ p, (l.withNode key level).slot i (update i) = some p := by
    intro i member
    obtain ⟨low, le⟩ := (levels i).mp member
    have chain := linked.chain i low (le.trans high)
    rw [split, onLevel_append] at chain
    rw [slot_withNode_old (update_mem i low), update_eq i low]
    exact ⟨_, slot_of_forward chain.append_right.next_eq⟩
  obtain ⟨l', ran, same, slots⟩ := linkLevels_spec (List.nodup_range' ..) here
    (fun i member => ⟨none, slot_withNode_new ((levels i).mp member).2⟩)
    (fun i member => Nat.ne_of_lt (update_mem i ((levels i).mp member).1))
  refine ⟨l', ran, (grown_withNode l key level).rewired same, ?_, ?_, ?_⟩
  · intro j low le b old
    rw [forward, slots, linkedSlot, if_pos ((levels j).mpr ⟨low, le⟩), update_eq j low]
    by_cases last : b = (l.onLevel j pre).getLastD skiplistHeader
    · rw [if_pos last, if_pos last]
      rfl
    · rw [if_neg last, if_neg last, if_neg (Nat.ne_of_lt old), slot_withNode_old old, forward]
  · intro j low le
    have inside := update_mem j low
    rw [forward, slots, linkedSlot, if_pos ((levels j).mpr ⟨low, le⟩),
      if_neg (Nat.ne_of_lt inside).symm, if_pos rfl, slot_withNode_old inside,
        update_eq j low, forward]
  · intro j above_j b old
    have outside : j ∉ List.range' 1 level := by
      rw [levels]
      omega
    rw [forward, slots, linkedSlot, if_neg outside, slot_withNode_old old, forward]

/-- `skiplist_insert` leaves the list alone if the first node whose hash is not
smaller has the key.  Otherwise it links a new node before that one, labelled with
the copy of the key, and does not return where there is no such copy. -/
theorem Linked.insert (linked : l.Linked ns) (key : CStr) {level : Nat}
    (high : level ≤ skiplistMaxLevels) :
    ∃ pre post, ns = pre ++ post ∧ (∀ a ∈ pre, l.hashOf a < skiplistHash key) ∧
      (∀ a ∈ post, skiplistHash key ≤ l.hashOf a) ∧
      ((l.keyOf (post.headD skiplistHeader) = some key ∧
          skiplistInsert l key level = .ok (l, .ok)) ∨
        (l.keyOf (post.headD skiplistHeader) ≠ some key ∧
          (skiplistSetKey key = none → skiplistInsert l key level = .error .badAccess) ∧
          ∀ label, skiplistSetKey key = some label → ∃ l',
            skiplistInsert l key level = .ok ({ l' with size := int32 (l'.size + 1) }, .ok) ∧
              Spliced l l' pre post label level)) := by
  obtain ⟨update, pre, post, ran, split, below, above, recorded⟩ := linked.descend_hash key
  obtain ⟨c, next, key_eq, _⟩ := linked.next split
  refine ⟨pre, post, split, below, above, ?_⟩
  by_cases same : l.keyOf (post.headD skiplistHeader) = some key
  · refine Or.inl ⟨same, ?_⟩
    rw [skiplistInsert, ran]
    simp only [bind, Except.bind, next, key_eq, same, if_true]
  · refine Or.inr ⟨same, ?_, ?_⟩
    · intro ends
      rw [skiplistInsert, ran]
      simp only [bind, Except.bind, next, key_eq, if_neg same, ends, access_none]
    intro label copied
    have update_eq : ∀ i, 1 ≤ i → (if l.level < i then skiplistHeader else update i) =
        (l.onLevel i pre).getLastD skiplistHeader := by
      intro i low_i
      by_cases above_top : l.level < i
      · rw [if_pos above_top,
          linked.onLevel_above above_top (split ▸ List.subset_append_left pre post)]
        rfl
      · rw [if_neg above_top, recorded i low_i]
    obtain ⟨l', linked_levels, spliced⟩ := linked.spliced_of_update split label high update_eq
    refine ⟨l', ?_, spliced⟩
    rw [skiplistInsert, ran]
    simp only [bind, Except.bind, next, key_eq, if_neg same, copied, access_some,
      ← skiplistHash_of_setKey copied]
    rw [← withNode, linked_levels]

end Insert

end SkiplistMem

end XFireDB
