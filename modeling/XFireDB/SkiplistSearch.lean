import XFireDB.SkiplistLinked

/-!
# Searching a skiplist

What `skiplist_search` does on a linked skiplist, for every key.  The descent
by hash ends before the first node whose hash is not smaller; from there the
keys are compared one after another, with nothing but the wanted key to end the
comparison.
-/

namespace XFireDB

open Lib

namespace SkiplistMem

variable {l : SkiplistMem} {ns : List NodeAddr}

theorem Linked.header_cell (linked : l.Linked ns) :
    ∃ c, l.nodes[skiplistHeader]? = some c ∧ c.key = none ∧ c.hash = skiplistMaxSize := by
  have hash := linked.header_hash
  have key := linked.header_key
  rcases here : l.nodes[skiplistHeader]? with - | c
  · simp [hashOf, here, skiplistMaxSize] at hash
  · refine ⟨c, rfl, ?_, ?_⟩
    · simpa [keyOf, here] using key
    · simpa [hashOf, here] using hash

/-- Nodes with the same key have the same hash, as equal keys are hashed alike. -/
theorem Linked.hash_of_key (linked : l.Linked ns) {a : NodeAddr} (member : a ∈ ns) {key : CStr}
    (labelled : l.keyOf a = some key) : l.hashOf a = skiplistHash key := by
  obtain ⟨key', labelled', hash⟩ := linked.node a member
  obtain rfl : key' = key := Option.some.inj (labelled'.symm.trans labelled)
  exact hash

theorem Linked.tested_hashBelow (linked : l.Linked ns) (hash : Nat) :
    ∀ a ∈ ns, l.nodes[a]?.bind (hashBelow hash) = some (decide (l.hashOf a < hash)) := by
  intro a member
  obtain ⟨key, labelled, _⟩ := linked.node a member
  obtain ⟨c, here, _, hash_eq⟩ := exists_cell labelled
  rw [here, Option.bind_some, hashBelow, hash_eq]

theorem Linked.tested_keyDiffers (linked : l.Linked ns) (key : CStr) :
    ∀ a ∈ ns, l.nodes[a]?.bind (keyDiffers key) = some (decide (l.keyOf a ≠ some key)) := by
  intro a member
  obtain ⟨key', labelled, _⟩ := linked.node a member
  obtain ⟨c, here, key_eq, _⟩ := exists_cell labelled
  rw [here, Option.bind_some, keyDiffers, key_eq, labelled, Option.map_some]
  simp only [ne_eq, Option.some.injEq]

/-- The next node on the lowest level, with what is stored in it. -/
theorem Linked.next (linked : l.Linked ns) {pre post : List NodeAddr} (split : ns = pre ++ post) :
    ∃ c, l.next (pre.getLastD skiplistHeader) = .ok (post.headD skiplistHeader, c) ∧
      c.key = l.keyOf (post.headD skiplistHeader) ∧
      c.hash = l.hashOf (post.headD skiplistHeader) := by
  have chain := linked.chain 1 (by decide) (by decide)
  rw [linked.onLevel_one (List.Subset.refl ns), split] at chain
  have pointer := chain.append_right.next_eq
  obtain ⟨c, here, key, hash⟩ : ∃ c, l.nodes[post.headD skiplistHeader]? = some c ∧
      c.key = l.keyOf (post.headD skiplistHeader) ∧
      c.hash = l.hashOf (post.headD skiplistHeader) := by
    rcases post with - | ⟨a, rest⟩
    · obtain ⟨c, here, key, hash⟩ := linked.header_cell
      exact ⟨c, here, key.trans linked.header_key.symm, hash.trans linked.header_hash.symm⟩
    · obtain ⟨key, labelled, _⟩ := linked.node a (by rw [split]; simp)
      obtain ⟨c, here, key_eq, hash_eq⟩ := exists_cell labelled
      exact ⟨c, here, key_eq.trans labelled.symm, hash_eq⟩
  refine ⟨c, ?_, key, hash⟩
  rw [SkiplistMem.next, pointer]
  simp only [access_some, here, bind, Except.bind]

/-- The descent by hash splits the nodes at the hash. -/
theorem Linked.descend_hash (linked : l.Linked ns) (key : CStr) :
    ∃ update pre post,
      l.descend (hashBelow (skiplistHash key)) l.level skiplistHeader (fun _ => skiplistHeader) =
        .ok (pre.getLastD skiplistHeader, update) ∧
      ns = pre ++ post ∧ (∀ a ∈ pre, l.hashOf a < skiplistHash key) ∧
      (∀ a ∈ post, skiplistHash key ≤ l.hashOf a) ∧
      ∀ j, 1 ≤ j → update j = (l.onLevel j pre).getLastD skiplistHeader := by
  have header : l.nodes[skiplistHeader]?.bind (hashBelow (skiplistHash key)) = some false := by
    obtain ⟨c, here, _, hash⟩ := linked.header_cell
    have := skiplistHash_le key
    rw [here, Option.bind_some, hashBelow, hash, decide_eq_false (by omega)]
  obtain ⟨update, suf, pre, ran, run, split, recorded⟩ :=
    linked.descend (linked.tested_hashBelow (skiplistHash key)) (Or.inl header)
  obtain ⟨pre', split', below, above⟩ :=
    run.split_rank linked.level_pos linked.sorted fun a member => (linked.tall a member).1
  obtain rfl : pre = pre' := List.append_cancel_right (split.symm.trans split')
  exact ⟨update, pre, suf 1, ran, split, below, above, recorded⟩

/-- The first node behind the position has the key's hash as soon as some node
has it, the header included. -/
theorem Linked.head_hash (linked : l.Linked ns) {key : CStr} {pre post : List NodeAddr}
    (split : ns = pre ++ post) (below : ∀ a ∈ pre, l.hashOf a < skiplistHash key)
    (above : ∀ a ∈ post, skiplistHash key ≤ l.hashOf a)
    (collides : skiplistHash key = skiplistMaxSize ∨ ∃ a ∈ ns, l.hashOf a = skiplistHash key) :
    l.hashOf (post.headD skiplistHeader) = skiplistHash key := by
  rcases post with - | ⟨b, rest⟩
  · rw [List.headD_nil, linked.header_hash]
    rcases collides with isMax | ⟨a, member, hash⟩
    · exact isMax.symm
    · rw [split, List.append_nil] at member
      have := below a member
      omega
  · apply le_antisymm ?_ (above b List.mem_cons_self)
    rcases collides with isMax | ⟨a, member, hash⟩
    · obtain ⟨key', _, hash'⟩ := linked.node b (by rw [split]; simp)
      rw [isMax]
      exact hash'.le.trans (skiplistHash_le key')
    · have sorted := linked.sorted
      rw [split] at sorted member
      rcases List.mem_append.mp member with early | late
      · have := below a early
        omega
      · rcases List.mem_cons.mp late with rfl | later
        · exact hash.le
        · exact hash ▸ (List.pairwise_cons.mp (List.pairwise_append.mp sorted).2.1).1 a later

/-- A position whose first node behind it has the hash of the key: the keys
are compared from there on. -/
theorem Linked.search_compares (linked : l.Linked ns) {key : CStr} {update : Nat → NodeAddr}
    {pre post : List NodeAddr}
    (ran : l.descend (hashBelow (skiplistHash key)) l.level skiplistHeader
      (fun _ => skiplistHeader) = .ok (pre.getLastD skiplistHeader, update))
    (split : ns = pre ++ post) (same : l.hashOf (post.headD skiplistHeader) = skiplistHash key) :
    skiplistSearch l key = (do
      let node ← l.walkLevel (keyDiffers key) 1 (pre.getLastD skiplistHeader)
      let (found, c) ← l.next node
      if c.hash = skiplistHash key then .ok (some found) else .ok none) := by
  obtain ⟨c, next, _, hash⟩ := linked.next split
  rw [skiplistSearch, ran]
  simp only [bind, Except.bind, next, hash, same, if_true]

/-- A linked key is found. -/
theorem Linked.search_linked (linked : l.Linked ns) {key : CStr} {a : NodeAddr} (member : a ∈ ns)
    (labelled : l.keyOf a = some key) :
    ∃ b ∈ ns, l.keyOf b = some key ∧ skiplistSearch l key = .ok (some b) := by
  obtain ⟨update, pre, post, ran, split, below, above, _⟩ := linked.descend_hash key
  have hash_a := linked.hash_of_key member labelled
  have behind : a ∈ post := by
    rcases List.mem_append.mp (split ▸ member) with early | late
    · have := below a early
      omega
    · exact late
  have same := linked.head_hash split below above (Or.inr ⟨a, member, hash_a⟩)
  have tall : ∀ b ∈ post, 1 ≤ l.height b := by
    intro b inside
    exact (linked.tall b (by rw [split]; simp [inside])).1
  have start : ∀ b, pre.getLast? = some b → 1 ≤ l.height b := by
    intro b found
    exact (linked.tall b (by rw [split]; simp [List.mem_of_getLast? found])).1
  obtain ⟨m, t, eq, level, walked⟩ :=
    linked.walkLevel (by decide) (by decide) split start (linked.tested_keyDiffers key)
      (Or.inr ⟨a, behind, tall a behind, by simp [labelled]⟩)
  obtain ⟨m', eq', pass, _⟩ := level.moved
  obtain rfl : m = m' := List.append_cancel_right (eq.symm.trans eq')
  rcases t with - | ⟨b, t⟩
  · rw [List.append_nil] at eq
    exact absurd labelled (pass a (eq ▸ behind) (tall a behind))
  · have inPost : b ∈ post := by rw [eq]; simp
    have inNs : b ∈ ns := by rw [split]; simp [inPost]
    have found : l.keyOf b = some key := by
      by_contra other
      apply level.stopped b ?_ other
      rw [List.find?_cons_of_pos (by simpa using tall b inPost)]
    refine ⟨b, inNs, found, ?_⟩
    have split' : ns = (pre ++ m) ++ b :: t := by rw [split, eq, List.append_assoc]
    obtain ⟨c, next, _, hash⟩ := linked.next split'
    rw [List.headD_cons, linked.hash_of_key inNs found] at hash
    rw [linked.search_compares ran split same, walked]
    simp only [bind, Except.bind, next, hash, if_true, List.headD_cons]

/-- Without a node of the key's hash, the header included, nothing is
compared. -/
theorem Linked.search_no_hash (linked : l.Linked ns) {key : CStr}
    (free : ∀ a ∈ ns, l.hashOf a ≠ skiplistHash key)
    (below_max : skiplistHash key < skiplistMaxSize) :
    skiplistSearch l key = .ok none := by
  obtain ⟨update, pre, post, ran, split, _, _, _⟩ := linked.descend_hash key
  obtain ⟨c, next, _, hash⟩ := linked.next split
  have other : l.hashOf (post.headD skiplistHeader) ≠ skiplistHash key := by
    rcases post with - | ⟨b, rest⟩
    · rw [List.headD_nil, linked.header_hash]
      omega
    · exact free b (by rw [split]; simp)
  rw [skiplistSearch, ran]
  simp only [bind, Except.bind, next, hash, if_neg other]

/-- With a node of the key's hash and no node of the key, the comparison runs
into the header's null key. -/
theorem Linked.search_badAccess (linked : l.Linked ns) {key : CStr}
    (absent : ∀ a ∈ ns, l.keyOf a ≠ some key)
    (collides : skiplistHash key = skiplistMaxSize ∨ ∃ a ∈ ns, l.hashOf a = skiplistHash key) :
    skiplistSearch l key = .error .badAccess := by
  obtain ⟨update, pre, post, ran, split, below, above, _⟩ := linked.descend_hash key
  have same := linked.head_hash split below above collides
  have chain := linked.chain 1 (by decide) (by decide)
  rw [linked.onLevel_one (List.Subset.refl ns), split] at chain
  have walked : l.walkLevel (keyDiffers key) 1 (pre.getLastD skiplistHeader) =
      .error .badAccess := by
    apply walk_eq_badAccess chain.append_right
    · intro a member
      have inside : a ∈ ns := by rw [split]; exact List.mem_append_right pre member
      rw [linked.tested_keyDiffers key a inside]
      simp [absent a inside]
    · obtain ⟨c, here, nokey, _⟩ := linked.header_cell
      rw [here, Option.bind_some, keyDiffers, nokey, Option.map_none]
    · have := linked.length_lt
      rw [split, List.length_append] at this
      omega
  rw [linked.search_compares ran split same, walked]
  rfl

end SkiplistMem

end XFireDB
