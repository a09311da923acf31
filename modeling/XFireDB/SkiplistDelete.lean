import XFireDB.SkiplistInsert

/-!
# Deleting from a skiplist

The descent of `skiplist_delete` passes nodes of the key's hash that have
another key.  On an upper level it can so step over the wanted node, if that
one is not on the level.  Where it does end before a node with the key, that
node is the next one on each of its levels.
-/

namespace XFireDB

open Lib

namespace SkiplistMem

/-! ## The unlinking loop -/

/-- The loop unlinks `x` on the levels from `i` to its height, and stops at the
first level that does not lead to it. -/
theorem unlinkLevels_spec {x : NodeAddr} {update : Nat → NodeAddr} {height : Nat} (rounds : Nat)
    {i : Nat} (start : i ≤ height + 1) (enough : height < i + rounds) {l : SkiplistMem}
    (here : ∀ j, i ≤ j → j ≤ height → l.slot j (update j) = some (some x))
    (own : ∀ j, i ≤ j → j ≤ height → ∃ q, l.slot j x = some q)
    (stop : height + 1 < i + rounds →
      ∃ p, l.slot (height + 1) (update (height + 1)) = some p ∧ p ≠ some x) :
    ∃ l', unlinkLevels x update rounds i l = .ok l' ∧ Rewired l l' ∧
      ∀ j b, l'.slot j b =
        if (i ≤ j ∧ j ≤ height) ∧ b = update j then l.slot j x else l.slot j b := by
  induction rounds generalizing i l with
  | zero =>
      refine ⟨l, rfl, .refl l, ?_⟩
      intro j b
      rw [if_neg (by omega)]
  | succ rounds ih =>
      rcases Nat.lt_or_eq_of_le start with more | rfl
      · have read := here i (le_refl i) (by omega)
        obtain ⟨q, read'⟩ := own i (le_refl i) (by omega)
        have apart : ∀ j, j ≠ i → ∀ b, (l.setForward (update i) i q).slot j b = l.slot j b := by
          intro j ne b
          rw [slot_setForward, if_neg (fun both => ne both.2)]
        obtain ⟨l', ran, same, slots⟩ := @ih (i + 1) (by omega) (by omega)
          (l.setForward (update i) i q)
          (fun j after le => by rw [apart j (by omega)]; exact here j (by omega) le)
          (fun j after le => by rw [apart j (by omega)]; exact own j (by omega) le)
          (fun later => by rw [apart (height + 1) (by omega)]; exact stop (by omega))
        refine ⟨l', ?_, (Rewired.setForward ..).trans same, ?_⟩
        · rw [unlinkLevels, read, access_some]
          simp only [bind, Except.bind, read', access_some, ne_eq, not_true_eq_false, if_false]
          exact ran
        · intro j b
          rw [slots]
          by_cases level : j = i
          · subst level
            rw [if_neg (by omega), slot_setForward, read, read']
            by_cases atUpdate : b = update j
            · rw [if_pos ⟨atUpdate, rfl⟩, if_pos ⟨⟨le_refl j, by omega⟩, atUpdate⟩]
              rfl
            · rw [if_neg (fun both => atUpdate both.1), if_neg (fun both => atUpdate both.2)]
          · have range : (i + 1 ≤ j ∧ j ≤ height) ↔ (i ≤ j ∧ j ≤ height) := by omega
            rw [apart j level, apart j level]
            simp only [range]
      · obtain ⟨p, read, other⟩ := stop (by omega)
        refine ⟨l, ?_, .refl l, ?_⟩
        · rw [unlinkLevels, read, access_some]
          simp only [bind, Except.bind, ne_eq, other, not_false_eq_true, if_true]
        · intro j b
          rw [if_neg (by omega)]

/-! ## Freeing the node and lowering the level -/

section Destroy

variable {l : SkiplistMem} {x b : NodeAddr}

theorem nodes_destroy_of_ne (other : b ≠ x) :
    (skiplistNodeDestroy l x).nodes[b]? = l.nodes[b]? := by
  simp [skiplistNodeDestroy, Ne.symm other]

theorem slot_destroy_of_ne (other : b ≠ x) (i : Nat) :
    (skiplistNodeDestroy l x).slot i b = l.slot i b := by
  rw [slot, nodes_destroy_of_ne other, slot]

end Destroy

/-! ## The chains without the node -/

/-- `l'` is `l` with node `x`, which followed `pre`, taken out of all its
levels. -/
structure Removed (l l' : SkiplistMem) (pre : List NodeAddr) (x : NodeAddr) : Prop where
  keyOf_other : ∀ b, b ≠ x → l'.keyOf b = l.keyOf b
  hashOf_other : ∀ b, b ≠ x → l'.hashOf b = l.hashOf b
  height_other : ∀ b, b ≠ x → l'.height b = l.height b
  unlinked : ∀ j, 1 ≤ j → j ≤ l.height x → ∀ b, b ≠ x →
    l'.forward j b = if b = (l.onLevel j pre).getLastD skiplistHeader then l.forward j x
      else l.forward j b
  above : ∀ j, l.height x < j → ∀ b, b ≠ x → l'.forward j b = l.forward j b
  level_eq : l'.level = l.level
  size_eq : l'.size = l.size

section Removed

variable {l l' : SkiplistMem} {ns pre post : List NodeAddr} {x : NodeAddr}

theorem Linked.not_mem_rest (linked : l.Linked ns) (split : ns = pre ++ x :: post) :
    x ∉ skiplistHeader :: (pre ++ post) := by
  have distinct := linked.nodup_header
  rw [split, ← List.cons_append, List.nodup_middle] at distinct
  exact (List.nodup_cons.mp distinct).1

theorem rest_subset (split : ns = pre ++ x :: post) : pre ++ post ⊆ ns := by
  rw [split]
  exact List.append_subset.mpr ⟨List.subset_append_left _ _,
    List.subset_append_of_subset_right _ (List.subset_cons_self _ _)⟩

theorem Removed.onLevel_eq (removed : Removed l l' pre x) {s : List NodeAddr} (other : x ∉ s)
    (j : Nat) : l'.onLevel j s = l.onLevel j s := by
  apply List.filter_congr
  intro a member
  rw [removed.height_other a (fun same => other (same ▸ member))]

/-- Every level runs past the node. -/
theorem Removed.chain (removed : Removed l l' pre x) (linked : l.Linked ns)
    (split : ns = pre ++ x :: post) (j : Nat) (low : 1 ≤ j) (high : j ≤ skiplistMaxLevels) :
    Chain (l'.forward j) skiplistHeader skiplistHeader (l'.onLevel j (pre ++ post)) := by
  have gone := linked.not_mem_rest split
  have chain := linked.chain j low high
  have distinct : (skiplistHeader :: (l.onLevel j pre ++ l.onLevel j post)).Nodup := by
    have nodup := linked.nodup_header
    rw [split, ← List.cons_append, List.nodup_middle] at nodup
    rw [← onLevel_append]
    exact (List.nodup_cons.mp nodup).2.sublist (List.Sublist.cons_cons _ List.filter_sublist)
  have other : ∀ y ∈ skiplistHeader :: l.onLevel j pre ++ l.onLevel j post, y ≠ x := by
    intro y member same
    apply gone
    rw [← same]
    rw [List.cons_append, ← onLevel_append] at member
    rcases List.mem_cons.mp member with rfl | inside
    · exact List.mem_cons_self
    · exact List.mem_cons_of_mem _ (List.mem_of_mem_filter inside)
  have parts : l.onLevel j ns = l.onLevel j pre ++ (l.onLevel j [x] ++ l.onLevel j post) := by
    rw [split, ← List.singleton_append, onLevel_append, onLevel_append]
  rw [removed.onLevel_eq (fun member => gone (List.mem_cons_of_mem _ member)), onLevel_append]
  rw [parts] at chain
  by_cases tall : j ≤ l.height x
  · have own : l.onLevel j [x] = [x] := by simp [onLevel, tall]
    rw [own, List.singleton_append] at chain
    apply chain.remove distinct
    · rw [removed.unlinked j low tall _
        (other _ (List.mem_append_left _ (List.getLastD_mem_cons ..))), if_pos rfl]
    · intro y member notLast
      rw [removed.unlinked j low tall y (other y member), if_neg notLast]
  · have own : l.onLevel j [x] = [] := by simp [onLevel, tall]
    rw [own, List.nil_append] at chain
    apply chain.congr
    intro y member
    exact removed.above j (by omega) y (other y member)

end Removed

/-- The level after the loop: the highest one that is not empty, or 1. -/
theorem lowerLevel_spec {l : SkiplistMem} {empty : Nat → Prop} {top : Nat} (pos : 1 ≤ top)
    (read : ∀ j, 2 ≤ j → j ≤ top → ∃ p, l.slot j skiplistHeader = some p ∧
      (p = some skiplistHeader ↔ empty j)) :
    ∃ t, lowerLevel l top = .ok t ∧ 1 ≤ t ∧ t ≤ top ∧ (t = 1 ∨ ¬ empty t) ∧
      ∀ k, t < k → k ≤ top → empty k := by
  induction top using Nat.strongRecOn with
  | ind top ih =>
      rcases top with - | - | top
      · omega
      · exact ⟨1, rfl, le_refl 1, le_refl 1, Or.inl rfl, by omega⟩
      · obtain ⟨p, slot_eq, iff_empty⟩ := read (top + 2) (by omega) (le_refl _)
        rw [lowerLevel, slot_eq, access_some]
        by_cases closed : p = some skiplistHeader
        · obtain ⟨t, ran, low, high, used, above⟩ := ih (top + 1) (by omega) (by omega)
            (fun j two le => read j two (by omega))
          refine ⟨t, ?_, low, by omega, used, ?_⟩
          · simp only [bind, Except.bind, if_pos closed]
            exact ran
          · intro k after le
            rcases Nat.lt_or_eq_of_le le with below | rfl
            · exact above k after (by omega)
            · exact iff_empty.mp closed
        · refine ⟨top + 2, ?_, by omega, le_refl _,
            Or.inr fun isEmpty => closed (iff_empty.mpr isEmpty), by omega⟩
          simp only [bind, Except.bind, if_neg closed]

section Removed

variable {l l' : SkiplistMem} {ns pre post : List NodeAddr} {x : NodeAddr}

/-- The levels of the remaining nodes are lowered as far as they are empty. -/
theorem Removed.lowerLevel (removed : Removed l l' pre x) (linked : l.Linked ns)
    (split : ns = pre ++ x :: post) :
    ∃ t, lowerLevel l' l'.level = .ok t ∧ 1 ≤ t ∧ t ≤ l.level ∧
      (t = 1 ∨ l.onLevel t (pre ++ post) ≠ []) ∧
      ∀ k, t < k → l.onLevel k (pre ++ post) = [] := by
  have gone := linked.not_mem_rest split
  have pos := linked.level_pos
  have le := linked.level_le
  have read : ∀ j, 2 ≤ j → j ≤ l'.level → ∃ p, l'.slot j skiplistHeader = some p ∧
      (p = some skiplistHeader ↔ l.onLevel j (pre ++ post) = []) := by
    intro j two le_top
    rw [removed.level_eq] at le_top
    have chain := removed.chain linked split j (by omega) (by omega)
    rw [removed.onLevel_eq (fun member => gone (List.mem_cons_of_mem _ member))] at chain
    refine ⟨_, slot_of_forward chain.next_eq, ?_⟩
    have closed := chain.stop_not_mem
    rcases nodes : l.onLevel j (pre ++ post) with - | ⟨a, rest⟩
    · simp
    · rw [nodes] at closed
      simp only [List.headD_cons, Option.some.injEq, reduceCtorEq, iff_false]
      intro same
      exact closed (same ▸ List.mem_cons_self)
  obtain ⟨t, ran, low, high, used, above⟩ :=
    lowerLevel_spec (by rw [removed.level_eq]; exact pos) read
  rw [removed.level_eq] at high
  refine ⟨t, ran, low, high, used, ?_⟩
  intro k after
  rcases Nat.lt_or_ge l.level k with beyond | inside
  · exact linked.onLevel_above beyond (rest_subset split)
  · exact above k after (by rw [removed.level_eq]; exact inside)

/-- A deletion keeps the invariant. -/
theorem Removed.linked_result (removed : Removed l l' pre x) (linked : l.Linked ns)
    (split : ns = pre ++ x :: post) {t : Nat} (low : 1 ≤ t) (high : t ≤ l.level)
    (used : t = 1 ∨ l.onLevel t (pre ++ post) ≠ [])
    (above : ∀ k, t < k → l.onLevel k (pre ++ post) = []) :
    Linked { l' with level := t, size := int32 (l'.size - 1) } (pre ++ post) := by
  have gone := linked.not_mem_rest split
  have inside := rest_subset split
  have other : ∀ a ∈ skiplistHeader :: (pre ++ post), a ≠ x := fun a member same =>
    gone (same ▸ member)
  have header := other skiplistHeader List.mem_cons_self
  have rest : ∀ a ∈ pre ++ post, a ≠ x := fun a member => other a (List.mem_cons_of_mem _ member)
  have short : ∀ a ∈ pre ++ post, l.height a ≤ t := by
    intro a member
    by_contra tall
    have kept : a ∈ l.onLevel (t + 1) (pre ++ post) :=
      List.mem_filter.mpr ⟨member, by simpa using Nat.lt_of_not_le tall⟩
    rw [above (t + 1) (Nat.lt_succ_self t)] at kept
    cases kept
  refine ⟨?_, ?_, ?_, ?_, ?_, ?_, removed.chain linked split, ?_, low, ?_, ?_, ?_, ?_⟩
  · exact (removed.keyOf_other _ header).trans linked.header_key
  · exact (removed.hashOf_other _ header).trans linked.header_hash
  · exact (removed.height_other _ header).trans linked.header_height
  · intro a member
    obtain ⟨key, labelled, hash⟩ := linked.node a (inside member)
    exact ⟨key, (removed.keyOf_other a (rest a member)).trans labelled,
      (removed.hashOf_other a (rest a member)).trans hash⟩
  · intro a member
    show 1 ≤ l'.height a ∧ l'.height a ≤ t
    rw [removed.height_other a (rest a member)]
    exact ⟨(linked.tall a (inside member)).1, short a member⟩
  · have distinct := linked.distinct
    rw [split] at distinct
    exact (List.nodup_cons.mp (List.nodup_middle.mp distinct)).2
  · have sorted := linked.sorted
    rw [split] at sorted
    have kept := sorted.sublist (List.Sublist.append_left (List.sublist_cons_self x post) pre)
    apply kept.imp_of_mem
    intro a b inA inB le
    show l'.hashOf a ≤ l'.hashOf b
    rwa [removed.hashOf_other a (rest a inA), removed.hashOf_other b (rest b inB)]
  · exact high.trans linked.level_le
  · show t = 1 ∨ ∃ a ∈ pre ++ post, l'.height a = t
    rcases used with one | some_node
    · exact Or.inl one
    · obtain ⟨a, member⟩ := List.exists_mem_of_ne_nil _ some_node
      obtain ⟨here, tall⟩ := List.mem_filter.mp member
      refine Or.inr ⟨a, here, ?_⟩
      rw [removed.height_other a (rest a here)]
      exact le_antisymm (short a here) (by simpa using tall)
  · show int32 (l'.size - 1) = _
    rw [removed.size_eq, linked.size_eq, split, Int.sub_eq_add_neg, int32_add_int32]
    congr 1
    push_cast [List.length_append, List.length_cons]
    ring
  · intro a member key labelled
    exact linked.copied a (inside member) key
      ((removed.keyOf_other a (rest a member)).symm.trans labelled)

end Removed

/-! ## The descent of a deletion -/

section Delete

variable {l : SkiplistMem} {ns : List NodeAddr}

/-- The node the descent breaks at. -/
def Hit (l : SkiplistMem) (key : CStr) (a : NodeAddr) : Prop :=
  l.hashOf a = skiplistHash key ∧ l.keyOf a = some key

instance (l : SkiplistMem) (key : CStr) : DecidablePred (l.Hit key) := fun _ =>
  inferInstanceAs (Decidable (_ ∧ _))

theorem Linked.hit_of_key (linked : l.Linked ns) {key : CStr} {a : NodeAddr} (member : a ∈ ns)
    (labelled : l.keyOf a = some key) : l.Hit key a :=
  ⟨linked.hash_of_key member labelled, labelled⟩

theorem Linked.tested_deletePasses (linked : l.Linked ns) (key : CStr) :
    ∀ a ∈ ns, l.nodes[a]?.bind (deletePasses (skiplistHash key) key) =
      some (decide (l.hashOf a ≤ skiplistHash key ∧ ¬ l.Hit key a)) := by
  intro a member
  obtain ⟨key', labelled, _⟩ := linked.node a member
  obtain ⟨c, here, key_eq, hash_eq⟩ := exists_cell labelled
  rw [here, Option.bind_some, deletePasses, hash_eq]
  by_cases le : l.hashOf a ≤ skiplistHash key
  · rw [if_pos le]
    by_cases same : l.hashOf a = skiplistHash key
    · rw [if_pos same, keyDiffers, key_eq, Option.map_some]
      simp [Hit, labelled, same]
    · rw [if_neg same]
      simp [Hit, le, same]
  · rw [if_neg le]
    simp [le]

/-- The header ends a descent for every key whose hash is smaller than its own;
for the others its null key is compared. -/
theorem Linked.header_deletePasses (linked : l.Linked ns) (key : CStr) :
    l.nodes[skiplistHeader]?.bind (deletePasses (skiplistHash key) key) =
      if skiplistHash key < skiplistMaxSize then some false else none := by
  obtain ⟨c, here, nokey, hash⟩ := linked.header_cell
  have le := skiplistHash_le key
  rw [here, Option.bind_some, deletePasses, hash]
  by_cases below : skiplistHash key < skiplistMaxSize
  · rw [if_pos below, if_neg (by omega)]
  · rw [if_neg below, if_pos (by omega), if_pos (by omega), keyDiffers, nokey, Option.map_none]

/-- The unlinking of a found node. -/
theorem Linked.removed_of_update (linked : l.Linked ns) {pre post : List NodeAddr} {x : NodeAddr}
    (split : ns = pre ++ x :: post) {update : Nat → NodeAddr}
    (recorded : ∀ j, 1 ≤ j → update j = (l.onLevel j pre).getLastD skiplistHeader) :
    ∃ l', unlinkLevels x update l.level 1 l = .ok l' ∧
      Removed l (skiplistNodeDestroy l' x) pre x := by
  have member : x ∈ ns := by rw [split]; simp
  obtain ⟨low, high⟩ := linked.tall x member
  have top := linked.level_le
  have parts : ∀ j, l.onLevel j ns = l.onLevel j pre ++ (l.onLevel j [x] ++ l.onLevel j post) := by
    intro j
    rw [split, ← List.singleton_append, onLevel_append, onLevel_append]
  have pointer : ∀ j, 1 ≤ j → j ≤ l.level → l.slot j (update j) =
      some (some ((l.onLevel j [x] ++ l.onLevel j post).headD skiplistHeader)) := by
    intro j one le
    have chain := linked.chain j one (by omega)
    rw [parts] at chain
    rw [recorded j one]
    exact slot_of_forward chain.append_right.next_eq
  have here : ∀ j, 1 ≤ j → j ≤ l.height x → l.slot j (update j) = some (some x) := by
    intro j one le
    have own : l.onLevel j [x] = [x] := by simp [onLevel, le]
    rw [pointer j one (by omega), own]
    rfl
  have stop : l.height x + 1 < 1 + l.level → ∃ p,
      l.slot (l.height x + 1) (update (l.height x + 1)) = some p ∧ p ≠ some x := by
    intro below
    refine ⟨_, pointer (l.height x + 1) (by omega) (by omega), ?_⟩
    have own : l.onLevel (l.height x + 1) [x] = [] := by simp [onLevel]
    rw [own, List.nil_append]
    intro same
    have gone := linked.not_mem_rest split
    rcases nodes : l.onLevel (l.height x + 1) post with - | ⟨a, rest⟩
    · rw [nodes] at same
      exact gone (Option.some.inj same ▸ List.mem_cons_self)
    · rw [nodes] at same
      obtain rfl : a = x := Option.some.inj same
      have inside : a ∈ l.onLevel (l.height a + 1) post := by rw [nodes]; exact List.mem_cons_self
      exact gone (List.mem_cons_of_mem _ (List.mem_append_right _ (List.mem_of_mem_filter inside)))
  obtain ⟨l', ran, same, slots⟩ := unlinkLevels_spec l.level (by omega) (by omega) here
    (fun j one le => exists_slot one le) stop
  refine ⟨l', ran, ?_, ?_, ?_, ?_, ?_, same.level_eq, same.size_eq⟩
  · intro b other
    rw [keyOf, nodes_destroy_of_ne other, ← keyOf, same.keyOf_eq]
  · intro b other
    rw [hashOf, nodes_destroy_of_ne other, ← hashOf, same.hashOf_eq]
  · intro b other
    rw [height, nodes_destroy_of_ne other, ← height, same.height_eq]
  · intro j one le b other
    rw [forward, slot_destroy_of_ne other, slots, recorded j one]
    by_cases last : b = (l.onLevel j pre).getLastD skiplistHeader
    · rw [if_pos ⟨⟨one, le⟩, last⟩, if_pos last, forward]
    · rw [if_neg (fun both => last both.2), if_neg last, forward]
  · intro j beyond b other
    rw [forward, slot_destroy_of_ne other, slots, if_neg (by omega), forward]

/-- `skiplist_delete` where the descent does not run into the header: a visible
node with the key is unlinked, and without one the list is left alone. -/
theorem Linked.delete (linked : l.Linked ns) {key : CStr}
    (ends : skiplistHash key < skiplistMaxSize ∨ ∃ a ∈ ns, l.level ≤ l.height a ∧ l.Hit key a) :
    ((∃ a, l.Hit key a ∧ Visible l.height l.hashOf ns a) ∧
      ∃ pre x post l' t, ns = pre ++ x :: post ∧ l.keyOf x = some key ∧ Removed l l' pre x ∧
        skiplistDelete l key = .ok ({ l' with level := t, size := int32 (l'.size - 1) }, .ok) ∧
        Linked { l' with level := t, size := int32 (l'.size - 1) } (pre ++ post)) ∨
    ((¬ ∃ a, l.Hit key a ∧ Visible l.height l.hashOf ns a) ∧
      skiplistDelete l key = .ok (l, .err)) := by
  have ends' : l.nodes[skiplistHeader]?.bind (deletePasses (skiplistHash key) key) = some false ∨
      ∃ a ∈ ns, l.level ≤ l.height a ∧ ¬ (l.hashOf a ≤ skiplistHash key ∧ ¬ l.Hit key a) := by
    rcases ends with below | ⟨a, member, tall, hit⟩
    · exact Or.inl ((linked.header_deletePasses key).trans (if_pos below))
    · exact Or.inr ⟨a, member, tall, fun pass => pass.2 hit⟩
  obtain ⟨update, suf, pre, ran, run, split, recorded⟩ :=
    linked.descend (linked.tested_deletePasses key) ends'
  have found_iff := run.head_hit_iff linked.sorted linked.tall (fun a hit => hit.1) linked.level_pos
  obtain ⟨c, next, key_eq, hash_eq⟩ := linked.next split
  by_cases found : ∃ a, (suf 1).head? = some a ∧ l.Hit key a
  · obtain ⟨x, first, hit⟩ := found
    refine Or.inl ⟨found_iff.mp ⟨x, first, hit⟩, ?_⟩
    obtain ⟨post, suffix⟩ : ∃ post, suf 1 = x :: post := List.head?_eq_some_iff.mp first
    rw [suffix] at split
    rw [suffix, List.headD_cons] at next key_eq hash_eq
    obtain ⟨l', unlinked, removed⟩ := linked.removed_of_update split recorded
    obtain ⟨t, lowered, low, high, used, above⟩ := removed.lowerLevel linked split
    refine ⟨pre, x, post, _, t, split, hit.2, removed, ?_,
      removed.linked_result linked split low high used above⟩
    rw [skiplistDelete, ran]
    simp only [bind, Except.bind, next, hash_eq, hit.1, if_true, key_eq, hit.2, unlinked, lowered]
  · refine Or.inr ⟨fun visible => found (found_iff.mpr visible), ?_⟩
    rw [skiplistDelete, ran]
    simp only [bind, Except.bind, next, hash_eq, key_eq]
    by_cases same : l.hashOf ((suf 1).headD skiplistHeader) = skiplistHash key
    · rw [if_pos same, if_neg]
      intro labelled
      apply found
      rcases suffix : suf 1 with - | ⟨x, post⟩
      · rw [suffix, List.headD_nil, linked.header_key] at labelled
        cases labelled
      · rw [suffix, List.headD_cons] at same labelled
        exact ⟨x, rfl, same, labelled⟩
    · rw [if_neg same]

/-- With the header's own hash and no node of the key on the top level, the
descent compares the header's null key. -/
theorem Linked.delete_badAccess (linked : l.Linked ns) {key : CStr}
    (isMax : skiplistHash key = skiplistMaxSize)
    (low : ∀ a ∈ ns, l.keyOf a = some key → l.height a < l.level) :
    skiplistDelete l key = .error .badAccess := by
  obtain ⟨top, top_eq⟩ := Nat.exists_eq_succ_of_ne_zero (Nat.ne_of_gt linked.level_pos)
  have walked : l.walkLevel (deletePasses (skiplistHash key) key) l.level skiplistHeader =
      .error .badAccess := by
    apply walk_eq_badAccess (linked.chain l.level linked.level_pos linked.level_le)
    · intro a member
      obtain ⟨inside, tall⟩ := List.mem_filter.mp member
      rw [linked.tested_deletePasses key a inside]
      obtain ⟨key', _, hash⟩ := linked.node a inside
      have le : l.hashOf a ≤ skiplistHash key := by
        rw [isMax, hash]
        exact skiplistHash_le key'
      have miss : ¬ l.Hit key a := by
        intro hit
        have short := low a inside hit.2
        have : l.level ≤ l.height a := by simpa using tall
        omega
      simp [le, miss]
    · rw [linked.header_deletePasses key, if_neg (by omega)]
    · exact lt_of_le_of_lt (List.length_filter_le _ _) linked.length_lt
  have failed : l.descend (deletePasses (skiplistHash key) key) l.level skiplistHeader
      (fun _ => skiplistHeader) = .error .badAccess := by
    rw [top_eq] at walked ⊢
    rw [SkiplistMem.descend, walked]
    rfl
  rw [skiplistDelete, failed]
  rfl

end Delete

end SkiplistMem

end XFireDB
