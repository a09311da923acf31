import XFireDB.Lib.Descent
import XFireDB.SkiplistMem

/-!
# The chains of a skiplist

`SkiplistMem.Linked l ns` ties the pointers of a skiplist to the list `ns` of
its nodes in `forward[1]` order: the chain of every level runs through the
nodes that are tall enough, `level` says what it should, and `size` does as a 32-bit integer.

A descent of the source then is a `Descent` over `ns`, whatever its test is,
and every `update[i]` it records is the last node on level `i` before the
position it ends at.
-/

namespace XFireDB

open Lib

namespace SkiplistMem

/-- The key of a node. -/
def keyOf (l : SkiplistMem) (a : NodeAddr) : Option CStr := l.nodes[a]?.bind SkiplistCell.key

/-- The hash stored in a node. -/
def hashOf (l : SkiplistMem) (a : NodeAddr) : Nat := (l.nodes[a]?.map SkiplistCell.hash).getD 0

/-- The highest level a node has a slot for. -/
def height (l : SkiplistMem) (a : NodeAddr) : Nat :=
  (l.nodes[a]?.map fun c => c.forward.length - 1).getD 0

/-- The nodes of `ns` that are on level `i`. -/
def onLevel (l : SkiplistMem) (i : Nat) (ns : List NodeAddr) : List NodeAddr :=
  ns.filter (i ≤ l.height ·)

theorem onLevel_append (l : SkiplistMem) (i : Nat) (s t : List NodeAddr) :
    l.onLevel i (s ++ t) = l.onLevel i s ++ l.onLevel i t :=
  List.filter_append s t

/-! ## Rewiring a pointer -/

section SetForward

variable (l : SkiplistMem) (a : NodeAddr) (i : Nat) (p : Option NodeAddr)

@[simp] theorem level_setForward : (l.setForward a i p).level = l.level := rfl

@[simp] theorem size_setForward : (l.setForward a i p).size = l.size := rfl

@[simp] theorem keyOf_setForward (b : NodeAddr) :
    (l.setForward a i p).keyOf b = l.keyOf b := by
  rcases here : l.nodes[b]? with - | c <;> by_cases same : a = b <;>
    simp [keyOf, setForward, here, same]

@[simp] theorem hashOf_setForward (b : NodeAddr) :
    (l.setForward a i p).hashOf b = l.hashOf b := by
  rcases here : l.nodes[b]? with - | c <;> by_cases same : a = b <;>
    simp [hashOf, setForward, here, same]

@[simp] theorem height_setForward (b : NodeAddr) :
    (l.setForward a i p).height b = l.height b := by
  rcases here : l.nodes[b]? with - | c <;> by_cases same : a = b <;>
    simp [height, setForward, here, same]

theorem slot_setForward (j : Nat) (b : NodeAddr) :
    (l.setForward a i p).slot j b =
      if b = a ∧ j = i then (l.slot i a).map fun _ => p else l.slot j b := by
  by_cases node : b = a
  · subst node
    by_cases level : j = i
    · subst level
      rw [if_pos ⟨rfl, rfl⟩]
      rcases here : l.nodes[b]? with - | c
      · simp [slot, setForward, here]
      · by_cases inside : j < c.forward.length <;>
          simp [slot, setForward, here, inside]
    · rw [if_neg fun both => level both.2]
      rcases here : l.nodes[b]? with - | c <;>
        simp [slot, setForward, here, Ne.symm level]
  · rw [if_neg fun both => node both.1]
    simp [slot, setForward, Ne.symm node]

end SetForward

/-- A node has a slot for every level up to its height. -/
theorem exists_slot {l : SkiplistMem} {a : NodeAddr} {i : Nat} (low : 1 ≤ i)
    (high : i ≤ l.height a) : ∃ p, l.slot i a = some p := by
  rcases here : l.nodes[a]? with - | c
  · simp only [height, here, Option.map_none, Option.getD_none] at high
    omega
  · simp only [height, here, Option.map_some, Option.getD_some] at high
    have inside : i < c.forward.length := by omega
    exact ⟨c.forward[i], by simp [slot, here, inside]⟩

theorem slot_of_forward {l : SkiplistMem} {a b : NodeAddr} {i : Nat}
    (here : l.forward i a = some b) : l.slot i a = some (some b) :=
  Option.join_eq_some_iff.mp here

/-- What `keyOf` and `hashOf` say of the node a test reads. -/
theorem exists_cell {l : SkiplistMem} {a : NodeAddr} {key : CStr}
    (labelled : l.keyOf a = some key) :
    ∃ c, l.nodes[a]? = some c ∧ c.key = some key ∧ c.hash = l.hashOf a := by
  rcases here : l.nodes[a]? with - | c
  · simp [keyOf, here] at labelled
  · refine ⟨c, rfl, ?_, ?_⟩
    · simpa [keyOf, here] using labelled
    · simp [hashOf, here]

/-! ## The invariant -/

/-- The skiplist holds the nodes `ns`, in `forward[1]` order. -/
structure Linked (l : SkiplistMem) (ns : List NodeAddr) : Prop where
  header_key : l.keyOf skiplistHeader = none
  header_hash : l.hashOf skiplistHeader = skiplistMaxSize
  header_height : l.height skiplistHeader = skiplistMaxLevels
  node : ∀ a ∈ ns, ∃ key, l.keyOf a = some key ∧ l.hashOf a = skiplistHash key
  tall : ∀ a ∈ ns, 1 ≤ l.height a ∧ l.height a ≤ l.level
  distinct : ns.Nodup
  chain : ∀ i, 1 ≤ i → i ≤ skiplistMaxLevels →
    Chain (l.forward i) skiplistHeader skiplistHeader (l.onLevel i ns)
  sorted : ns.Pairwise (l.hashOf · ≤ l.hashOf ·)
  level_pos : 1 ≤ l.level
  level_le : l.level ≤ skiplistMaxLevels
  level_used : l.level = 1 ∨ ∃ a ∈ ns, l.height a = l.level
  size_eq : l.size = int32 ns.length
  copied : ∀ a ∈ ns, ∀ key, l.keyOf a = some key → key.Short

section Linked

variable {l : SkiplistMem} {ns : List NodeAddr}

theorem Linked.onLevel_one (linked : l.Linked ns) {s : List NodeAddr} (inside : s ⊆ ns) :
    l.onLevel 1 s = s := by
  rw [onLevel, List.filter_eq_self]
  intro a member
  simpa using (linked.tall a (inside member)).1

/-- No node is on a level above the list's. -/
theorem Linked.onLevel_above (linked : l.Linked ns) {i : Nat} (high : l.level < i)
    {s : List NodeAddr} (inside : s ⊆ ns) : l.onLevel i s = [] := by
  rw [onLevel, List.filter_eq_nil_iff]
  intro a member
  have := (linked.tall a (inside member)).2
  simp only [decide_eq_true_eq]
  omega

theorem Linked.header_not_mem (linked : l.Linked ns) : skiplistHeader ∉ ns := by
  have closed := (linked.chain 1 (by decide) (by decide)).stop_not_mem
  rwa [linked.onLevel_one (List.Subset.refl ns)] at closed

theorem lt_nodes_of_height_pos {a : NodeAddr} (pos : 1 ≤ l.height a) : a < l.nodes.length := by
  by_contra outside
  rw [height, List.getElem?_eq_none (Nat.le_of_not_lt outside)] at pos
  simp at pos

theorem Linked.lt_nodes (linked : l.Linked ns) {a : NodeAddr} (member : a ∈ skiplistHeader :: ns) :
    a < l.nodes.length := by
  apply lt_nodes_of_height_pos
  rcases List.mem_cons.mp member with rfl | node
  · rw [linked.header_height]
    decide
  · exact (linked.tall a node).1

theorem Linked.nodup_header (linked : l.Linked ns) : (skiplistHeader :: ns).Nodup :=
  List.nodup_cons.mpr ⟨linked.header_not_mem, linked.distinct⟩

theorem Linked.nodup_onLevel (linked : l.Linked ns) (i : Nat) :
    (skiplistHeader :: l.onLevel i ns).Nodup :=
  linked.nodup_header.sublist (List.Sublist.cons_cons _ List.filter_sublist)

/-- A walk over the nodes has fuel enough. -/
theorem Linked.length_lt (linked : l.Linked ns) : ns.length < l.nodes.length := by
  have inside : skiplistHeader :: ns ⊆ List.range l.nodes.length := by
    intro a member
    exact List.mem_range.mpr (linked.lt_nodes member)
  have bound := (List.subperm_of_subset linked.nodup_header inside).length_le
  simpa using bound

/-! ## Descents -/

/-- One level of a descent: from behind `pre` it moves over some nodes of `s`. -/
theorem Linked.walkLevel (linked : l.Linked ns) {i : Nat} (low : 1 ≤ i)
    (high : i ≤ skiplistMaxLevels) {pre s : List NodeAddr} (split : ns = pre ++ s)
    (start : ∀ b, pre.getLast? = some b → i ≤ l.height b) {test : SkiplistCell → Option Bool}
    {go : NodeAddr → Prop} [DecidablePred go]
    (tested : ∀ a ∈ ns, l.nodes[a]?.bind test = some (decide (go a)))
    (ends : l.nodes[skiplistHeader]?.bind test = some false ∨
      ∃ a ∈ s, i ≤ l.height a ∧ ¬ go a) :
    ∃ m t, s = m ++ t ∧ Level l.height go i s t ∧
      l.walkLevel test i (pre.getLastD skiplistHeader) =
        .ok ((pre ++ m).getLastD skiplistHeader) := by
  have parts : l.onLevel i s = (l.onLevel i s).takeWhile (go ·) ++
    (l.onLevel i s).dropWhile (go ·) :=
    List.takeWhile_append_dropWhile.symm
  have inside : ∀ a ∈ l.onLevel i s, a ∈ ns := by
    intro a member
    rw [split]
    exact List.mem_append_right pre (List.mem_of_mem_filter member)
  have passed : ∀ a ∈ (l.onLevel i s).takeWhile (go ·), go a := by
    intro a member
    simpa using List.mem_takeWhile_imp member
  have stopped : ∀ b, ((l.onLevel i s).dropWhile (go ·)).head? = some b → ¬ go b := by
    intro b first
    have stop := List.head?_dropWhile_not (go ·) (l.onLevel i s)
    rw [first] at stop
    simpa using stop
  obtain ⟨m, t, eq, _, position, level⟩ := Level.of_filter parts passed stopped
  refine ⟨m, t, eq, level, ?_⟩
  have chain := linked.chain i low high
  rw [onLevel, split, List.filter_append] at chain
  have after := chain.append_right
  rw [getLastD_filter (by simpa using start), ← onLevel, parts] at after
  rw [getLastD_append, position]
  apply walk_eq_ok after
  · intro a member
    have go_a := passed a member
    have linked_a := inside a (List.takeWhile_subset _ member)
    simp only [tested a linked_a, go_a, decide_true]
  · rcases rest : (l.onLevel i s).dropWhile (go ·) with - | ⟨b, bs⟩
    · -- nothing on the level stops the walk, so it tests the header
      rcases ends with header | ⟨a, member, tall, stop⟩
      · exact header
      · have all := List.dropWhile_eq_nil_iff.mp rest a
          (List.mem_filter.mpr ⟨member, by simpa using tall⟩)
        exact absurd (by simpa using all) stop
    · have stop := stopped b (by rw [rest]; rfl)
      have linked_b : b ∈ ns := by
        apply inside b
        apply List.dropWhile_subset (go ·)
        rw [rest]
        exact List.mem_cons_self
      simp only [List.headD_cons, tested b linked_b, stop, decide_false]
  · have short : ((l.onLevel i s).takeWhile (go ·)).length ≤ ns.length := by
      calc ((l.onLevel i s).takeWhile (go ·)).length
          ≤ (l.onLevel i s).length := (List.takeWhile_sublist _).length_le
        _ ≤ s.length := List.length_filter_le _ _
        _ ≤ ns.length := by rw [split, List.length_append]; omega
    have := linked.length_lt
    omega

/-- A descent from behind `pre` over the levels `i` to 1.  Each recorded
`update[j]` is the node before what is left when level `j` is done. -/
theorem Linked.descend_from (linked : l.Linked ns) {test : SkiplistCell → Option Bool}
    {go : NodeAddr → Prop} [DecidablePred go]
    (tested : ∀ a ∈ ns, l.nodes[a]?.bind test = some (decide (go a))) {i : Nat}
    (high : i ≤ skiplistMaxLevels) {pre s : List NodeAddr} (split : ns = pre ++ s)
    (start : ∀ b, pre.getLast? = some b → i ≤ l.height b)
    (ends : l.nodes[skiplistHeader]?.bind test = some false ∨
      ∃ a ∈ s, i ≤ l.height a ∧ ¬ go a) (update : Nat → NodeAddr) :
    ∃ x update' suf, l.descend test i (pre.getLastD skiplistHeader) update = .ok (x, update') ∧
      Descent l.height go i s suf ∧
      (∃ pre', ns = pre' ++ suf 1 ∧ x = pre'.getLastD skiplistHeader) ∧
      (∀ j, i < j → update' j = update j) ∧
      ∀ j, 1 ≤ j → j ≤ i → ∃ pre', ns = pre' ++ suf j ∧
        update' j = pre'.getLastD skiplistHeader := by
  induction i generalizing pre s update with
  | zero =>
      refine ⟨_, update, fun _ => s, rfl, ⟨rfl, ?_⟩, ⟨pre, split, rfl⟩, fun _ _ => rfl, ?_⟩
      · intro j low high
        omega
      · intro j low high
        omega
  | succ i ih =>
      obtain ⟨m, t, eq, level, walked⟩ :=
        linked.walkLevel (by omega) high split start tested ends
      have split' : ns = (pre ++ m) ++ t := by rw [split, eq, List.append_assoc]
      obtain ⟨m', eq', pass, last⟩ := level.moved
      obtain rfl : m = m' := List.append_cancel_right (eq.symm.trans eq')
      have start' : ∀ b, (pre ++ m).getLast? = some b → i ≤ l.height b := by
        intro b found
        rcases List.eq_nil_or_concat' m with rfl | ⟨front, c, rfl⟩
        · rw [List.append_nil] at found
          exact (start b found).trans' (Nat.le_succ i)
        · have found' : (front ++ [c]).getLast? = some b := by
            simpa [List.getLast?_append] using found
          exact (last b found').1.trans' (Nat.le_succ i)
      have ends' : l.nodes[skiplistHeader]?.bind test = some false ∨
          ∃ a ∈ t, i ≤ l.height a ∧ ¬ go a := by
        rcases ends with header | ⟨a, member, tall, stop⟩
        · exact Or.inl header
        · rw [eq] at member
          rcases List.mem_append.mp member with moved | left
          · exact absurd (pass a moved tall) stop
          · exact Or.inr ⟨a, left, by omega, stop⟩
      obtain ⟨x, update', suf, ran, run, position, above, recorded⟩ :=
        ih (by omega) split' start' ends'
          (Function.update update (i + 1) ((pre ++ m).getLastD skiplistHeader))
      refine ⟨x, update', Function.update suf (i + 2) s, ?_, run.cons level, ?_, ?_, ?_⟩
      · rw [descend, walked]
        exact ran
      · rw [Function.update_of_ne (by omega)]
        exact position
      · intro j above_j
        rw [above j (by omega), Function.update_of_ne (by omega)]
      · intro j low high_j
        rw [Function.update_of_ne (by omega)]
        rcases Nat.lt_or_eq_of_le high_j with below | rfl
        · exact recorded j low (by omega)
        · refine ⟨pre ++ m, by rw [run.start, split'], ?_⟩
          rw [above (i + 1) (by omega), Function.update_self]

/-- The descent of a list operation.  It ends between `pre` and `post`, and
`update[j]` is the last node of `pre` on level `j`, for all levels above the
list's too. -/
theorem Linked.descend (linked : l.Linked ns) {test : SkiplistCell → Option Bool}
    {go : NodeAddr → Prop} [DecidablePred go]
    (tested : ∀ a ∈ ns, l.nodes[a]?.bind test = some (decide (go a)))
    (ends : l.nodes[skiplistHeader]?.bind test = some false ∨
      ∃ a ∈ ns, l.level ≤ l.height a ∧ ¬ go a) :
    ∃ update suf pre, l.descend test l.level skiplistHeader (fun _ => skiplistHeader) =
        .ok (pre.getLastD skiplistHeader, update) ∧
      Descent l.height go l.level ns suf ∧ ns = pre ++ suf 1 ∧
      ∀ j, 1 ≤ j → update j = (l.onLevel j pre).getLastD skiplistHeader := by
  obtain ⟨x, update, suf, ran, run, ⟨pre, split, rfl⟩, above, recorded⟩ :=
    linked.descend_from tested linked.level_le (List.nil_append ns).symm (by simp) ends
      (fun _ => skiplistHeader)
  refine ⟨update, suf, pre, ran, run, split, ?_⟩
  intro j low
  rcases Nat.lt_or_ge l.level j with high | high
  · have inside : pre ⊆ ns := by
      rw [split]
      exact List.subset_append_left pre _
    rw [above j high, linked.onLevel_above high inside]
    rfl
  · obtain ⟨pre', split', update_eq⟩ := recorded j low high
    obtain ⟨m, eq, short⟩ := run.short_below low high
    obtain ⟨pre'', split'', last⟩ := run.last low (by omega)
    obtain rfl : pre' = pre'' := List.append_cancel_right (split'.symm.trans split'')
    have pre_eq : pre = pre' ++ m := by
      have whole : pre ++ suf 1 = pre' ++ m ++ suf 1 := by
        rw [← split, List.append_assoc, ← eq, split']
      exact List.append_cancel_right whole
    have none_of_m : m.filter (j ≤ l.height ·) = [] := by
      rw [List.filter_eq_nil_iff]
      intro a member
      have := short a member
      simp only [decide_eq_true_eq]
      omega
    rw [update_eq, onLevel, pre_eq, List.filter_append, none_of_m, List.append_nil,
      getLastD_filter]
    intro b found
    simpa using (last b found).1

end Linked

end SkiplistMem

end XFireDB
