import XFireDB.Lib.Runs
import XFireDB.SkiplistDelete

/-!
# Runs of skiplist operations

The states that insertions of any height and deletions reach from
`raw_skiplist_init`, and what the operations do there.  The invariant holds in
all of them, with colliding hashes too; search and deletion rely on more than
that.

A deletion that compares the header's null key does not return, so it has no
step; neither has an insertion whose key `skiplist_set_key` cannot copy.
-/

namespace XFireDB

open Lib

/-- A call on a skiplist.  The height of a new node is drawn by
`skiplist_rand_level`. -/
inductive SkiplistEvent
  | insert (key : CStr) (level : Nat)
  | delete (key : CStr)

/-- The list after a call that returns. -/
def skiplistStep (l : SkiplistMem) : SkiplistEvent → Option SkiplistMem
  | .insert key level =>
      if 1 ≤ level ∧ level ≤ skiplistMaxLevels then
        (skiplistInsert l key level).toOption.map Prod.fst
      else none
  | .delete key => (skiplistDelete l key).toOption.map Prod.fst

namespace SkiplistMem

/-- The nodes linked on the `forward[1]` chain. -/
def Nodes (l : SkiplistMem) (ns : List NodeAddr) : Prop :=
  Chain (l.forward 1) skiplistHeader skiplistHeader ns

instance (l : SkiplistMem) (ns : List NodeAddr) : Decidable (l.Nodes ns) :=
  inferInstanceAs (Decidable (Chain _ _ _ _))

/-- The representation of a skiplist: `chain i` are the nodes on the
`forward[i]` chain. -/
structure WellFormed (l : SkiplistMem) (chain : Nat → List NodeAddr) : Prop where
  chained : ∀ i, 1 ≤ i → i ≤ skiplistMaxLevels →
    Chain (l.forward i) skiplistHeader skiplistHeader (chain i)
  sorted : (chain 1).Pairwise fun a b => l.hashOf a ≤ l.hashOf b
  nested : ∀ i, 2 ≤ i → i ≤ skiplistMaxLevels →
    chain i = (chain (i - 1)).filter fun a => i ≤ l.height a
  level_range : 1 ≤ l.level ∧ l.level ≤ skiplistMaxLevels
  empty_above : ∀ i, l.level < i → i ≤ skiplistMaxLevels → chain i = []
  level_used : l.level = 1 ∨ chain l.level ≠ []
  size_eq : l.size = int32 (chain 1).length

variable {l l' : SkiplistMem} {ns : List NodeAddr}

theorem Linked.nodes (linked : l.Linked ns) : l.Nodes ns := by
  have chain := linked.chain 1 (by decide) (by decide)
  rwa [linked.onLevel_one (List.Subset.refl ns)] at chain

theorem Linked.wellFormed (linked : l.Linked ns) : l.WellFormed fun i => l.onLevel i ns where
  chained := linked.chain
  sorted := by
    simp only [linked.onLevel_one (List.Subset.refl ns)]
    exact linked.sorted
  nested i two _ := by
    rw [onLevel, onLevel, List.filter_filter]
    apply List.filter_congr
    intro a _
    have : i ≤ l.height a → i - 1 ≤ l.height a := by omega
    by_cases tall : i ≤ l.height a <;> simp [tall, this]
  level_range := ⟨linked.level_pos, linked.level_le⟩
  empty_above i above _ := linked.onLevel_above above (List.Subset.refl ns)
  level_used := by
    rcases linked.level_used with one | ⟨a, member, top⟩
    · exact Or.inl one
    · right
      apply List.ne_nil_of_mem (a := a)
      exact List.mem_filter.mpr ⟨member, by simp [top]⟩
  size_eq := by rw [linked.onLevel_one (List.Subset.refl ns), linked.size_eq]

/-! ## The invariant of every run -/

theorem rawSkiplistInit_linked : rawSkiplistInit.Linked [] where
  header_key := rfl
  header_hash := rfl
  header_height := rfl
  node := by simp
  tall := by simp
  distinct := List.nodup_nil
  chain i low high := by
    have slot : rawSkiplistInit.slot i skiplistHeader = some (some skiplistHeader) := by
      rw [SkiplistMem.slot, rawSkiplistInit, skiplistHeader]
      simp only [List.getElem?_cons_zero, Option.bind_some, List.getElem?_replicate]
      rw [if_pos (by omega)]
    rw [onLevel, List.filter_nil, Chain, forward, slot]
    rfl
  sorted := List.Pairwise.nil
  level_pos := by decide
  level_le := by decide
  level_used := Or.inl rfl
  size_eq := rfl
  copied := by simp

/-- What a deletion that returned has done. -/
theorem Linked.delete_returned (linked : l.Linked ns) {key : CStr} {rc : Rc}
    (returned : skiplistDelete l key = .ok (l', rc)) :
    (rc = .ok ∧ ∃ pre x post, ns = pre ++ x :: post ∧ l.keyOf x = some key ∧
      l'.Linked (pre ++ post) ∧ ∀ b, b ≠ x → l'.keyOf b = l.keyOf b) ∨
    (rc = .err ∧ l' = l ∧ ¬ ∃ a, l.Hit key a ∧ Visible l.height l.hashOf ns a) := by
  have ends : skiplistHash key < skiplistMaxSize ∨
      ∃ a ∈ ns, l.level ≤ l.height a ∧ l.Hit key a := by
    by_contra runsOff
    push Not at runsOff
    have isMax := le_antisymm (skiplistHash_le key) runsOff.1
    have failed := linked.delete_badAccess isMax fun a member labelled => by
      by_contra tall
      exact runsOff.2 a member (Nat.le_of_not_lt tall) (linked.hit_of_key member labelled)
    rw [failed] at returned
    cases returned
  rcases linked.delete ends with
    ⟨_, pre, x, post, l₁, t, split, labelled, removed, ran, result⟩ | ⟨hidden, ran⟩
  · rw [ran] at returned
    obtain ⟨rfl, rfl⟩ : _ = l' ∧ Rc.ok = rc := by simpa using returned
    exact Or.inl ⟨rfl, pre, x, post, split, labelled, result, removed.keyOf_other⟩
  · rw [ran] at returned
    obtain ⟨rfl, rfl⟩ : l = l' ∧ Rc.err = rc := by simpa using returned
    exact Or.inr ⟨rfl, rfl, hidden⟩

/-- What a step does: nothing, or it links a node before the first node of an
equal or greater hash, or it unlinks a node. -/
theorem Linked.step_cases (linked : l.Linked ns) {e : SkiplistEvent}
    (fired : skiplistStep l e = some l') :
    l' = l ∨
    (∃ key label level pre post, e = .insert key level ∧ skiplistSetKey key = some label ∧
      ns = pre ++ post ∧ l.keyOf (post.headD skiplistHeader) ≠ some key ∧
      (∀ a ∈ pre, l.hashOf a < skiplistHash key) ∧ (∀ a ∈ post, skiplistHash key ≤ l.hashOf a) ∧
      l'.Linked (pre ++ l.nodes.length :: post) ∧ (∀ a ∈ ns, l'.keyOf a = l.keyOf a) ∧
      l'.keyOf l.nodes.length = some label) ∨
    (∃ key pre x post, e = .delete key ∧ ns = pre ++ x :: post ∧ l'.Linked (pre ++ post) ∧
      ∀ b, b ≠ x → l'.keyOf b = l.keyOf b) := by
  cases e with
  | insert key level =>
      rw [skiplistStep] at fired
      split at fired
      · rename_i range
        obtain ⟨pre, post, split, below, above, ⟨same, ran⟩ | ⟨other, ends, links⟩⟩ :=
          linked.insert key range.2
        · rw [ran] at fired
          exact Or.inl (Option.some.inj fired).symm
        · cases copied : skiplistSetKey key with
          | none =>
              rw [ends copied] at fired
              cases fired
          | some label =>
              obtain ⟨l₁, ran, spliced⟩ := links label copied
              have hash := skiplistHash_of_setKey copied
              rw [ran] at fired
              obtain rfl := Option.some.inj fired
              have below' : ∀ a ∈ pre, l.hashOf a < skiplistHash label := by rwa [hash]
              have above' : ∀ a ∈ post, skiplistHash label ≤ l.hashOf a := by rwa [hash]
              refine Or.inr (Or.inl ⟨key, label, level, pre, post, rfl, copied, split, other, below,
                above, spliced.linked_result linked split below' above' range.1 range.2
                  (short_of_intCopy copied), ?_, ?_⟩)
              · intro a member
                exact spliced.grown.keyOf_old a (linked.lt_nodes (List.mem_cons_of_mem _ member))
              · exact spliced.grown.keyOf_new
      · cases fired
  | delete key =>
      rw [skiplistStep] at fired
      rcases returned : skiplistDelete l key with fault | ⟨l₁, rc⟩
      · rw [returned] at fired
        cases fired
      · rw [returned] at fired
        obtain rfl := Option.some.inj fired
        rcases linked.delete_returned returned with
          ⟨_, pre, x, post, split, _, result, others⟩ | ⟨_, same, _⟩
        · exact Or.inr (Or.inr ⟨key, pre, x, post, rfl, split, result, others⟩)
        · exact Or.inl same

theorem Linked.step (linked : l.Linked ns) {e : SkiplistEvent}
    (fired : skiplistStep l e = some l') : ∃ ns', l'.Linked ns' := by
  rcases linked.step_cases fired with rfl | ⟨_, _, _, _, _, _, _, _, _, _, _, result, _⟩ |
    ⟨_, _, _, _, _, _, result, _⟩
  · exact ⟨ns, linked⟩
  · exact ⟨_, result⟩
  · exact ⟨_, result⟩

theorem linked_of_reach {ok : SkiplistMem → SkiplistEvent → Prop}
    (run : Reach skiplistStep ok rawSkiplistInit l) : ∃ ns, l.Linked ns := by
  apply run.invariant (I := fun l : SkiplistMem => ∃ ns, l.Linked ns) ⟨[], rawSkiplistInit_linked⟩
  intro s e s' inv _ fired
  obtain ⟨ns, linked⟩ := inv
  exact linked.step fired

/-- The nodes on the `forward[1]` chain are those of the invariant. -/
theorem linked_of_nodes {ok : SkiplistMem → SkiplistEvent → Prop}
    (run : Reach skiplistStep ok rawSkiplistInit l) (nodes : l.Nodes ns) : l.Linked ns := by
  obtain ⟨ns', linked⟩ := linked_of_reach run
  obtain rfl : ns' = ns := linked.nodes.unique nodes
  exact linked

/-- In every reachable state the six chains are nested, ordered by hash and
closed by the header, and `level` and, as a 32-bit integer, `size` describe them. -/
theorem wellFormed_of_reachable (run : Reachable skiplistStep rawSkiplistInit l) :
    ∃ chain, l.WellFormed chain := by
  obtain ⟨ns, linked⟩ := linked_of_reach run
  exact ⟨_, linked.wellFormed⟩

/-- The keys `3687` and `298063` have the same hash. -/
def key3687 : CStr := ⟨[51, 54, 56, 55], by decide⟩

def key298063 : CStr := ⟨[50, 57, 56, 48, 54, 51], by decide⟩

/-- A key with the header's hash. -/
def keyMaxHash : CStr := ⟨[0x2d, 0xb8, 0x9c, 0xd0], by decide⟩

/-- A run with colliding hashes, a duplicate key, the header's hash and a
deletion that lowers the level. -/
def collidingRun : List SkiplistEvent :=
  [.insert key3687 1, .insert key298063 5, .insert key3687 2, .insert keyMaxHash 3,
    .delete key298063]

theorem wellFormed_collidingRun :
    ∃ l, runEvents skiplistStep rawSkiplistInit collidingRun = some l ∧ l.level = 3 ∧
      l.size = 3 ∧ ∃ chain, l.WellFormed chain :=
  ⟨_, rfl, rfl, rfl, wellFormed_of_reachable (Reachable.of_runEvents collidingRun rfl)⟩

/-- A run that inserts the two keys of one hash in turn finds the other key first each
time and links a node each time. -/
theorem exists_alternating (n : Nat) : ∃ l ns, Reachable skiplistStep rawSkiplistInit l ∧
    l.Linked ns ∧ ns.length = n ∧ (∀ a ∈ ns, l.hashOf a = skiplistHash key3687) ∧
    l.keyOf (ns.headD skiplistHeader) ≠ some (if n % 2 = 0 then key3687 else key298063) := by
  induction n with
  | zero =>
      refine ⟨_, [], .init, rawSkiplistInit_linked, rfl, by simp, ?_⟩
      rw [List.headD_nil, rawSkiplistInit_linked.header_key]
      exact (Option.some_ne_none _).symm
  | succ n ih =>
      obtain ⟨l, ns, reached, linked, size, hashes, head⟩ := ih
      generalize next : (if n % 2 = 0 then key3687 else key298063) = key at head
      have hash : skiplistHash key = skiplistHash key3687 := by
        rw [← next]
        split
        · rfl
        · decide +kernel
      have short : key.Short := by
        rw [← next]
        split <;> decide
      obtain ⟨pre, post, split, below, above, links⟩ :=
        linked.insert key (show 1 ≤ skiplistMaxLevels by decide)
      -- no linked hash is smaller, so the new node comes first
      obtain rfl : pre = [] := by
        rw [List.eq_nil_iff_forall_not_mem]
        intro a member
        have same := hashes a (split ▸ List.mem_append_left post member)
        have smaller := below a member
        omega
      obtain rfl : ns = post := split
      rcases links with ⟨same, _⟩ | ⟨_, _, links⟩
      · exact absurd same head
      · obtain ⟨l', ran, spliced⟩ := links key (intCopy_of_short short)
        have result := spliced.linked_result linked rfl below above (le_refl 1) (by decide) short
        have fired : skiplistStep l (.insert key 1) =
            some { l' with size := int32 (l'.size + 1) } := by
          rw [skiplistStep, if_pos (by decide), ran]
          rfl
        refine ⟨_, _, .next reached trivial fired, result, by simp [size], ?_, ?_⟩
        · intro a member
          rcases List.mem_cons.mp member with rfl | old
          · exact spliced.grown.hashOf_new.trans hash
          · exact (spliced.grown.hashOf_old a
              (linked.lt_nodes (List.mem_cons_of_mem _ old))).trans (hashes a old)
        · have new : SkiplistMem.keyOf { l' with size := int32 (l'.size + 1) } l.nodes.length =
              some key := spliced.grown.keyOf_new
          rw [List.nil_append, List.headD_cons, new, ← next]
          rcases Nat.mod_two_eq_zero_or_one n with even | odd
          · have later : (n + 1) % 2 ≠ 0 := by omega
            rw [if_pos even, if_neg later]
            decide
          · have here : n % 2 ≠ 0 := by omega
            have later : (n + 1) % 2 = 0 := by omega
            rw [if_neg here, if_pos later]
            decide

/-- With `2^31` nodes the size is negative. -/
theorem size_wraps :
    ∃ l ns, Reachable skiplistStep rawSkiplistInit l ∧ l.Nodes ns ∧ ns.length = 2 ^ 31 ∧
      l.size ≠ ns.length := by
  obtain ⟨l, ns, reached, linked, size, _⟩ := exists_alternating (2 ^ 31)
  refine ⟨l, ns, reached, linked.nodes, size, ?_⟩
  intro same
  have small := (int32_eq_self_iff (Int.natCast_nonneg ns.length)).mp (linked.size_eq ▸ same)
  omega

/-! ## Search -/

/-- A linked key is found, whatever other keys share its hash. -/
theorem search_finds_linked (run : Reachable skiplistStep rawSkiplistInit l) (nodes : l.Nodes ns)
    {key : CStr} {a : NodeAddr} (member : a ∈ ns) (labelled : l.keyOf a = some key) :
    ∃ b ∈ ns, l.keyOf b = some key ∧ skiplistSearch l key = .ok (some b) :=
  (linked_of_nodes run nodes).search_linked member labelled

/-- Both keys of one hash, and a key with the header's hash. -/
def sharedHashRun : List SkiplistEvent :=
  [.insert key298063 2, .insert key3687 1, .insert keyMaxHash 1]

theorem search_finds_linked_sharedHashRun :
    ∃ l, runEvents skiplistStep rawSkiplistInit sharedHashRun = some l ∧ l.Nodes [2, 1, 3] ∧
      (∃ b, l.keyOf b = some key298063 ∧ skiplistSearch l key298063 = .ok (some b)) ∧
      ∃ b, l.keyOf b = some keyMaxHash ∧ skiplistSearch l keyMaxHash = .ok (some b) := by
  refine ⟨_, rfl, by decide, ?_, ?_⟩
  · obtain ⟨b, _, labelled, found⟩ := search_finds_linked (a := 1)
      (Reachable.of_runEvents sharedHashRun rfl)
      (by decide : SkiplistMem.Nodes _ [2, 1, 3]) (by decide) rfl
    exact ⟨b, labelled, found⟩
  · obtain ⟨b, _, labelled, found⟩ := search_finds_linked (a := 3)
      (Reachable.of_runEvents sharedHashRun rfl)
      (by decide : SkiplistMem.Nodes _ [2, 1, 3]) (by decide) rfl
    exact ⟨b, labelled, found⟩

/-- The search for a key that is not linked answers no exactly where no node,
the header included, has the key's hash; it compares the header's null key
otherwise. -/
theorem search_absent_iff (run : Reachable skiplistStep rawSkiplistInit l) (nodes : l.Nodes ns)
    {key : CStr} (absent : ∀ a ∈ ns, l.keyOf a ≠ some key) :
    skiplistSearch l key = .ok none ↔
      skiplistHash key ≠ skiplistMaxSize ∧ ∀ a ∈ ns, l.hashOf a ≠ skiplistHash key := by
  have linked := linked_of_nodes run nodes
  constructor
  · intro answered
    by_contra collides
    rw [not_and_or] at collides
    have failed : skiplistSearch l key = .error .badAccess := by
      apply linked.search_badAccess absent
      rcases collides with isMax | shared
      · exact Or.inl (not_not.mp isMax)
      · push Not at shared
        exact Or.inr shared
    rw [failed] at answered
    cases answered
  · intro found
    obtain ⟨notMax, free⟩ := found
    exact linked.search_no_hash free (lt_of_le_of_ne (skiplistHash_le key) notMax)

/-- A third key, whose hash is its own. -/
def keyA : CStr := ⟨[97], by decide⟩

theorem search_absent_iff_keyA :
    ∃ l, runEvents skiplistStep rawSkiplistInit [.insert key298063 1] = some l ∧
      (∀ a ∈ [1], l.keyOf a ≠ some keyA) ∧ skiplistSearch l keyA = .ok none := by
  refine ⟨_, rfl, by decide, ?_⟩
  exact (search_absent_iff (Reachable.of_runEvents [.insert key298063 1] rfl)
    (by decide : Nodes _ [1]) (by decide)).mpr ⟨by decide, by decide⟩

/-- With `298063` linked, a search for `3687` runs into the header. -/
theorem search_absent_crashes :
    ∃ l ns, Reachable skiplistStep rawSkiplistInit l ∧ l.Nodes ns ∧
      (∀ a ∈ ns, l.keyOf a ≠ some key3687) ∧ skiplistSearch l key3687 ≠ .ok none := by
  refine ⟨_, [1], Reachable.of_runEvents [.insert key298063 1] rfl, by decide, by decide, ?_⟩
  intro answered
  cases answered

/-! ## Deletion -/

/-- What a deletion should do on the nodes `ns`: take one node with the key out
of all chains and report success, or report an error and change nothing. -/
def DeletesKey (l : SkiplistMem) (ns : List NodeAddr) (key : CStr) : Prop :=
  (∃ a ∈ ns, l.keyOf a = some key ∧ ∃ l', skiplistDelete l key = .ok (l', .ok) ∧
    (∀ i chain, 1 ≤ i → i ≤ skiplistMaxLevels →
      Chain (l.forward i) skiplistHeader skiplistHeader chain →
      Chain (l'.forward i) skiplistHeader skiplistHeader (chain.erase a)) ∧
    ∀ b ∈ ns.erase a, l'.keyOf b = l.keyOf b) ∨
  ((∀ a ∈ ns, l.keyOf a ≠ some key) ∧ skiplistDelete l key = .ok (l, .err))

/-- A node with the key that the descent cannot step over: no node of the same
hash behind it is taller, where the header is one if it has that hash. -/
def Deletable (l : SkiplistMem) (ns : List NodeAddr) (key : CStr) : Prop :=
  (∃ a ∈ ns, l.keyOf a = some key ∧ Visible l.height l.hashOf ns a ∧
    (skiplistHash key = skiplistMaxSize → l.level ≤ l.height a)) ∨
  ((∀ a ∈ ns, l.keyOf a ≠ some key) ∧ skiplistHash key ≠ skiplistMaxSize)

/-- A node of the top level is visible. -/
theorem Linked.visible_of_top (linked : l.Linked ns) {a : NodeAddr} (member : a ∈ ns)
    (top : l.level ≤ l.height a) : Visible l.height l.hashOf ns a := by
  obtain ⟨u, w, split⟩ := List.append_of_mem member
  refine ⟨u, w, split, ?_⟩
  intro b behind _
  have inside : b ∈ ns := by rw [split]; simp [behind]
  exact (linked.tall b inside).2.trans top

/-- The effect of unlinking a node on every chain. -/
theorem Removed.deletesKey (linked : l.Linked ns) {pre post : List NodeAddr} {x : NodeAddr}
    {t : Nat} (split : ns = pre ++ x :: post) {key : CStr} (labelled : l.keyOf x = some key)
    (removed : Removed l l' pre x)
    (ran : skiplistDelete l key = .ok ({ l' with level := t, size := int32 (l'.size - 1) }, .ok)) :
    l.DeletesKey ns key := by
  have gone := linked.not_mem_rest split
  have early : x ∉ pre := fun member =>
    gone (List.mem_cons_of_mem _ (List.mem_append_left post member))
  have erased : ns.erase x = pre ++ post := by
    rw [split, List.erase_append_right _ early, List.erase_cons_head]
  refine Or.inl ⟨x, by rw [split]; simp, labelled, _, ran, ?_, ?_⟩
  · intro i chain low high chained
    obtain rfl : l.onLevel i ns = chain := (linked.chain i low high).unique chained
    have rest := removed.chain linked split i low high
    rw [removed.onLevel_eq (fun member => gone (List.mem_cons_of_mem _ member)), ← erased, onLevel,
      List.Nodup.erase_eq_filter linked.distinct, List.filter_filter] at rest
    rw [onLevel, List.Nodup.erase_eq_filter (linked.distinct.filter _), List.filter_filter]
    simp only [Bool.and_comm] at rest ⊢
    exact rest
  · intro b member
    rw [erased] at member
    exact removed.keyOf_other b fun same => gone (same ▸ List.mem_cons_of_mem _ member)

/-- A deletion does what it should exactly where the key has a node that the
descent cannot step over, or is not linked and has not the header's hash. -/
theorem deletesKey_iff (run : Reachable skiplistStep rawSkiplistInit l) (nodes : l.Nodes ns)
    (key : CStr) : l.DeletesKey ns key ↔ l.Deletable ns key := by
  have linked := linked_of_nodes run nodes
  have runsOff : skiplistHash key = skiplistMaxSize →
      (∀ a ∈ ns, l.keyOf a = some key → l.height a < l.level) → ¬ l.DeletesKey ns key := by
    intro isMax low deletes
    have failed := linked.delete_badAccess isMax low
    rcases deletes with ⟨_, _, _, _, ran, _⟩ | ⟨_, ran⟩ <;>
    · rw [failed] at ran
      cases ran
  constructor
  · intro deletes
    by_cases isMax : skiplistHash key = skiplistMaxSize
    · by_cases top : ∃ a ∈ ns, l.keyOf a = some key ∧ l.level ≤ l.height a
      · obtain ⟨a, member, labelled, tall⟩ := top
        exact Or.inl ⟨a, member, labelled, linked.visible_of_top member tall, fun _ => tall⟩
      · push Not at top
        exact absurd deletes (runsOff isMax top)
    · have below := lt_of_le_of_ne (skiplistHash_le key) isMax
      rcases linked.delete (Or.inl below) with ⟨⟨a, hit, visible⟩, _⟩ | ⟨_, ran⟩
      · exact Or.inl ⟨a, visible.mem, hit.2, visible, fun same => absurd same isMax⟩
      · rcases deletes with ⟨_, _, _, _, ran', _⟩ | ⟨absent, _⟩
        · rw [ran] at ran'
          cases ran'
        · exact Or.inr ⟨absent, isMax⟩
  · intro either
    rcases either with ⟨a, member, labelled, visible, top⟩ | ⟨absent, notMax⟩
    · have hit := linked.hit_of_key member labelled
      have ends : skiplistHash key < skiplistMaxSize ∨
          ∃ a ∈ ns, l.level ≤ l.height a ∧ l.Hit key a := by
        rcases Nat.lt_or_eq_of_le (skiplistHash_le key) with below | isMax
        · exact Or.inl below
        · exact Or.inr ⟨a, member, top isMax, hit⟩
      rcases linked.delete ends with
        ⟨_, pre, x, post, l', t, split, labelled', removed, ran, _⟩ | ⟨hidden, _⟩
      · exact removed.deletesKey linked split labelled' ran
      · exact absurd ⟨a, hit, visible⟩ hidden
    · have below := lt_of_le_of_ne (skiplistHash_le key) notMax
      rcases linked.delete (Or.inl below) with ⟨⟨a, hit, visible⟩, _⟩ | ⟨_, ran⟩
      · exact absurd hit.2 (absent a visible.mem)
      · exact Or.inr ⟨absent, ran⟩

/-- A linked key whose only node is behind the taller one of its hash. -/
def deletableRun : List SkiplistEvent := [.insert key3687 1, .insert key298063 2]

theorem deletesKey_deletableRun :
    ∃ l, runEvents skiplistStep rawSkiplistInit deletableRun = some l ∧ l.Nodes [2, 1] ∧
      l.DeletesKey [2, 1] key3687 := by
  refine ⟨_, rfl, by decide, ?_⟩
  apply (deletesKey_iff (Reachable.of_runEvents deletableRun rfl) (by decide) key3687).mpr
  exact Or.inl ⟨1, by decide, rfl, ⟨[2], [], rfl, by decide⟩, by decide⟩

/-- The same keys in the other order: `3687` is linked before the taller
`298063`, which the descent passes on level 2, and the deletion fails. -/
theorem hidden_key_not_deleted :
    ∃ l ns, Reachable skiplistStep rawSkiplistInit l ∧ l.Nodes ns ∧
      (∃ a ∈ ns, l.keyOf a = some key3687) ∧ ¬ l.DeletesKey ns key3687 := by
  refine ⟨_, [2, 1], Reachable.of_runEvents [.insert key298063 2, .insert key3687 1] rfl,
    by decide, by decide, ?_⟩
  intro either
  rcases either with ⟨_, _, _, _, ran, _⟩ | ⟨absent, _⟩
  · cases ran
  · exact absent 2 (by decide) rfl

/-! ## Unique keys -/

/-- The key, or the copy of it that an insertion would link, is linked. -/
def Present (l : SkiplistMem) (ns : List NodeAddr) (key : CStr) : Prop :=
  ∃ a ∈ ns, l.keyOf a = some key ∨ l.keyOf a = skiplistSetKey key

/-- The condition on an insertion: a key that is linked itself or as a copy is that
of the first node with its hash. -/
def FirstOfHash (l : SkiplistMem) : SkiplistEvent → Prop
  | .insert key _ => ∀ ns, l.Nodes ns → l.Present ns key →
      ∃ a, ns.find? (fun a => l.hashOf a = skiplistHash key) = some a ∧ l.keyOf a = some key
  | .delete _ => True

theorem Linked.hash_of_present (linked : l.Linked ns) {key : CStr} {a : NodeAddr}
    (member : a ∈ ns) (labelled : l.keyOf a = some key ∨ l.keyOf a = skiplistSetKey key) :
    l.hashOf a = skiplistHash key := by
  rcases labelled with whole | copy
  · exact linked.hash_of_key member whole
  · obtain ⟨label, labelled, _⟩ := linked.node a member
    rw [linked.hash_of_key member labelled]
    exact skiplistHash_of_setKey (copy.symm.trans labelled)

/-- The node an insertion compares is the first one with the key's hash, if
the key is linked. -/
theorem Linked.compared_key (linked : l.Linked ns) {pre post : List NodeAddr} {key : CStr}
    {level : Nat} (split : ns = pre ++ post) (below : ∀ a ∈ pre, l.hashOf a < skiplistHash key)
    (above : ∀ a ∈ post, skiplistHash key ≤ l.hashOf a)
    (first : FirstOfHash l (.insert key level)) (present : l.Present ns key) :
    l.keyOf (post.headD skiplistHeader) = some key := by
  obtain ⟨a, found, labelled⟩ := first ns linked.nodes present
  obtain ⟨b, member, labelled'⟩ := present
  have same := linked.head_hash split below above
    (Or.inr ⟨b, member, linked.hash_of_present member labelled'⟩)
  have early : pre.find? (fun a => l.hashOf a = skiplistHash key) = none := by
    rw [List.find?_eq_none]
    intro c inside
    have := below c inside
    simp only [decide_eq_true_eq]
    omega
  rw [split, List.find?_append, early, Option.none_or] at found
  rcases post with - | ⟨c, rest⟩
  · cases found
  · rw [List.headD_cons] at same ⊢
    rw [List.find?_cons_of_pos (by simpa using same)] at found
    rw [Option.some.inj found]
    exact labelled

/-- Linked nodes with distinct keys. -/
def UniqueKeys (l : SkiplistMem) (ns : List NodeAddr) : Prop := (ns.map l.keyOf).Nodup

/-- A new node with a new key keeps the keys distinct. -/
theorem UniqueKeys.grow {pre post : List NodeAddr} (unique : l.UniqueKeys (pre ++ post))
    (old : ∀ a ∈ pre ++ post, l'.keyOf a = l.keyOf a) {x : NodeAddr} {key : CStr}
    (new : l'.keyOf x = some key) (absent : ¬ ∃ a ∈ pre ++ post, l.keyOf a = some key) :
    l'.UniqueKeys (pre ++ x :: post) := by
  have same : (pre ++ post).map l'.keyOf = (pre ++ post).map l.keyOf := List.map_congr_left old
  rw [UniqueKeys, ← same, List.map_append] at unique
  rw [UniqueKeys, List.map_append, List.map_cons, List.nodup_middle, new, List.nodup_cons]
  refine ⟨?_, unique⟩
  rw [← List.map_append, same, List.mem_map]
  exact absent

/-- Taking a node out keeps the keys distinct. -/
theorem UniqueKeys.shrink {pre post : List NodeAddr} {x : NodeAddr}
    (unique : l.UniqueKeys (pre ++ x :: post))
    (others : ∀ a ∈ pre ++ post, l'.keyOf a = l.keyOf a) : l'.UniqueKeys (pre ++ post) := by
  have same : (pre ++ post).map l'.keyOf = (pre ++ post).map l.keyOf := List.map_congr_left others
  rw [UniqueKeys, List.map_append, List.map_cons, List.nodup_middle, List.nodup_cons] at unique
  rw [UniqueKeys, same, List.map_append]
  exact unique.2

/-- The nodes but the deleted one. -/
theorem Linked.ne_of_rest (linked : l.Linked ns) {pre post : List NodeAddr} {x : NodeAddr}
    (split : ns = pre ++ x :: post) : ∀ a ∈ pre ++ post, a ≠ x := by
  intro a member same
  exact linked.not_mem_rest split (same ▸ List.mem_cons_of_mem _ member)

/-- An insertion that meets the condition and a deletion keep the keys
distinct. -/
theorem Linked.uniqueKeys_step (linked : l.Linked ns) (unique : l.UniqueKeys ns)
    {e : SkiplistEvent} (first : FirstOfHash l e) (fired : skiplistStep l e = some l') :
    ∃ ns', l'.Linked ns' ∧ l'.UniqueKeys ns' := by
  rcases linked.step_cases fired with rfl |
    ⟨key, label, level, pre, post, rfl, copied, split, other, below, above, result, old, new⟩ |
    ⟨key, pre, x, post, rfl, split, result, others⟩
  · exact ⟨ns, linked, unique⟩
  · have absent : ¬ ∃ a ∈ ns, l.keyOf a = some label := by
      intro found
      obtain ⟨a, member, labelled⟩ := found
      have present : l.Present ns key := ⟨a, member, Or.inr (labelled.trans copied.symm)⟩
      exact other (linked.compared_key split below above first present)
    rw [split] at unique old absent
    exact ⟨_, result, unique.grow old new absent⟩
  · have rest := linked.ne_of_rest split
    rw [split] at unique
    exact ⟨_, result, unique.shrink fun a member => others a (rest a member)⟩

/-- In every run whose insertions meet the condition the linked keys are
distinct, and inserting a linked key changes nothing. -/
theorem keys_unique_of_firstOfHash (run : Reach skiplistStep FirstOfHash rawSkiplistInit l)
    (nodes : l.Nodes ns) :
    l.UniqueKeys ns ∧ ∀ key level, FirstOfHash l (.insert key level) →
      level ≤ skiplistMaxLevels → (∃ a ∈ ns, l.keyOf a = some key) →
      skiplistInsert l key level = .ok (l, .ok) := by
  have linked := linked_of_nodes run nodes
  constructor
  · have inv : ∃ ns, l.Linked ns ∧ l.UniqueKeys ns := by
      apply run.invariant (I := fun l : SkiplistMem => ∃ ns, l.Linked ns ∧ l.UniqueKeys ns)
      · exact ⟨[], rawSkiplistInit_linked, List.nodup_nil⟩
      · intro s e s' inv first fired
        obtain ⟨ns, linked, unique⟩ := inv
        exact linked.uniqueKeys_step unique first fired
    obtain ⟨ns', linked', unique⟩ := inv
    obtain rfl : ns' = ns := linked'.nodes.unique nodes
    exact unique
  · intro key level first high found
    obtain ⟨a, member, labelled⟩ := found
    have present : l.Present ns key := ⟨a, member, Or.inl labelled⟩
    obtain ⟨pre, post, split, below, above, ⟨_, ran⟩ | ⟨other, _⟩⟩ := linked.insert key high
    · exact ran
    · exact absurd (linked.compared_key split below above first present) other

/-- A decidable condition that implies `FirstOfHash`: the key is copied whole and in
no node. -/
def keyIsNew (l : SkiplistMem) : SkiplistEvent → Bool
  | .insert key _ => decide key.Short && l.nodes.all fun c => c.key ≠ some key
  | .delete _ => true

theorem firstOfHash_of_keyIsNew (l : SkiplistMem) (e : SkiplistEvent)
    (new : l.keyIsNew e = true) : FirstOfHash l e := by
  cases e with
  | delete key => trivial
  | insert key level =>
      rw [keyIsNew, Bool.and_eq_true, decide_eq_true_iff] at new
      rintro ns - ⟨a, _, labelled⟩
      rw [skiplistSetKey, intCopy_of_short new.1, or_self] at labelled
      obtain ⟨c, here, key_eq, _⟩ := exists_cell labelled
      have other := List.all_eq_true.mp new.2 c (List.mem_of_getElem? here)
      simp [key_eq] at other

/-- Two keys with hashes of their own. -/
def uniqueRun : List SkiplistEvent := [.insert key298063 1, .insert keyA 2]

theorem keys_unique_uniqueRun :
    ∃ l, runEvents skiplistStep rawSkiplistInit uniqueRun = some l ∧ l.Nodes [1, 2] ∧
      l.UniqueKeys [1, 2] ∧ skiplistInsert l keyA 3 = .ok (l, .ok) := by
  refine ⟨_, rfl, by decide, ?_⟩
  obtain ⟨unique, unchanged⟩ := keys_unique_of_firstOfHash
    (Reach.of_guardedEvents keyIsNew firstOfHash_of_keyIsNew uniqueRun rfl rfl)
    (by decide : Nodes _ [1, 2])
  refine ⟨unique, unchanged keyA 3 ?_ (by decide) ⟨2, by decide, rfl⟩⟩
  intro ns chain _
  obtain rfl : [1, 2] = ns := Chain.unique (by decide) chain
  exact ⟨2, rfl, rfl⟩

/-- Inserting `3687` twice around `298063` links it twice: the second insertion
compares the key `298063` only. -/
theorem duplicate_key_linked :
    ∃ l ns, Reachable skiplistStep rawSkiplistInit l ∧ l.Nodes ns ∧ ¬ l.UniqueKeys ns := by
  refine ⟨_, [3, 2, 1], Reachable.of_runEvents
    [.insert key3687 1, .insert key298063 1, .insert key3687 1] rfl, by decide, ?_⟩
  intro unique
  exact (List.nodup_cons.mp unique).1 (by decide)

end SkiplistMem

end XFireDB
