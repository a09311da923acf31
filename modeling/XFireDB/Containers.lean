import XFireDB.SkiplistRuns

/-!
# Hashmaps and sets on a skiplist

`hashmap.c` and `set.c` keep a counter `num` beside the skiplist, and
`hashmap_size` and `set_size` read that counter.  The wrappers count on their
own: `hashmap_add` counts every insertion, also one that links nothing, and the
two clearing loops unlink nodes without counting.  The counter is an `atomic_t`,
a 32-bit integer that wraps.
-/

namespace XFireDB

open Lib

/-- `struct hashmap` and `struct set`. -/
structure CountedList where
  list : SkiplistMem
  num : Int

namespace CountedList

/-- `hashmap_init` and `set_init`. -/
def init : CountedList := ⟨rawSkiplistInit, 0⟩

/-! ## The operations -/

/-- Insert a node and count it if the skiplist reports success. -/
def insertCounted (m : CountedList) (key : CStr) (level : Nat) :
    Except Fault (CountedList × Rc) := do
  let (l, rc) ← skiplistInsert m.list key level
  if rc = .ok then .ok (⟨l, int32 (m.num + 1)⟩, .ok) else .ok (⟨l, m.num⟩, .err)

/-- Look the node up, delete the key and uncount it if the skiplist reports
success. -/
def removeCounted (m : CountedList) (key : CStr) :
    Except Fault (CountedList × Option NodeAddr) := do
  let node ← skiplistSearch m.list key
  let (l, rc) ← skiplistDelete m.list key
  if rc = .ok then .ok (⟨l, int32 (m.num - 1)⟩, node) else .ok (⟨l, m.num⟩, none)

/-- The loop that deletes every node an iterator returns. -/
def clearLoop : Nat → SkiplistMem → SkiplistIterator → Except Fault SkiplistMem
  | 0, _, _ => .error .diverge
  | fuel + 1, l, it => do
      let it ← skiplistIteratorNext l it
      if it.current = none then .ok l
      else
        let (l, it) ← skiplistIteratorDelete l it
        clearLoop fuel l it

/-- Run the loop.  It takes a round for each node and one for the end. -/
def clearNodes (m : CountedList) : Except Fault CountedList := do
  let l ← clearLoop m.list.nodes.length m.list skiplistIteratorNew
  .ok ⟨l, m.num⟩

def hashmapAdd (m : CountedList) (key : CStr) (level : Nat) : Except Fault (CountedList × Rc) :=
  m.insertCounted key level

def hashmapRemove (m : CountedList) (key : CStr) : Except Fault (CountedList × Option NodeAddr) :=
  m.removeCounted key

/-- `rb_hashmap_clear` as far as the map is concerned: `hashmap_iterator_next`
and `hashmap_iterator_delete` until the end. -/
def hashmapClear (m : CountedList) : Except Fault CountedList := m.clearNodes

def hashmapSize (m : CountedList) : Int := m.num

def setContains (m : CountedList) (key : CStr) : Except Fault Bool := do
  let node ← skiplistSearch m.list key
  .ok node.isSome

/-- `set_add`, which tests for the key first. -/
def setAdd (m : CountedList) (key : CStr) (level : Nat) : Except Fault (CountedList × Rc) := do
  if ← setContains m key then .ok (m, .err) else m.insertCounted key level

def setRemove (m : CountedList) (key : CStr) : Except Fault (CountedList × Option NodeAddr) :=
  m.removeCounted key

def setClear (m : CountedList) : Except Fault CountedList := m.clearNodes

def setSize (m : CountedList) : Int := m.num

/-! ## Runs -/

/-- An operation on a hashmap or a set.  The height of a new node is drawn. -/
inductive Event
  | add (key : CStr) (level : Nat)
  | remove (key : CStr)
  | clear

/-- The operation is about a key of `K` and draws a height that exists. -/
def Event.Over (K : CStr → Prop) : Event → Prop
  | .add key level => K key ∧ 1 ≤ level ∧ level ≤ skiplistMaxLevels
  | .remove key => K key
  | .clear => True

/-- The hashmap after an operation that returns. -/
def hashmapStep (m : CountedList) : Event → Option CountedList
  | .add key level => (hashmapAdd m key level).toOption.map Prod.fst
  | .remove key => (hashmapRemove m key).toOption.map Prod.fst
  | .clear => (hashmapClear m).toOption

/-- The set after an operation that returns. -/
def setStep (m : CountedList) : Event → Option CountedList
  | .add key level => (setAdd m key level).toOption.map Prod.fst
  | .remove key => (setRemove m key).toOption.map Prod.fst
  | .clear => (setClear m).toOption

/-- The key labels a linked node. -/
def Has (m : CountedList) (key : CStr) : Prop :=
  ∃ ns, m.list.Nodes ns ∧ ∃ a ∈ ns, m.list.keyOf a = some key

/-- The reported size is the number of linked nodes. -/
def Exact (size : CountedList → Int) (m : CountedList) : Prop :=
  ∃ ns, m.list.Nodes ns ∧ size m = ns.length

/-- The counter can count one more node. -/
def Few (m : CountedList) : Prop :=
  ∃ ns, m.list.Nodes ns ∧ (ns.length : Int) + 1 < 2 ^ 31

/-- The condition on a hashmap operation: no linked key is added, none is added
beside `2^31 - 1` nodes, and nothing is cleared but an empty map. -/
def HashmapCounts (m : CountedList) : Event → Prop
  | .add key _ => ¬ m.Has key ∧ m.Few
  | .remove _ => True
  | .clear => m.list.Nodes []

/-- The condition on a set operation: no new key is added beside `2^31 - 1`
nodes, and nothing is cleared but an empty set. -/
def SetCounts (m : CountedList) : Event → Prop
  | .add key _ => m.Has key ∨ m.Few
  | .remove _ => True
  | .clear => m.list.Nodes []

/-- Different keys have different hashes. -/
def HashesApart (K : CStr → Prop) : Prop :=
  ∀ a b, K a → K b → skiplistHash a = skiplistHash b → a = b

/-! ## The skiplist under a container -/

/-- A skiplist with the nodes `ns`, labelled with copies of keys of `K`. -/
structure Holds (K : CStr → Prop) (l : SkiplistMem) (ns : List NodeAddr) : Prop where
  linked : l.Linked ns
  keys : ∀ a ∈ ns, ∀ label, l.keyOf a = some label → ∃ key, K key ∧ skiplistSetKey key = some label

variable {K : CStr → Prop} {l l' : SkiplistMem} {ns : List NodeAddr} {m m' : CountedList}

theorem Holds.init (K : CStr → Prop) : Holds K rawSkiplistInit [] where
  linked := SkiplistMem.rawSkiplistInit_linked
  keys := by simp

theorem Holds.has_iff (holds : Holds K m.list ns) (key : CStr) :
    m.Has key ↔ ∃ a ∈ ns, m.list.keyOf a = some key := by
  constructor
  · intro found
    obtain ⟨ns', nodes, present⟩ := found
    rwa [nodes.unique holds.linked.nodes] at present
  · intro present
    exact ⟨ns, holds.linked.nodes, present⟩

theorem Holds.few_iff (holds : Holds K m.list ns) : m.Few ↔ (ns.length : Int) + 1 < 2 ^ 31 := by
  constructor
  · intro found
    obtain ⟨ns', nodes, few⟩ := found
    rwa [nodes.unique holds.linked.nodes] at few
  · intro few
    exact ⟨ns, holds.linked.nodes, few⟩

theorem Holds.exact_iff (holds : Holds K m.list ns) (size : CountedList → Int) :
    m.Exact size ↔ size m = ns.length := by
  constructor
  · intro found
    obtain ⟨ns', nodes, counted⟩ := found
    rwa [nodes.unique holds.linked.nodes] at counted
  · intro counted
    exact ⟨ns, holds.linked.nodes, counted⟩

/-- Without collisions the label of a node follows from its hash. -/
theorem Holds.label_of_hash (holds : Holds K l ns) (apart : HashesApart K) {key : CStr}
    (inside : K key) {a : NodeAddr} (member : a ∈ ns) (same : l.hashOf a = skiplistHash key) :
    l.keyOf a = skiplistSetKey key := by
  obtain ⟨label, labelled, hash⟩ := holds.linked.node a member
  obtain ⟨key', inside', copied⟩ := holds.keys a member label labelled
  have equal : key' = key := apart key' key inside' inside <| by
    rw [← skiplistHash_of_setKey copied, ← same]
    exact hash.symm
  rw [labelled, ← copied, equal]

/-- The node that an insertion compares has the key, if the key is linked. -/
theorem Holds.compared_key (holds : Holds K l ns) (apart : HashesApart K) {key : CStr}
    (inside : K key) {pre post : List NodeAddr} (split : ns = pre ++ post)
    (below : ∀ a ∈ pre, l.hashOf a < skiplistHash key)
    (above : ∀ a ∈ post, skiplistHash key ≤ l.hashOf a) (present : ∃ a ∈ ns, l.keyOf a = some key) :
    l.keyOf (post.headD skiplistHeader) = some key := by
  obtain ⟨a, member, labelled⟩ := present
  have hash := holds.linked.hash_of_key member labelled
  have same := holds.linked.head_hash split below above (Or.inr ⟨a, member, hash⟩)
  have copied := holds.label_of_hash apart inside member hash
  cases post with
  | nil =>
      have smaller := below a (by simpa [split] using member)
      omega
  | cons b rest =>
      have behind : b ∈ ns := by
        rw [split]
        simp
      rw [List.headD_cons, holds.label_of_hash apart inside behind same, ← copied]
      exact labelled

/-- An insertion of a linked key links nothing, and one of any other key that can be
copied links a node. -/
theorem Holds.insert (holds : Holds K l ns) (apart : HashesApart K) {key : CStr} {level : Nat}
    (inside : K key) (low : 1 ≤ level) (high : level ≤ skiplistMaxLevels) :
    ((∃ a ∈ ns, l.keyOf a = some key) ∧ skiplistInsert l key level = .ok (l, .ok)) ∨
    ((¬ ∃ a ∈ ns, l.keyOf a = some key) ∧
      (skiplistSetKey key = none → skiplistInsert l key level = .error .badAccess) ∧
      ∀ label, skiplistSetKey key = some label → ∃ l' ns',
        skiplistInsert l key level = .ok (l', .ok) ∧ Holds K l' ns' ∧
        ns'.length = ns.length + 1) := by
  have linked := holds.linked
  obtain ⟨pre, post, split, below, above, ⟨same, ran⟩ | ⟨other, uncopied, links⟩⟩ :=
    linked.insert key high
  · left
    refine ⟨?_, ran⟩
    rcases post with - | ⟨b, rest⟩
    · rw [List.headD_nil, linked.header_key] at same
      cases same
    · exact ⟨b, by rw [split]; simp, same⟩
  · right
    refine ⟨fun present => other (holds.compared_key apart inside split below above present),
      uncopied, ?_⟩
    intro label copied
    obtain ⟨l₁, ran, spliced⟩ := links label copied
    have hash := skiplistHash_of_setKey copied
    have below' : ∀ a ∈ pre, l.hashOf a < skiplistHash label := by rwa [hash]
    have above' : ∀ a ∈ post, skiplistHash label ≤ l.hashOf a := by rwa [hash]
    refine ⟨_, _, ran, ⟨spliced.linked_result linked split below' above' low high
      (short_of_intCopy copied), ?_⟩, by rw [split]; simp; omega⟩
    intro a member label' labelled
    rw [List.mem_append, List.mem_cons] at member
    have cases : a = l.nodes.length ∨ a ∈ ns := by rw [split, List.mem_append]; tauto
    rcases cases with rfl | inner
    · obtain rfl : label = label' :=
        Option.some.inj (spliced.grown.keyOf_new.symm.trans labelled)
      exact ⟨key, inside, copied⟩
    · have old := spliced.grown.keyOf_old a (linked.lt_nodes (List.mem_cons_of_mem _ inner))
      exact holds.keys a inner label' (old.symm.trans labelled)

/-- A deletion that returns takes a node of a linked label out and reports an error
for any other key. -/
theorem Holds.delete (holds : Holds K l ns) (apart : HashesApart K) {key : CStr}
    {rc : Rc} (returned : skiplistDelete l key = .ok (l', rc)) :
    (rc = .ok ∧ ∃ ns', Holds K l' ns' ∧ ns.length = ns'.length + 1) ∨
    (rc = .err ∧ l' = l ∧ ¬ ∃ a ∈ ns, l.keyOf a = some key) := by
  have linked := holds.linked
  rcases linked.delete_returned returned with
    ⟨ok, pre, x, post, split, _, result, others⟩ | ⟨failed, same, hidden⟩
  · have rest := linked.ne_of_rest split
    refine Or.inl ⟨ok, pre ++ post, ⟨result, ?_⟩, by rw [split]; simp; omega⟩
    intro a member label labelled
    have inner : a ∈ ns := by
      rw [split]
      rcases List.mem_append.mp member with early | late
      · simp [early]
      · simp [late]
    exact holds.keys a inner label ((others a (rest a member)).symm.trans labelled)
  · refine Or.inr ⟨failed, same, ?_⟩
    intro found
    obtain ⟨a, member, labelled⟩ := found
    -- the last node with the hash of the label is in nobody's shadow, and has the label
    obtain ⟨b, visible, equal⟩ : ∃ b, Visible l.height l.hashOf ns b ∧ l.hashOf b = l.hashOf a :=
      exists_visible ⟨a, member, rfl⟩
    obtain ⟨key', inside', copied⟩ := holds.keys a member key labelled
    have hash : l.hashOf b = skiplistHash key' := by
      rw [equal, linked.hash_of_key member labelled, skiplistHash_of_setKey copied]
    have labelled' := holds.label_of_hash apart inside' visible.mem hash
    exact hidden ⟨b, linked.hit_of_key visible.mem (labelled'.trans copied), visible⟩

/-- Only the header's hash keeps a deletion from returning. -/
theorem Holds.delete_returns (holds : Holds K l ns) {key : CStr}
    (below : skiplistHash key < skiplistMaxSize) : ∃ r, skiplistDelete l key = .ok r := by
  rcases holds.linked.delete (Or.inl below) with ⟨_, _, _, _, _, _, _, _, _, ran, _⟩ | ⟨_, ran⟩
  · exact ⟨_, ran⟩
  · exact ⟨_, ran⟩

/-! ## The clearing loop -/

/-- From the header the iterator goes to the first node. -/
theorem Holds.iteratorNext (holds : Holds K l ns) (p : Option NodeAddr) :
    skiplistIteratorNext l ⟨some skiplistHeader, p⟩ = .ok ⟨ns.head?, some skiplistHeader⟩ := by
  have first := holds.linked.nodes.next_eq
  have distinct := holds.linked.nodup_header
  rw [skiplistIteratorNext]
  simp only [access, bind, Except.bind, first]
  rcases ns with - | ⟨x, rest⟩
  · rfl
  · have inner : x ≠ skiplistHeader := by
      intro same
      obtain rfl := same
      simp at distinct
    rw [List.headD_cons, if_neg inner]
    rfl

theorem Holds.clearLoop_nil (holds : Holds K l []) (fuel : Nat) (p : Option NodeAddr) :
    clearLoop (fuel + 1) l ⟨some skiplistHeader, p⟩ = .ok l := by
  rw [clearLoop, holds.iteratorNext]
  rfl

/-- A round deletes the first node and is back at the header. -/
theorem Holds.clearLoop_cons {x : NodeAddr} {rest : List NodeAddr} (holds : Holds K l (x :: rest))
    {key : CStr} (labelled : l.keyOf x = some key) (fuel : Nat) (p : Option NodeAddr) :
    clearLoop (fuel + 1) l ⟨some skiplistHeader, p⟩ =
      (skiplistDelete l key).bind fun r =>
        clearLoop fuel r.1 ⟨if r.2 = .ok then some skiplistHeader else some x,
          some skiplistHeader⟩ := by
  obtain ⟨c, here, key_eq, _⟩ := SkiplistMem.exists_cell labelled
  rw [clearLoop, holds.iteratorNext]
  simp only [bind, Except.bind, List.head?_cons, reduceCtorEq, if_false, skiplistIteratorDelete,
    access, here, key_eq]
  rcases skiplistDelete l key with fault | ⟨l₁, rc⟩
  · rfl
  · cases rc <;> rfl

/-- A loop that returns has taken every node out. -/
theorem Holds.clearLoop (holds : Holds K l ns) (apart : HashesApart K) {fuel : Nat}
    {p : Option NodeAddr} (ran : clearLoop fuel l ⟨some skiplistHeader, p⟩ = .ok l') :
    Holds K l' [] := by
  induction fuel generalizing l ns p with
  | zero => cases ran
  | succ fuel ih =>
      rcases ns with - | ⟨x, rest⟩
      · rw [holds.clearLoop_nil] at ran
        cases ran
        exact holds
      · obtain ⟨key, labelled, _⟩ := holds.linked.node x List.mem_cons_self
        rw [holds.clearLoop_cons labelled] at ran
        rcases returned : skiplistDelete l key with fault | ⟨l₁, rc⟩
        · rw [returned] at ran
          cases ran
        · rw [returned] at ran
          rcases holds.delete apart returned with ⟨rfl, ns', after, _⟩ | ⟨_, _, absent⟩
          · exact ih after ran
          · exact absurd ⟨x, List.mem_cons_self, labelled⟩ absent

/-- The loop returns within a round for each node and one for the end. -/
theorem Holds.clearLoop_returns (holds : Holds K l ns) (apart : HashesApart K)
    (below : ∀ key, K key → skiplistHash key < skiplistMaxSize) {fuel : Nat}
    (enough : ns.length < fuel) (p : Option NodeAddr) :
    ∃ l', CountedList.clearLoop fuel l ⟨some skiplistHeader, p⟩ = .ok l' := by
  induction fuel generalizing l ns p with
  | zero => omega
  | succ fuel ih =>
      rcases ns with - | ⟨x, rest⟩
      · exact ⟨l, holds.clearLoop_nil fuel p⟩
      · obtain ⟨key, labelled, _⟩ := holds.linked.node x List.mem_cons_self
        obtain ⟨key', inside, copied⟩ := holds.keys x List.mem_cons_self key labelled
        have small := below key' inside
        rw [← skiplistHash_of_setKey copied] at small
        obtain ⟨⟨l₁, rc⟩, returned⟩ := holds.delete_returns small
        rw [holds.clearLoop_cons labelled, returned]
        rcases holds.delete apart returned with ⟨rfl, ns', after, shorter⟩ | ⟨_, _, absent⟩
        · exact ih after (by omega) (some skiplistHeader)
        · exact absurd ⟨x, List.mem_cons_self, labelled⟩ absent

/-! ## What the operations do to the counter -/

/-- An insertion that returns counts one, whether it links a node or not. -/
theorem Holds.insertCounted (holds : Holds K m.list ns) (apart : HashesApart K) {key : CStr}
    {level : Nat} (inside : K key) (low : 1 ≤ level) (high : level ≤ skiplistMaxLevels) {rc : Rc}
    (ran : m.insertCounted key level = .ok (m', rc)) :
    m'.num = int32 (m.num + 1) ∧ ∃ ns', Holds K m'.list ns' ∧
      ((m.Has key ∧ ns'.length = ns.length) ∨ (¬ m.Has key ∧ ns'.length = ns.length + 1)) := by
  rw [holds.has_iff]
  rw [CountedList.insertCounted] at ran
  rcases holds.insert apart inside low high with ⟨present, inserted⟩ | ⟨absent, uncopied, links⟩
  · rw [inserted] at ran
    cases ran
    exact ⟨rfl, ns, holds, Or.inl ⟨present, rfl⟩⟩
  · cases copied : skiplistSetKey key with
    | none =>
        rw [uncopied copied] at ran
        cases ran
    | some label =>
        obtain ⟨l', ns', inserted, after, grown⟩ := links label copied
        rw [inserted] at ran
        cases ran
        exact ⟨rfl, ns', after, Or.inr ⟨absent, grown⟩⟩

/-- An insertion of a key that can be copied returns. -/
theorem Holds.insertCounted_returns (holds : Holds K m.list ns) (apart : HashesApart K)
    {key : CStr} {level : Nat} (inside : K key) (low : 1 ≤ level)
    (high : level ≤ skiplistMaxLevels) (short : key.Short) :
    ∃ m', m.insertCounted key level = .ok (m', .ok) := by
  rw [CountedList.insertCounted]
  rcases holds.insert apart inside low high with ⟨_, inserted⟩ | ⟨_, _, links⟩
  · rw [inserted]
    exact ⟨_, rfl⟩
  · obtain ⟨l', _, inserted, _⟩ := links key (intCopy_of_short short)
    rw [inserted]
    exact ⟨_, rfl⟩

/-- What an operation may do to the nodes and the counter: nothing, or take a node
out and uncount it. -/
def Uncounts (m m' : CountedList) (ns ns' : List NodeAddr) : Prop :=
  (m'.num = m.num ∧ ns'.length = ns.length) ∨
  (m'.num = int32 (m.num - 1) ∧ ns.length = ns'.length + 1)

/-- A removal that returns uncounts exactly the node it takes out. -/
theorem Holds.removeCounted (holds : Holds K m.list ns) (apart : HashesApart K) {key : CStr}
    {r : Option NodeAddr} (ran : m.removeCounted key = .ok (m', r)) :
    ∃ ns', Holds K m'.list ns' ∧ m.Uncounts m' ns ns' := by
  rw [CountedList.removeCounted] at ran
  rcases searched : skiplistSearch m.list key with fault | node
  · rw [searched] at ran
    cases ran
  · rcases returned : skiplistDelete m.list key with fault | ⟨l', rc⟩
    · rw [searched, returned] at ran
      cases ran
    · rw [searched, returned] at ran
      rcases holds.delete apart returned with ⟨rfl, ns', after, shorter⟩ | ⟨rfl, rfl, _⟩
      · cases ran
        exact ⟨ns', after, Or.inr ⟨rfl, shorter⟩⟩
      · cases ran
        exact ⟨ns, holds, Or.inl ⟨rfl, rfl⟩⟩

/-- A clearing that returns leaves no node, and the counter as it was. -/
theorem Holds.clearNodes (holds : Holds K m.list ns) (apart : HashesApart K)
    (ran : m.clearNodes = .ok m') : Holds K m'.list [] ∧ m'.num = m.num := by
  rw [CountedList.clearNodes] at ran
  rcases looped :
    CountedList.clearLoop m.list.nodes.length m.list skiplistIteratorNew with fault | l'
  · rw [looped] at ran
    cases ran
  · rw [looped] at ran
    cases ran
    exact ⟨holds.clearLoop apart looped, rfl⟩

/-- Clearing keeps an exact counter exact if there was nothing to clear. -/
theorem Holds.counts_clear (holds : Holds K m.list ns) (start : m.num = ns.length)
    (same : m'.num = m.num) : m'.num = ([] : List NodeAddr).length ↔ m.list.Nodes [] := by
  rw [same, start, List.length_nil]
  constructor
  · intro none_left
    obtain rfl : ns = [] := List.length_eq_zero_iff.mp (by omega)
    exact holds.linked.nodes
  · intro empty
    rw [holds.linked.nodes.unique empty]
    rfl

/-- The membership test answers where it returns. -/
theorem Holds.setContains (holds : Holds K m.list ns) {key : CStr} {b : Bool}
    (ran : m.setContains key = .ok b) : b = true ↔ m.Has key := by
  have linked := holds.linked
  rw [holds.has_iff]
  rw [CountedList.setContains] at ran
  by_cases present : ∃ a ∈ ns, m.list.keyOf a = some key
  · obtain ⟨a, member, labelled⟩ := present
    obtain ⟨c, _, _, found⟩ := linked.search_linked member labelled
    rw [found] at ran
    cases ran
    exact iff_of_true rfl ⟨a, member, labelled⟩
  · refine iff_of_false ?_ present
    intro same
    obtain rfl := same
    push Not at present
    rcases Nat.lt_or_eq_of_le (skiplistHash_le key) with below | isMax
    · by_cases free : ∀ a ∈ ns, m.list.hashOf a ≠ skiplistHash key
      · rw [linked.search_no_hash free below] at ran
        cases ran
      · push Not at free
        rw [linked.search_badAccess present (Or.inr free)] at ran
        cases ran
    · rw [linked.search_badAccess present (Or.inl isMax)] at ran
      cases ran

/-- A set addition that returns counts exactly the node it links. -/
theorem Holds.setAdd (holds : Holds K m.list ns) (apart : HashesApart K) {key : CStr}
    {level : Nat} (inside : K key) (low : 1 ≤ level) (high : level ≤ skiplistMaxLevels) {rc : Rc}
    (ran : m.setAdd key level = .ok (m', rc)) :
    (m.Has key ∧ m' = m) ∨
    (¬ m.Has key ∧ m'.num = int32 (m.num + 1) ∧ ∃ ns', Holds K m'.list ns' ∧
      ns'.length = ns.length + 1) := by
  rw [CountedList.setAdd] at ran
  rcases tested : m.setContains key with fault | b
  · rw [tested] at ran
    cases ran
  · have answer := holds.setContains tested
    rw [tested] at ran
    cases b with
    | true =>
        cases ran
        exact Or.inl ⟨answer.mp rfl, rfl⟩
    | false =>
        have absent : ¬ m.Has key := fun has => absurd (answer.mpr has) (by decide)
        obtain ⟨counted, ns', after, ⟨has, _⟩ | ⟨_, grown⟩⟩ :=
          holds.insertCounted apart inside low high
            (show m.insertCounted key level = .ok (m', rc) from ran)
        · exact absurd has absent
        · exact Or.inr ⟨absent, counted, ns', after, grown⟩

/-! ## Every run -/

/-- A result of a call is that of the step. -/
theorem of_toOption_map {α β : Type} {x : Except Fault (α × β)} {a : α}
    (fired : x.toOption.map Prod.fst = some a) : ∃ b, x = .ok (a, b) := by
  rcases x with fault | ⟨a', b⟩
  · cases fired
  · cases fired
    exact ⟨b, rfl⟩

theorem of_toOption {α : Type} {x : Except Fault α} {a : α} (fired : x.toOption = some a) :
    x = .ok a := by
  rcases x with fault | a'
  · cases fired
  · cases fired
    rfl

/-- A node too many for the counter is the only one it does not count. -/
theorem Holds.counts_one (holds : Holds K m.list ns) (start : m.num = ns.length)
    {ns' : List NodeAddr} (grown : ns'.length = ns.length + 1)
    (counted : m'.num = int32 (m.num + 1)) : m'.num = ns'.length ↔ m.Few := by
  rw [holds.few_iff, counted, start, grown]
  exact int32_eq_self_iff (by omega)

/-- The counter counts down as long as there are nodes. -/
theorem Uncounts.exact {ns' : List NodeAddr} (uncounts : m.Uncounts m' ns ns')
    (start : m.num = ns.length) (bounded : m.num < 2 ^ 31) : m'.num = ns'.length := by
  rcases uncounts with ⟨same, kept⟩ | ⟨counted, taken⟩
  · rw [same, start, kept]
  · rw [counted, start, taken]
    have small := int32_of_small (n := (ns'.length : Int)) (by omega) (by omega)
    simpa using small

theorem Uncounts.bounded {ns' : List NodeAddr} (uncounts : m.Uncounts m' ns ns')
    (bounded : m.num < 2 ^ 31) : m'.num < 2 ^ 31 := by
  rcases uncounts with ⟨same, _⟩ | ⟨counted, _⟩
  · rwa [same]
  · rw [counted]
    exact int32_lt _

/-- Counting a node that is there already goes wrong. -/
theorem int32_succ_ne {n : Int} (low : 0 ≤ n) (high : n < 2 ^ 31) : int32 (n + 1) ≠ n := by
  rcases Int.lt_or_le (n + 1) (2 ^ 31) with small | large
  · rw [int32_of_small (by omega) small]
    omega
  · obtain rfl : n = 2 ^ 31 - 1 := by omega
    decide

/-- A hashmap operation keeps the counter exact exactly if it meets its
condition. -/
theorem Holds.hashmapStep (holds : Holds K m.list ns) (apart : HashesApart K) {e : Event}
    (about : e.Over K) (bounded : m.num < 2 ^ 31) (fired : m.hashmapStep e = some m') :
    m'.num < 2 ^ 31 ∧ ∃ ns', Holds K m'.list ns' ∧
      (m.num = ns.length → (m'.num = ns'.length ↔ m.HashmapCounts e)) := by
  cases e with
  | add key level =>
      obtain ⟨inside, low, high⟩ := about
      obtain ⟨rc, ran⟩ := of_toOption_map fired
      obtain ⟨counted, ns', after, cases⟩ := holds.insertCounted apart inside low high ran
      refine ⟨counted ▸ int32_lt _, ns', after, ?_⟩
      intro start
      rw [HashmapCounts]
      rcases cases with ⟨has, same⟩ | ⟨new, grown⟩
      · rw [counted, same, ← start]
        apply iff_of_false
        · exact int32_succ_ne (by omega) bounded
        · exact fun met => met.1 has
      · rw [holds.counts_one start grown counted]
        exact ⟨fun few => ⟨new, few⟩, fun met => met.2⟩
  | remove key =>
      obtain ⟨r, ran⟩ := of_toOption_map fired
      obtain ⟨ns', after, uncounts⟩ := holds.removeCounted apart ran
      refine ⟨uncounts.bounded bounded, ns', after, ?_⟩
      intro start
      exact iff_of_true (uncounts.exact start bounded) trivial
  | clear =>
      obtain ⟨after, same⟩ := holds.clearNodes apart (of_toOption fired)
      refine ⟨same ▸ bounded, [], after, ?_⟩
      intro start
      exact holds.counts_clear start same

/-- A set operation keeps the counter exact exactly if it meets its
condition. -/
theorem Holds.setStep (holds : Holds K m.list ns) (apart : HashesApart K) {e : Event}
    (about : e.Over K) (bounded : m.num < 2 ^ 31) (fired : m.setStep e = some m') :
    m'.num < 2 ^ 31 ∧ ∃ ns', Holds K m'.list ns' ∧
      (m.num = ns.length → (m'.num = ns'.length ↔ m.SetCounts e)) := by
  cases e with
  | add key level =>
      obtain ⟨inside, low, high⟩ := about
      obtain ⟨rc, ran⟩ := of_toOption_map fired
      rcases holds.setAdd apart inside low high ran with
        ⟨has, rfl⟩ | ⟨absent, counted, ns', after, grown⟩
      · exact ⟨bounded, ns, holds, fun start => iff_of_true start (Or.inl has)⟩
      · refine ⟨counted ▸ int32_lt _, ns', after, ?_⟩
        intro start
        rw [holds.counts_one start grown counted, SetCounts, or_iff_right absent]
  | remove key =>
      obtain ⟨r, ran⟩ := of_toOption_map fired
      obtain ⟨ns', after, uncounts⟩ := holds.removeCounted apart ran
      refine ⟨uncounts.bounded bounded, ns', after, ?_⟩
      intro start
      exact iff_of_true (uncounts.exact start bounded) trivial
  | clear =>
      obtain ⟨after, same⟩ := holds.clearNodes apart (of_toOption fired)
      refine ⟨same ▸ bounded, [], after, ?_⟩
      intro start
      exact holds.counts_clear start same

section Fires

variable (holds : Holds K m.list ns) (apart : HashesApart K)
  (below : ∀ key, K key → skiplistHash key < skiplistMaxSize)

include holds apart below

theorem Holds.clearNodes_returns : ∃ m', m.clearNodes = .ok m' := by
  obtain ⟨l', looped⟩ := holds.clearLoop_returns apart below holds.linked.length_lt
    (some skiplistHeader)
  rw [CountedList.clearNodes, skiplistIteratorNew, looped]
  exact ⟨_, rfl⟩

variable (short : ∀ key, K key → key.Short)

include short

theorem Holds.search_returns {key : CStr} (inside : K key) :
    ∃ r, skiplistSearch m.list key = .ok r := by
  by_cases present : ∃ a ∈ ns, m.list.keyOf a = some key
  · obtain ⟨a, member, labelled⟩ := present
    obtain ⟨b, _, _, found⟩ := holds.linked.search_linked member labelled
    exact ⟨_, found⟩
  · refine ⟨none, holds.linked.search_no_hash ?_ (below key inside)⟩
    intro a member same
    have copied := intCopy_of_short (short key inside)
    exact present ⟨a, member, (holds.label_of_hash apart inside member same).trans copied⟩

theorem Holds.removeCounted_returns {key : CStr} (inside : K key) :
    ∃ r, m.removeCounted key = .ok r := by
  obtain ⟨node, searched⟩ := holds.search_returns apart below short inside
  obtain ⟨⟨l', rc⟩, deleted⟩ := holds.delete_returns (below key inside)
  rw [CountedList.removeCounted, searched, deleted]
  cases rc
  · exact ⟨_, rfl⟩
  · exact ⟨_, rfl⟩

theorem Holds.hashmapStep_fires {e : Event} (about : e.Over K) :
    ∃ m', m.hashmapStep e = some m' := by
  cases e with
  | add key level =>
      obtain ⟨m', inserted⟩ := holds.insertCounted_returns apart about.1 about.2.1 about.2.2
        (short key about.1)
      rw [CountedList.hashmapStep, hashmapAdd, inserted]
      exact ⟨_, rfl⟩
  | remove key =>
      obtain ⟨r, removed⟩ := holds.removeCounted_returns apart below short about
      rw [CountedList.hashmapStep, hashmapRemove, removed]
      exact ⟨_, rfl⟩
  | clear =>
      obtain ⟨m', cleared⟩ := holds.clearNodes_returns apart below
      rw [CountedList.hashmapStep, hashmapClear, cleared]
      exact ⟨_, rfl⟩

theorem Holds.setStep_fires {e : Event} (about : e.Over K) : ∃ m', m.setStep e = some m' := by
  cases e with
  | add key level =>
      obtain ⟨node, searched⟩ := holds.search_returns apart below short about.1
      obtain ⟨m', inserted⟩ := holds.insertCounted_returns apart about.1 about.2.1 about.2.2
        (short key about.1)
      rw [CountedList.setStep, CountedList.setAdd, CountedList.setContains, searched]
      cases node with
      | none =>
          refine ⟨m', ?_⟩
          change (m.insertCounted key level).toOption.map Prod.fst = _
          rw [inserted]
          rfl
      | some a => exact ⟨_, rfl⟩
  | remove key =>
      obtain ⟨r, removed⟩ := holds.removeCounted_returns apart below short about
      rw [CountedList.setStep, setRemove, removed]
      exact ⟨_, rfl⟩
  | clear =>
      obtain ⟨m', cleared⟩ := holds.clearNodes_returns apart below
      rw [CountedList.setStep, setClear, cleared]
      exact ⟨_, rfl⟩

end Fires

/-- The nodes of a container whose counter is a 32-bit integer. -/
def Kept (K : CStr → Prop) (m : CountedList) : Prop :=
  m.num < 2 ^ 31 ∧ ∃ ns, Holds K m.list ns

theorem Kept.init (K : CStr → Prop) : Kept K init := ⟨by decide, [], Holds.init K⟩

/-- What an operation does, as `Holds.hashmapStep` and `Holds.setStep` say it. -/
def StepCounts (K : CStr → Prop) (step : CountedList → Event → Option CountedList)
    (ok : CountedList → Event → Prop) : Prop :=
  ∀ {m e m' ns}, Holds K m.list ns → e.Over K → m.num < 2 ^ 31 → step m e = some m' →
    m'.num < 2 ^ 31 ∧ ∃ ns', Holds K m'.list ns' ∧
      (m.num = ns.length → (m'.num = ns'.length ↔ ok m e))

section Runs

variable {step : CountedList → Event → Option CountedList} {ok : CountedList → Event → Prop}
  {es : List Event}

theorem StepCounts.keep (counts : StepCounts K step ok) {e : Event} (kept : Kept K m)
    (about : e.Over K) (fired : step m e = some m') : Kept K m' := by
  obtain ⟨bounded, ns, holds⟩ := kept
  obtain ⟨bounded', ns', after, _⟩ := counts holds about bounded fired
  exact ⟨bounded', ns', after⟩

theorem StepCounts.exact_iff (counts : StepCounts K step ok) (about : ∀ e ∈ es, e.Over K) :
    AfterEach step (Exact num) init es ↔ AllMeet step ok init es := by
  apply afterEach_iff_allMeet (I := Kept K) (D := Event.Over K) counts.keep ?_ about (Kept.init K)
  · exact ⟨[], (Holds.init K).linked.nodes, rfl⟩
  · intro m e m' found about exact fired
    obtain ⟨bounded, ns, holds⟩ := found
    obtain ⟨_, ns', after, iff⟩ := counts holds about bounded fired
    rw [after.exact_iff]
    exact iff ((holds.exact_iff num).mp exact)

theorem StepCounts.defined (counts : StepCounts K step ok)
    (fires : ∀ {m e ns}, Holds K m.list ns → e.Over K → ∃ m', step m e = some m')
    (about : ∀ e ∈ es, e.Over K) : ∃ m, runEvents step init es = some m := by
  apply runEvents_defined (I := Kept K) (D := Event.Over K) counts.keep ?_ about (Kept.init K)
  intro m e found about
  obtain ⟨_, ns, holds⟩ := found
  exact fires holds about

end Runs

/-- The sizes are exact after every operation exactly if every operation meets
its condition.  The operations return unless a key has the header's hash or is too
long to be copied. -/
theorem sizes_exact_iff {K : CStr → Prop} (apart : HashesApart K) {es : List Event}
    (about : ∀ e ∈ es, e.Over K) :
    (AfterEach hashmapStep (Exact hashmapSize) init es ↔
      AllMeet hashmapStep HashmapCounts init es) ∧
    (AfterEach setStep (Exact setSize) init es ↔ AllMeet setStep SetCounts init es) ∧
    ((∀ key, K key → skiplistHash key ≠ skiplistMaxSize ∧ key.Short) →
      (∃ m, runEvents hashmapStep init es = some m) ∧ ∃ m, runEvents setStep init es = some m) := by
  have hashmaps : StepCounts K hashmapStep HashmapCounts := fun holds => holds.hashmapStep apart
  have sets : StepCounts K setStep SetCounts := fun holds => holds.setStep apart
  refine ⟨hashmaps.exact_iff about, sets.exact_iff about, ?_⟩
  intro usual
  have below : ∀ key, K key → skiplistHash key < skiplistMaxSize := fun key inside =>
    lt_of_le_of_ne (skiplistHash_le key) (usual key inside).1
  have short : ∀ key, K key → key.Short := fun key inside => (usual key inside).2
  constructor
  · exact hashmaps.defined (fun holds => holds.hashmapStep_fires apart below short) about
  · exact sets.defined (fun holds => holds.setStep_fires apart below short) about

/-- The two keys of the runs below. -/
def TwoKeys (key : CStr) : Prop := key = SkiplistMem.keyA ∨ key = SkiplistMem.key298063

theorem twoKeys_apart : HashesApart TwoKeys := by
  intro a b either either' same
  rcases either with rfl | rfl <;> rcases either' with rfl | rfl
  · rfl
  · exact absurd same (by decide)
  · exact absurd same (by decide)
  · rfl

/-- Adding twice and removing a set's key keeps its size. -/
def setRun : List Event :=
  [.add SkiplistMem.keyA 2, .add SkiplistMem.keyA 1, .add SkiplistMem.key298063 1,
    .remove SkiplistMem.keyA]

theorem sizes_exact_setRun :
    HashesApart TwoKeys ∧ AfterEach setStep (Exact setSize) init setRun ∧
      ∃ m, runEvents setStep init setRun = some m := by
  have about : ∀ e ∈ setRun, e.Over TwoKeys := by
    simp [setRun, Event.Over, TwoKeys, skiplistMaxLevels]
  obtain ⟨_, sets, defined⟩ := sizes_exact_iff twoKeys_apart about
  refine ⟨twoKeys_apart, sets.mpr ?_, (defined ?_).2⟩
  · intro m₁ ran₁
    obtain rfl := Option.some.inj ran₁
    refine ⟨Or.inr ⟨[], by decide, by decide⟩, ?_⟩
    intro m₂ ran₂
    obtain rfl := Option.some.inj ran₂
    refine ⟨Or.inl ⟨[1], by decide, 1, by decide, rfl⟩, ?_⟩
    intro m₃ ran₃
    obtain rfl := Option.some.inj ran₃
    refine ⟨Or.inr ⟨[1], by decide, by decide⟩, ?_⟩
    exact fun _ _ => ⟨trivial, trivial⟩
  · intro key either
    rcases either with rfl | rfl
    · exact ⟨by decide, by decide⟩
    · exact ⟨by decide, by decide⟩

/-- A hashmap that counts the same key twice, and a set that is empty and of
size one after `set_clear`. -/
theorem sizes_not_exact :
    ¬ AfterEach hashmapStep (Exact hashmapSize) init
      [.add SkiplistMem.keyA 1, .add SkiplistMem.keyA 1] ∧
    ¬ AfterEach hashmapStep (Exact hashmapSize) init [.add SkiplistMem.keyA 1, .clear] ∧
    ¬ AfterEach setStep (Exact setSize) init [.add SkiplistMem.keyA 1, .clear] := by
  refine ⟨?_, ?_, ?_⟩
  · intro after
    obtain ⟨⟨ns, nodes, size⟩, _⟩ := (after _ rfl).2 _ rfl
    rw [nodes.unique (by decide : SkiplistMem.Nodes _ [1])] at size
    exact absurd size (by decide)
  · intro after
    obtain ⟨⟨ns, nodes, size⟩, _⟩ := (after _ rfl).2 _ rfl
    rw [nodes.unique (by decide : SkiplistMem.Nodes _ [])] at size
    exact absurd size (by decide)
  · intro after
    obtain ⟨⟨ns, nodes, size⟩, _⟩ := (after _ rfl).2 _ rfl
    rw [nodes.unique (by decide : SkiplistMem.Nodes _ [])] at size
    exact absurd size (by decide)

end CountedList

end XFireDB
