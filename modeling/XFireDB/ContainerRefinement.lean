import XFireDB.Containers
import XFireDB.Engine
import XFireDB.Lib.Responses

/-!
# The engine's containers and the ones in memory

`Engine` keeps a hashmap or a set as the list of its entries.  The server keeps a
skiplist: nodes with forward pointers, whose heights are drawn, and around each
node the structure that carries its payload.  `ContainerCall` is a method call on
either, and both answer every list of calls alike: neither a pointer nor a height
shows in a reply.  What they answer is what a partial map would, but for the
entries that a clearing leaves counted, in a counter of 32 bits.
-/

namespace XFireDB

open Lib

/-- A method call on a hashmap object, or on a set object where the payload is
`Unit`.  The height of a new node is drawn. -/
inductive ContainerCall (β : Type)
  | store (key : CStr) (value : β) (level : Nat)
  | ref (key : CStr)
  | delete (key : CStr)
  | size
  | each
  | clear

inductive ContainerReply (β : Type)
  | stored (fresh : Bool)
  | found (value : Option β)
  | count (num : Int)
  | entries (list : List (CStr × β))
  | done
deriving DecidableEq

/-- The call is about a key of `K` and draws a height that exists. -/
def ContainerCall.Over {β : Type} (K : CStr → Prop) : ContainerCall β → Prop
  | .store key _ level => K key ∧ 1 ≤ level ∧ level ≤ skiplistMaxLevels
  | .ref key => K key
  | .delete key => K key
  | _ => True

/-- No two of the keys have the same hash, none has the header's, and each is short
enough to be copied whole. -/
structure UsualKeys (K : CStr → Prop) : Prop where
  apart : CountedList.HashesApart K
  below : ∀ key, K key → skiplistHash key < skiplistMaxSize
  short : ∀ key, K key → key.Short

/-! ## In memory -/

/-- A container in memory, with the payload of the structure around each node. -/
structure PayloadList (β : Type) where
  counted : CountedList
  payload : NodeAddr → β

namespace PayloadList

variable {β : Type}

/-- `rb_hashmap_store`, and `rb_set_add`: whether the key was new. -/
def store (m : PayloadList β) (key : CStr) (value : β) (level : Nat) :
    Except Fault (Bool × PayloadList β) := do
  match ← skiplistSearch m.counted.list key with
  | some node => .ok (false, { m with payload := Function.update m.payload node value })
  | none =>
    -- the node is the next one to be allocated
    let node := m.counted.list.nodes.length
    let (counted, _) ← m.counted.insertCounted key level
    .ok (true, ⟨counted, Function.update m.payload node value⟩)

/-- `rb_hashmap_ref`, and `rb_set_include`. -/
def ref (m : PayloadList β) (key : CStr) : Except Fault (Option β) := do
  let node ← skiplistSearch m.counted.list key
  .ok (node.map m.payload)

/-- `rb_hashmap_delete`, and `rb_set_remove_key`. -/
def delete (m : PayloadList β) (key : CStr) : Except Fault (Option β × PayloadList β) := do
  let (counted, node) ← m.counted.removeCounted key
  .ok (node.map m.payload, { m with counted := counted })

/-- The loop of `rb_hashmap_each` and `rb_set_each` over an iterator. -/
def eachLoop (m : PayloadList β) : Nat → SkiplistIterator → Except Fault (List (CStr × β))
  | 0, _ => .error .diverge
  | fuel + 1, it => do
      let it ← skiplistIteratorNext m.counted.list it
      match it.current with
      | none => .ok []
      | some node =>
        let c ← access m.counted.list.nodes[node]?
        let key ← access c.key
        let rest ← m.eachLoop fuel it
        .ok ((key, m.payload node) :: rest)

/-- It takes a round for each node and one for the end. -/
def each (m : PayloadList β) : Except Fault (List (CStr × β)) :=
  m.eachLoop m.counted.list.nodes.length skiplistIteratorNew

def call (m : PayloadList β) : ContainerCall β → Except Fault (ContainerReply β × PayloadList β)
  | .store key value level => (m.store key value level).map fun out => (.stored out.1, out.2)
  | .ref key => (m.ref key).map fun value => (.found value, m)
  | .delete key => (m.delete key).map fun out => (.found out.1, out.2)
  | .size => .ok (.count m.counted.num, m)
  | .each => m.each.map fun list => (.entries list, m)
  | .clear => m.counted.clearNodes.map fun counted => (.done, { m with counted := counted })

/-- A call that returns. -/
def step (m : PayloadList β) (c : ContainerCall β) : Option (ContainerReply β × PayloadList β) :=
  (m.call c).toOption

/-- `hashmap_init` and `set_init`; no payload is read before its node is linked. -/
def init (payload : NodeAddr → β) : PayloadList β := ⟨CountedList.init, payload⟩

end PayloadList

/-! ## In the engine -/

/-- A container as the engine has it: `Container.hashmap` and `Container.set`. -/
structure NodeChain (β : Type) where
  nodes : Skiplist β
  num : Int

namespace NodeChain

variable {β : Type}

def store (l : NodeChain β) (key : CStr) (value : β) : Option (Bool × NodeChain β) :=
  (l.nodes.search key).map fun
    | some _ =>
      (false, { l with nodes := l.nodes.map fun node =>
        if node.key = key then { node with value := value } else node })
    | none => (true, ⟨l.nodes.insert key value, int32 (l.num + 1)⟩)

def ref (l : NodeChain β) (key : CStr) : Option (Option β) :=
  (l.nodes.search key).map fun found => found.map SkiplistNode.value

def delete (l : NodeChain β) (key : CStr) : Option (Option β × NodeChain β) :=
  match l.nodes.search key, l.nodes.delete key with
  | some (some node), some (some rest) => some (some node.value, ⟨rest, int32 (l.num - 1)⟩)
  | some _, some none => some (none, l)
  | _, _ => none

def each (l : NodeChain β) : List (CStr × β) := l.nodes.map fun node => (node.key, node.value)

/-- One call; the drawn height has no place here. -/
def step (l : NodeChain β) : ContainerCall β → Option (ContainerReply β × NodeChain β)
  | .store key value _ => (l.store key value).map fun out => (.stored out.1, out.2)
  | .ref key => (l.ref key).map fun value => (.found value, l)
  | .delete key => (l.delete key).map fun out => (.found out.1, out.2)
  | .size => some (.count l.num, l)
  | .each => some (.entries l.each, l)
  | .clear => some (.done, { l with nodes := [] })

def init : NodeChain β := ⟨[], 0⟩

end NodeChain

/-! ## The chain in memory is the list of entries -/

/-- Lists that are related are related part by part. -/
theorem forall₂_append_left {α γ : Type} {R : α → γ → Prop} {pre post : List α} {l : List γ}
    (related : List.Forall₂ R (pre ++ post) l) :
    ∃ front back, l = front ++ back ∧ List.Forall₂ R pre front ∧ List.Forall₂ R post back := by
  refine ⟨l.take pre.length, l.drop pre.length, (List.take_append_drop _ l).symm, ?_, ?_⟩
  · simpa using List.forall₂_take pre.length related
  · simpa using List.forall₂_drop pre.length related

/-- Every member has a related one. -/
theorem forall₂_exists_right {α γ : Type} {R : α → γ → Prop} {l₁ : List α} {l₂ : List γ}
    (related : List.Forall₂ R l₁ l₂) {a : α} (member : a ∈ l₁) : ∃ b ∈ l₂, R a b := by
  obtain ⟨i, inside, rfl⟩ := List.getElem_of_mem member
  have inside' : i < l₂.length := related.length_eq ▸ inside
  exact ⟨l₂[i], List.getElem_mem inside', related.get inside inside'⟩

theorem forall₂_imp_of_mem {α γ : Type} {R S : α → γ → Prop} {l₁ : List α} {l₂ : List γ}
    (related : List.Forall₂ R l₁ l₂) (weaken : ∀ a ∈ l₁, ∀ b, R a b → S a b) :
    List.Forall₂ S l₁ l₂ := by
  induction related with
  | nil => exact .nil
  | cons head _ ih =>
      apply List.Forall₂.cons (weaken _ List.mem_cons_self _ head)
      exact ih fun a member => weaken a (List.mem_cons_of_mem _ member)

namespace Skiplist

/-- A new node goes between the smaller and the greater hashes. -/
theorem insert_split {β : Type} {pre post : Skiplist β} {key : CStr}
    (below : ∀ node ∈ pre, skiplistHash node.key < skiplistHash key)
    (above : ∀ node ∈ post, skiplistHash key < skiplistHash node.key) (value : β) :
    (pre ++ post).insert key value = pre ++ ⟨key, value⟩ :: post := by
  induction pre with
  | nil =>
      cases post with
      | nil => rfl
      | cons node rest =>
          have larger := above node List.mem_cons_self
          have other : node.key ≠ key := by
            intro same
            rw [same] at larger
            exact lt_irrefl _ larger
          rw [List.nil_append, List.nil_append, insert, insertWith, if_neg larger.not_gt,
            if_neg other]
  | cons node rest ih =>
      rw [List.cons_append, insert, insertWith, if_pos (below node List.mem_cons_self), ← insert,
        ih fun other member => below other (List.mem_cons_of_mem node member)]
      rfl

theorem key_of_search {β : Type} {l : Skiplist β} {key : CStr} {node : SkiplistNode β}
    (found : l.search key = some (some node)) : node.key = key := by
  have walked : ∀ s : Skiplist β, walkToKey key s = some node → node.key = key := by
    intro s
    induction s with
    | nil => exact fun none => nomatch none
    | cons m rest ih =>
        rw [walkToKey]
        split
        · intro same
          rwa [← Option.some.inj same]
        · exact ih
  rw [search, searchWith] at found
  split at found
  · split at found <;> cases found
  · split at found
    · obtain ⟨other, walk, same⟩ := Option.map_eq_some_iff.mp found
      exact walked _ (Option.some.inj same ▸ walk)
    · cases found

end Skiplist

namespace PayloadList

variable {β : Type} {K : CStr → Prop} {m : PayloadList β} {l : NodeChain β} {ns : List NodeAddr}

/-- The node in memory has the entry's key and payload. -/
def Carries (m : PayloadList β) (a : NodeAddr) (node : SkiplistNode β) : Prop :=
  m.counted.list.keyOf a = some node.key ∧ m.payload a = node.value

/-- The nodes `ns` in memory carry the entries of the engine's container. -/
structure Represents (K : CStr → Prop) (m : PayloadList β) (ns : List NodeAddr) (l : NodeChain β) :
    Prop where
  holds : CountedList.Holds K m.counted.list ns
  unique : m.counted.list.UniqueKeys ns
  carries : List.Forall₂ m.Carries ns l.nodes
  num : m.counted.num = l.num

theorem Represents.init (K : CStr → Prop) (payload : NodeAddr → β) :
    Represents K (init payload) [] NodeChain.init where
  holds := CountedList.Holds.init K
  unique := List.nodup_nil
  carries := .nil
  num := rfl

theorem Represents.exists_node (rep : Represents K m ns l) {a : NodeAddr} (member : a ∈ ns) :
    ∃ node ∈ l.nodes, m.Carries a node :=
  forall₂_exists_right rep.carries member

theorem Represents.exists_addr (rep : Represents K m ns l) {node : SkiplistNode β}
    (member : node ∈ l.nodes) : ∃ a ∈ ns, m.Carries a node :=
  forall₂_exists_right rep.carries.flip member

theorem Represents.hashOf (rep : Represents K m ns l) {a : NodeAddr} {node : SkiplistNode β}
    (member : a ∈ ns) (carried : m.Carries a node) :
    m.counted.list.hashOf a = skiplistHash node.key :=
  rep.holds.linked.hash_of_key member carried.1

theorem Represents.keys (rep : Represents K m ns l) (usual : UsualKeys K) {node : SkiplistNode β}
    (member : node ∈ l.nodes) : K node.key := by
  obtain ⟨a, inside, carried⟩ := rep.exists_addr member
  obtain ⟨key, inside', copied⟩ := rep.holds.keys a inside node.key carried.1
  obtain rfl : key = node.key :=
    Option.some.inj ((intCopy_of_short (usual.short key inside')).symm.trans copied)
  exact inside'

/-- Without collisions the entries are strictly ordered by hash. -/
theorem Represents.sorted (rep : Represents K m ns l) (usual : UsualKeys K) :
    l.nodes.Sorted := by
  apply List.pairwise_iff_getElem.mpr
  intro i j iIn jIn less
  have iIn' : i < ns.length := rep.carries.length_eq ▸ iIn
  have jIn' : j < ns.length := rep.carries.length_eq ▸ jIn
  have first : m.Carries ns[i] l.nodes[i] := rep.carries.get iIn' iIn
  have second : m.Carries ns[j] l.nodes[j] := rep.carries.get jIn' jIn
  have le := List.pairwise_iff_getElem.mp rep.holds.linked.sorted i j iIn' jIn' less
  rw [rep.hashOf (List.getElem_mem iIn') first, rep.hashOf (List.getElem_mem jIn') second] at le
  apply lt_of_le_of_ne le
  intro same
  have keyEq := usual.apart _ _ (rep.keys usual (List.getElem_mem iIn))
    (rep.keys usual (List.getElem_mem jIn)) same
  have addrEq : ns[i] = ns[j] := by
    apply List.inj_on_of_nodup_map rep.unique (List.getElem_mem iIn') (List.getElem_mem jIn')
    rw [first.1, second.1, keyEq]
  exact absurd ((rep.holds.linked.distinct.getElem_inj_iff).mp addrEq) (Nat.ne_of_lt less)

theorem Represents.hashClear (rep : Represents K m ns l) (usual : UsualKeys K)
    {key : CStr} (inside : K key) :
    l.nodes.HashClear key :=
  ⟨usual.below key inside, fun _ member same => usual.apart _ _ (rep.keys usual member) inside same⟩

/-! ## Every call has the same reply -/

/-- A search in memory finds the node that carries what the engine finds. -/
theorem Represents.search (rep : Represents K m ns l) (usual : UsualKeys K)
    {key : CStr} (inside : K key) :
    (∃ a ∈ ns, ∃ node ∈ l.nodes, node.key = key ∧ m.Carries a node ∧
      skiplistSearch m.counted.list key = .ok (some a) ∧ l.nodes.search key = some (some node)) ∨
    ((∀ node ∈ l.nodes, node.key ≠ key) ∧
      skiplistSearch m.counted.list key = .ok none ∧ l.nodes.search key = some none) := by
  have linked := rep.holds.linked
  have found := (rep.sorted usual).search_eq (rep.hashClear usual inside)
  cases entry : l.nodes.find? fun node => node.key = key with
  | some node =>
      have member := List.mem_of_find?_eq_some entry
      have keyEq : node.key = key := by simpa using List.find?_some entry
      obtain ⟨a, linkedAt, carried⟩ := rep.exists_addr member
      have labelled : m.counted.list.keyOf a = some key := by rw [carried.1, keyEq]
      obtain ⟨b, linkedAt', labelled', ran⟩ := linked.search_linked linkedAt labelled
      obtain rfl : b = a := List.inj_on_of_nodup_map rep.unique linkedAt' linkedAt
        (labelled'.trans labelled.symm)
      exact Or.inl ⟨b, linkedAt, node, member, keyEq, carried, ran, by rw [found, entry]⟩
  | none =>
      have absent : ∀ node ∈ l.nodes, node.key ≠ key := by
        intro node member
        simpa using List.find?_eq_none.mp entry node member
      have free : ∀ a ∈ ns, m.counted.list.hashOf a ≠ skiplistHash key := by
        intro a member same
        obtain ⟨node, inside', carried⟩ := rep.exists_node member
        have hash := rep.hashOf member carried
        exact absent node inside'
          (usual.apart _ _ (rep.keys usual inside') inside (hash.symm.trans same))
      exact Or.inr ⟨absent, linked.search_no_hash free (usual.below key inside),
        by rw [found, entry]⟩

/-- The node that carries an entry is the only one with its key. -/
theorem Represents.addr_unique (rep : Represents K m ns l) {a b : NodeAddr} {key : CStr}
    (first : a ∈ ns) (second : b ∈ ns) (left : m.counted.list.keyOf a = some key)
    (right : m.counted.list.keyOf b = some key) : a = b :=
  List.inj_on_of_nodup_map rep.unique first second (left.trans right.symm)

theorem Represents.absent_addr (rep : Represents K m ns l) {key : CStr}
    (absent : ∀ node ∈ l.nodes, node.key ≠ key) :
    ¬ ∃ a ∈ ns, m.counted.list.keyOf a = some key := by
  intro present
  obtain ⟨a, member, labelled⟩ := present
  obtain ⟨node, inside, carried⟩ := rep.exists_node member
  exact absent node inside (Option.some.inj (carried.1.symm.trans labelled))

/-- A store over an entry writes into the structure around its node. -/
theorem Represents.update (rep : Represents K m ns l) {a : NodeAddr} (member : a ∈ ns)
    {key : CStr} (labelled : m.counted.list.keyOf a = some key) (value : β) :
    Represents K { m with payload := Function.update m.payload a value } ns
      { l with nodes := l.nodes.map fun node =>
        if node.key = key then { node with value := value } else node } where
  holds := rep.holds
  unique := rep.unique
  num := rep.num
  carries := by
    apply List.forall₂_iff_get.mpr
    refine ⟨by rw [List.length_map, rep.carries.length_eq], ?_⟩
    intro i inNs inMap
    have inNodes : i < l.nodes.length := by simpa using inMap
    obtain ⟨keyEq, valueEq⟩ : m.Carries ns[i] l.nodes[i] := rep.carries.get inNs inNodes
    simp only [List.get_eq_getElem, List.getElem_map, Carries]
    by_cases same : l.nodes[i].key = key
    · rw [same] at keyEq
      rw [if_pos same, rep.addr_unique (List.getElem_mem inNs) member keyEq labelled]
      exact ⟨by rw [labelled, same], Function.update_self ..⟩
    · have other : ns[i] ≠ a := by
        intro equal
        rw [equal, labelled] at keyEq
        exact same (Option.some.inj keyEq).symm
      rw [if_neg same, Function.update_of_ne other]
      exact ⟨keyEq, valueEq⟩

/-- An insertion of a new key links a node where the engine puts the entry. -/
theorem Represents.link (rep : Represents K m ns l) (usual : UsualKeys K)
    {key : CStr} (inside : K key) {level : Nat} (low : 1 ≤ level) (high : level ≤ skiplistMaxLevels)
    (absent : ∀ node ∈ l.nodes, node.key ≠ key) (value : β) :
    ∃ counted ns', m.counted.insertCounted key level = .ok (counted, .ok) ∧
      Represents K ⟨counted, Function.update m.payload m.counted.list.nodes.length value⟩ ns'
        ⟨l.nodes.insert key value, int32 (l.num + 1)⟩ := by
  have linked := rep.holds.linked
  have missing := rep.absent_addr absent
  have copied := intCopy_of_short (usual.short key inside)
  obtain ⟨pre, post, split, smaller, notSmaller, ⟨same, _⟩ | ⟨_, _, links⟩⟩ :=
    linked.insert key high
  · cases post with
    | nil =>
        rw [List.headD_nil, linked.header_key] at same
        cases same
    | cons b rest => exact absurd ⟨b, by rw [split]; simp, same⟩ missing
  · obtain ⟨list, ran, spliced⟩ := links key copied
    have result := spliced.linked_result linked split smaller notSmaller low high
      (usual.short key inside)
    have after : CountedList.Holds K { list with size := int32 (list.size + 1) }
        (pre ++ m.counted.list.nodes.length :: post) := by
      rcases rep.holds.insert usual.apart inside low high with ⟨present, _⟩ | ⟨_, _, links'⟩
      · exact absurd present missing
      · obtain ⟨list', ns', ran', holds', _⟩ := links' key copied
        obtain rfl : _ = list' := congrArg Prod.fst (Except.ok.inj (ran.symm.trans ran'))
        rwa [result.nodes.unique holds'.linked.nodes]
    have unique : SkiplistMem.UniqueKeys { list with size := int32 (list.size + 1) }
        (pre ++ m.counted.list.nodes.length :: post) := by
      refine SkiplistMem.UniqueKeys.grow (split ▸ rep.unique) ?_ spliced.grown.keyOf_new
        (split ▸ missing)
      intro a member
      exact spliced.grown.keyOf_old a (linked.lt_nodes (List.mem_cons_of_mem _ (split ▸ member)))
    obtain ⟨front, back, nodesEq, first, second⟩ := forall₂_append_left (split ▸ rep.carries)
    have below : ∀ node ∈ front, skiplistHash node.key < skiplistHash key := by
      intro node member
      obtain ⟨a, inPre, carried⟩ := forall₂_exists_right first.flip member
      rw [← rep.hashOf (split ▸ List.mem_append_left post inPre) carried]
      exact smaller a inPre
    have above : ∀ node ∈ back, skiplistHash key < skiplistHash node.key := by
      intro node member
      obtain ⟨a, inPost, carried⟩ := forall₂_exists_right second.flip member
      have inNodes : node ∈ l.nodes := nodesEq ▸ List.mem_append_right front member
      have le := notSmaller a inPost
      rw [rep.hashOf (split ▸ List.mem_append_right pre inPost) carried] at le
      apply lt_of_le_of_ne le
      intro same
      exact absent node inNodes (usual.apart _ _ (rep.keys usual inNodes) inside same.symm)
    have old : ∀ a ∈ ns, ∀ node, m.Carries a node →
        Carries ⟨⟨{ list with size := int32 (list.size + 1) }, int32 (m.counted.num + 1)⟩,
          Function.update m.payload m.counted.list.nodes.length value⟩ a node := by
      intro a member node carried
      have known := linked.lt_nodes (List.mem_cons_of_mem _ member)
      exact ⟨(spliced.grown.keyOf_old a known).trans carried.1,
        (Function.update_of_ne (Nat.ne_of_lt known) _ _).trans carried.2⟩
    refine ⟨⟨{ list with size := int32 (list.size + 1) }, int32 (m.counted.num + 1)⟩, _, ?_,
      after, unique, ?_, congrArg (int32 <| · + 1) rep.num⟩
    · rw [CountedList.insertCounted, ran]
      rfl
    · show List.Forall₂ _ _ (l.nodes.insert key value)
      rw [nodesEq, Skiplist.insert_split below above]
      apply List.rel_append
      · exact forall₂_imp_of_mem first fun a inPre =>
          old a (split ▸ List.mem_append_left post inPre)
      · apply List.Forall₂.cons
        · exact ⟨spliced.grown.keyOf_new, Function.update_self ..⟩
        · exact forall₂_imp_of_mem second fun a inPost =>
            old a (split ▸ List.mem_append_right pre inPost)

theorem Represents.store (rep : Represents K m ns l) (usual : UsualKeys K)
    {key : CStr} (inside : K key) {level : Nat}
    (low : 1 ≤ level) (high : level ≤ skiplistMaxLevels) (value : β) :
    ∃ fresh m' ns' l', m.store key value level = .ok (fresh, m') ∧
      l.store key value = some (fresh, l') ∧ Represents K m' ns' l' := by
  rw [PayloadList.store, NodeChain.store]
  rcases rep.search usual inside with
    ⟨a, member, node, _, keyEq, carried, inMemory, inEngine⟩ | ⟨absent, inMemory, inEngine⟩
  · rw [inMemory, inEngine]
    have labelled : m.counted.list.keyOf a = some key := by rw [carried.1, keyEq]
    exact ⟨false, _, ns, _, rfl, rfl, rep.update member labelled value⟩
  · obtain ⟨counted, ns', inserted, after⟩ := rep.link usual inside low high absent value
    rw [inMemory, inEngine]
    simp only [bind, Except.bind, inserted]
    exact ⟨true, _, ns', _, rfl, rfl, after⟩

theorem Represents.ref (rep : Represents K m ns l) (usual : UsualKeys K)
    {key : CStr} (inside : K key) :
    ∃ value, m.ref key = .ok value ∧ l.ref key = some value := by
  rw [PayloadList.ref, NodeChain.ref]
  rcases rep.search usual inside with
    ⟨a, _, node, _, _, carried, inMemory, inEngine⟩ | ⟨_, inMemory, inEngine⟩
  · rw [inMemory, inEngine]
    exact ⟨some node.value, congrArg (Except.ok ∘ some) carried.2, rfl⟩
  · rw [inMemory, inEngine]
    exact ⟨none, rfl, rfl⟩

/-- A deletion takes out the node that carries the entry. -/
theorem Represents.unlink (rep : Represents K m ns l) (usual : UsualKeys K)
    {key : CStr} (inside : K key) {a : NodeAddr}
    (member : a ∈ ns) (labelled : m.counted.list.keyOf a = some key) :
    ∃ list ns' rest, skiplistDelete m.counted.list key = .ok (list, .ok) ∧
      l.nodes.delete key = some (some rest) ∧
      Represents K ⟨⟨list, int32 (m.counted.num - 1)⟩, m.payload⟩ ns'
        ⟨rest, int32 (l.num - 1)⟩ := by
  have linked := rep.holds.linked
  obtain ⟨⟨list, rc⟩, ran⟩ := rep.holds.delete_returns (usual.below key inside)
  rcases rep.holds.delete usual.apart ran with ⟨rfl, ns', holds', _⟩ | ⟨_, _, missing⟩
  · rcases linked.delete_returned ran with
      ⟨_, pre, x, post, split, labelled', result, others⟩ | ⟨failed, _, _⟩
    · obtain rfl := result.nodes.unique holds'.linked.nodes
      obtain ⟨front, _, nodesEq, first, behind⟩ := forall₂_append_left (split ▸ rep.carries)
      obtain ⟨node, back, ⟨keyEq, _⟩, second, rfl⟩ := List.forall₂_cons_left_iff.mp behind
      obtain rfl : node.key = key := Option.some.inj (keyEq.symm.trans labelled')
      have sorted := rep.sorted usual
      have sorted' : Skiplist.Sorted (front ++ back) := by
        rw [nodesEq] at sorted
        exact List.Pairwise.sublist (List.Sublist.append_left (List.sublist_cons_self ..) _) sorted
      have perm : l.nodes.Perm (node :: (front ++ back)) := by
        rw [nodesEq]
        exact List.perm_middle
      have survive : ∀ b ∈ pre ++ post, ∀ entry, m.Carries b entry →
          Carries ⟨⟨list, int32 (m.counted.num - 1)⟩, m.payload⟩ b entry := by
        intro b inRest entry carried
        exact ⟨(others b (linked.ne_of_rest split b inRest)).trans carried.1, carried.2⟩
      have deleted : l.nodes.delete node.key = some (some (front ++ back)) := by
        rcases sorted.delete (rep.hashClear usual inside) with
          ⟨node', rest, found, ran', perm', sortedRest⟩ | ⟨absent, _⟩
        · have same : node'.key = node.key := by simpa using List.find?_some found
          rw [ran', ← sorted.filter_ne_key perm' sortedRest,
            ← sorted.filter_ne_key perm sorted', same]
        · have := List.find?_eq_none.mp absent node (perm.mem_iff.mpr List.mem_cons_self)
          simp at this
      have unique : list.UniqueKeys (pre ++ post) :=
        SkiplistMem.UniqueKeys.shrink (split ▸ rep.unique) fun b inRest =>
          others b (linked.ne_of_rest split b inRest)
      refine ⟨list, pre ++ post, front ++ back, ran, deleted, holds', unique, ?_,
        congrArg (int32 <| · - 1) rep.num⟩
      exact forall₂_imp_of_mem (List.rel_append first second) survive
    · cases failed
  · exact absurd ⟨a, member, labelled⟩ missing

theorem Represents.delete (rep : Represents K m ns l) (usual : UsualKeys K)
    {key : CStr} (inside : K key) :
    ∃ value m' ns' l', m.delete key = .ok (value, m') ∧ l.delete key = some (value, l') ∧
      Represents K m' ns' l' := by
  rw [PayloadList.delete, NodeChain.delete, CountedList.removeCounted]
  rcases rep.search usual inside with
    ⟨a, member, node, _, keyEq, carried, inMemory, inEngine⟩ | ⟨absent, inMemory, inEngine⟩
  · have labelled : m.counted.list.keyOf a = some key := by rw [carried.1, keyEq]
    obtain ⟨list, ns', rest, ran, deleted, after⟩ := rep.unlink usual inside member labelled
    rw [inMemory, inEngine, ran, deleted]
    exact ⟨_, _, ns', _, rfl, by rw [Option.map_some, carried.2], after⟩
  · obtain ⟨⟨list, rc⟩, ran⟩ := rep.holds.delete_returns (usual.below key inside)
    have missing : l.nodes.delete key = some none := by
      rcases (rep.sorted usual).delete (rep.hashClear usual inside) with
        ⟨node, rest, found, _⟩ | ⟨_, deleted⟩
      · have same : node.key = key := by simpa using List.find?_some found
        exact absurd same (absent node (List.mem_of_find?_eq_some found))
      · exact deleted
    rcases rep.holds.linked.delete_returned ran with
      ⟨_, pre, x, post, split, labelled, _⟩ | ⟨rfl, same, _⟩
    · exact absurd ⟨x, by rw [split]; simp, labelled⟩ (rep.absent_addr absent)
    · obtain rfl : list = m.counted.list := same
      rw [inMemory, inEngine, ran, missing]
      exact ⟨none, m, ns, l, rfl, rfl, rep⟩

/-! ### Iteration -/

/-- From a node, or the header, the iterator goes to the next node. -/
theorem iteratorNext_of_split {list : SkiplistMem} (linked : list.Linked ns)
    {pre post : List NodeAddr} (split : ns = pre ++ post) (p : Option NodeAddr) :
    skiplistIteratorNext list ⟨some (pre.getLastD skiplistHeader), p⟩ =
      .ok ⟨post.head?, some (pre.getLastD skiplistHeader)⟩ := by
  have chain := linked.chain 1 (by decide) (by decide)
  rw [linked.onLevel_one (List.Subset.refl ns), split] at chain
  have distinct := linked.nodup_header
  rw [skiplistIteratorNext]
  simp only [access, bind, Except.bind, chain.append_right.next_eq]
  cases post with
  | nil => rfl
  | cons a rest =>
      have inner : a ≠ skiplistHeader := by
        intro same
        rw [split, same] at distinct
        simp at distinct
      rw [List.headD_cons, if_neg inner]
      rfl

/-- From `pre` on, the loop reads what the nodes behind it carry. -/
theorem Represents.eachLoop (rep : Represents K m ns l) {pre post : List NodeAddr}
    (split : ns = pre ++ post) {back : Skiplist β} (carries : List.Forall₂ m.Carries post back)
    {fuel : Nat} (enough : post.length < fuel) (p : Option NodeAddr) :
    m.eachLoop fuel ⟨some (pre.getLastD skiplistHeader), p⟩ =
      .ok (back.map fun node => (node.key, node.value)) := by
  induction fuel generalizing pre post back p with
  | zero => omega
  | succ fuel ih =>
      rw [PayloadList.eachLoop, iteratorNext_of_split rep.holds.linked split]
      cases carries with
      | nil => rfl
      | @cons a node post back head tail =>
          obtain ⟨c, here, keyEq, _⟩ := SkiplistMem.exists_cell head.1
          have last : (pre ++ [a]).getLastD skiplistHeader = a := by simp
          have split' : ns = pre ++ [a] ++ post := by rw [split]; simp
          rw [List.length_cons] at enough
          have later := ih split' tail (by omega) (some (pre.getLastD skiplistHeader))
          rw [last] at later
          simp only [bind, Except.bind, List.head?_cons, here, access_some, keyEq, later, head.2,
            List.map_cons]

theorem Represents.each (rep : Represents K m ns l) : m.each = .ok l.each := by
  rw [PayloadList.each, NodeChain.each, skiplistIteratorNew]
  exact rep.eachLoop (List.nil_append ns).symm rep.carries rep.holds.linked.length_lt _

/-! ### Runs -/

theorem Represents.clear (rep : Represents K m ns l) (usual : UsualKeys K) :
    ∃ counted, m.counted.clearNodes = .ok counted ∧
      Represents K { m with counted := counted } [] { l with nodes := [] } := by
  obtain ⟨counted, ran⟩ := rep.holds.clearNodes_returns usual.apart usual.below
  obtain ⟨after, same⟩ := rep.holds.clearNodes usual.apart ran
  exact ⟨counted, ran, after, List.nodup_nil, .nil, same.trans rep.num⟩

/-- Memory and engine reply alike to every call. -/
theorem step_implements (usual : UsualKeys K) :
    Implements (fun (m : PayloadList β) l => ∃ ns, Represents K m ns l) (ContainerCall.Over K)
      step fun l c r l' => NodeChain.step l c = some (r, l') := by
  intro m l c related about
  obtain ⟨ns, rep⟩ := related
  show ∃ r m' l', (m.call c).toOption = some (r, m') ∧ l.step c = some (r, l') ∧
    ∃ ns', Represents K m' ns' l'
  cases c with
  | store key value level =>
      obtain ⟨fresh, m', ns', l', inMemory, inEngine, after⟩ :=
        rep.store usual about.1 about.2.1 about.2.2 value
      rw [call, NodeChain.step, inMemory, inEngine]
      exact ⟨_, _, _, rfl, rfl, ns', after⟩
  | ref key =>
      obtain ⟨value, inMemory, inEngine⟩ := rep.ref usual about
      rw [call, NodeChain.step, inMemory, inEngine]
      exact ⟨_, _, _, rfl, rfl, ns, rep⟩
  | delete key =>
      obtain ⟨value, m', ns', l', inMemory, inEngine, after⟩ :=
        rep.delete usual about
      rw [call, NodeChain.step, inMemory, inEngine]
      exact ⟨_, _, _, rfl, rfl, ns', after⟩
  | size =>
      rw [call, NodeChain.step, rep.num]
      exact ⟨_, _, _, rfl, rfl, ns, rep⟩
  | each =>
      rw [call, NodeChain.step, rep.each]
      exact ⟨_, _, _, rfl, rfl, ns, rep⟩
  | clear =>
      obtain ⟨counted, inMemory, after⟩ := rep.clear usual
      rw [call, NodeChain.step, inMemory]
      exact ⟨_, _, _, rfl, rfl, [], after⟩

/-- Whatever heights are drawn and wherever the nodes lie, every list of calls
returns, with the replies of the engine's container. -/
theorem replies_of_memory (usual : UsualKeys K) {calls : List (ContainerCall β)}
    (about : ∀ c ∈ calls, c.Over K) (payload : NodeAddr → β) :
    ∃ rs m l, replies step (init payload) calls = some (rs, m) ∧
      replies NodeChain.step NodeChain.init calls = some (rs, l) ∧
      ∃ ns, Represents K m ns l := by
  obtain ⟨rs, m, l, ran, allowed, after⟩ :=
    (step_implements usual).replies ⟨[], Represents.init K payload⟩ about
  exact ⟨rs, m, l, ran, allowed.replies_eq, after⟩

/-- Two entries, one of them changed, the other taken out. -/
def containerRun : List (ContainerCall CStr) :=
  [.store SkiplistMem.keyA SkiplistMem.keyA 2, .store SkiplistMem.key298063 SkiplistMem.keyA 1,
    .store SkiplistMem.keyA SkiplistMem.key3687 3, .delete SkiplistMem.key298063, .size, .each]

theorem containerRun_over : ∀ c ∈ containerRun, c.Over CountedList.TwoKeys := by
  simp [containerRun, ContainerCall.Over, CountedList.TwoKeys, skiplistMaxLevels]

theorem twoKeys_usual : UsualKeys CountedList.TwoKeys where
  apart := CountedList.twoKeys_apart
  below := by
    intro key either
    rcases either with rfl | rfl
    · decide
    · decide
  short := by
    intro key either
    rcases either with rfl | rfl
    · decide
    · decide

theorem replies_of_memory_containerRun :
    (replies step (init fun _ => SkiplistMem.keyA) containerRun).map Prod.fst =
      some [.stored true, .stored true, .stored false, .found (some SkiplistMem.keyA), .count 1,
        .entries [(SkiplistMem.keyA, SkiplistMem.key3687)]] := by
  obtain ⟨rs, m, l, ran, ran', _⟩ :=
    replies_of_memory twoKeys_usual containerRun_over fun _ => SkiplistMem.keyA
  have inEngine : (replies NodeChain.step NodeChain.init containerRun).map Prod.fst =
      some [.stored true, .stored true, .stored false, .found (some SkiplistMem.keyA), .count 1,
        .entries [(SkiplistMem.keyA, SkiplistMem.key3687)]] := by decide
  rw [ran', Option.map_some] at inEngine
  rw [ran, Option.map_some]
  exact inEngine

end PayloadList

/-! ## A container is a partial map -/

/-- A partial map, and the number of its entries that clearings took out. -/
structure EntryMap (β : Type) where
  entry : CStr → Option β
  cleared : Nat

namespace EntryMap

variable {β : Type}

def keys (f : EntryMap β) : Set CStr := { key | (f.entry key).isSome }

/-- The replies of a map.  A cleared entry stays counted, the count wraps, and an iteration has
the order of the hashes. -/
inductive Answers : EntryMap β → ContainerCall β → ContainerReply β → EntryMap β → Prop
  | store (f : EntryMap β) (key : CStr) (value : β) (level : Nat) :
    Answers f (.store key value level) (.stored (f.entry key).isNone)
      { f with entry := Function.update f.entry key (some value) }
  | ref (f : EntryMap β) (key : CStr) : Answers f (.ref key) (.found (f.entry key)) f
  | delete (f : EntryMap β) (key : CStr) : Answers f (.delete key) (.found (f.entry key))
      { f with entry := Function.update f.entry key none }
  | size (f : EntryMap β) : Answers f .size (.count (int32 (f.keys.ncard + f.cleared))) f
  | each (f : EntryMap β) (list : List (CStr × β))
    (ordered : list.Pairwise fun a b => skiplistHash a.1 < skiplistHash b.1)
    (complete : ∀ key value, (key, value) ∈ list ↔ f.entry key = some value) :
    Answers f .each (.entries list) f
  | clear (f : EntryMap β) : Answers f .clear .done ⟨fun _ => none, f.cleared + f.keys.ncard⟩

def empty : EntryMap β := ⟨fun _ => none, 0⟩

end EntryMap

namespace NodeChain

variable {β : Type} {l : NodeChain β} {f : EntryMap β}

/-- The entries of the container are those of the map. -/
structure Means (l : NodeChain β) (f : EntryMap β) : Prop where
  sorted : l.nodes.Sorted
  entry : ∀ key value, f.entry key = some value ↔ ⟨key, value⟩ ∈ l.nodes
  num : l.num = int32 (l.nodes.length + f.cleared)

theorem Means.init : Means (init : NodeChain β) EntryMap.empty where
  sorted := .nil
  entry := by simp [NodeChain.init, EntryMap.empty]
  num := by simp [NodeChain.init, EntryMap.empty]

theorem Means.find (means : Means l f) (key : CStr) :
    f.entry key = (l.nodes.find? fun node => node.key = key).map SkiplistNode.value := by
  cases found : l.nodes.find? fun node => node.key = key with
  | some node =>
      have member := List.mem_of_find?_eq_some found
      have same : node.key = key := by simpa using List.find?_some found
      rw [Option.map_some, means.entry, ← same]
      exact member
  | none =>
      cases entry : f.entry key with
      | none => rfl
      | some value =>
          have := List.find?_eq_none.mp found _ ((means.entry key value).mp entry)
          simp at this

/-- Each entry has its own key. -/
theorem Means.ncard (means : Means l f) : f.keys.ncard = l.nodes.length := by
  have keys : f.keys = ((l.nodes.map SkiplistNode.key).toFinset : Set CStr) := by
    ext key
    simp only [EntryMap.keys, Set.mem_ofPred_eq, Option.isSome_iff_exists, means.entry,
      List.coe_toFinset, List.mem_map]
    constructor
    · intro present
      obtain ⟨value, member⟩ := present
      exact ⟨⟨key, value⟩, member, rfl⟩
    · intro present
      obtain ⟨node, member, rfl⟩ := present
      exact ⟨node.value, member⟩
  rw [keys, Set.ncard_coe_finset, List.toFinset_card_of_nodup means.sorted.nodup_keys,
    List.length_map]

theorem Means.each (means : Means l f) : EntryMap.Answers f .each (.entries l.each) f := by
  apply EntryMap.Answers.each
  · rw [NodeChain.each, List.pairwise_map]
    exact means.sorted
  · intro key value
    rw [means.entry, NodeChain.each, List.mem_map]
    constructor
    · intro present
      obtain ⟨node, member, same⟩ := present
      cases same
      exact member
    · intro member
      exact ⟨_, member, rfl⟩

theorem Means.clear (means : Means l f) :
    Means { l with nodes := [] } (⟨fun _ => none, f.cleared + f.keys.ncard⟩ : EntryMap β) where
  sorted := .nil
  entry := by simp
  num := by
    have := means.num
    rw [means.ncard, List.length_nil, this]
    apply congrArg int32
    push_cast
    ring

/-- A store of a new key adds its entry. -/
theorem Means.insert (means : Means l f) {key : CStr} (clear : l.nodes.HashClear key)
    (absent : ∀ node ∈ l.nodes, node.key ≠ key) (value : β) :
    Means ⟨l.nodes.insert key value, int32 (l.num + 1)⟩
      { f with entry := Function.update f.entry key (some value) } := by
  obtain ⟨sorted, perm⟩ := means.sorted.insert clear absent value
  refine ⟨sorted, ?_, ?_⟩
  · intro key' value'
    show Function.update f.entry key (some value) key' = _ ↔ _ ∈ l.nodes.insert key value
    rw [perm.mem_iff, List.mem_cons, SkiplistNode.mk.injEq]
    rcases eq_or_ne key' key with rfl | other
    · rw [Function.update_self]
      constructor
      · intro same
        exact Or.inl ⟨rfl, (Option.some.inj same).symm⟩
      · intro present
        rcases present with ⟨_, rfl⟩ | old
        · rfl
        · exact absurd rfl (absent _ old)
    · rw [Function.update_of_ne other, means.entry]
      exact ⟨Or.inr, fun present => present.resolve_left fun same => other same.1⟩
  · have longer : ((l.nodes.insert key value).length : Int) + f.cleared =
        l.nodes.length + f.cleared + 1 := by
      rw [perm.length_eq, List.length_cons]
      push_cast
      ring
    rw [longer, means.num, int32_add_int32]

/-- A store over an entry changes its value. -/
theorem Means.update (means : Means l f) {node : SkiplistNode β} (member : node ∈ l.nodes)
    (value : β) :
    Means { l with nodes := l.nodes.map fun other =>
        if other.key = node.key then { other with value := value } else other }
      { f with entry := Function.update f.entry node.key (some value) } := by
  have keyEq : ∀ other : SkiplistNode β,
      (if other.key = node.key then { other with value := value } else other).key = other.key := by
    intro other
    split <;> rfl
  refine ⟨?_, ?_, ?_⟩
  · show List.Pairwise _ (l.nodes.map _)
    rw [List.pairwise_map]
    simp only [keyEq]
    exact means.sorted
  · intro key value'
    show Function.update f.entry node.key (some value) key = _ ↔ _ ∈ l.nodes.map _
    rw [List.mem_map]
    rcases eq_or_ne key node.key with rfl | other
    · rw [Function.update_self]
      constructor
      · intro same
        cases same
        exact ⟨node, member, if_pos rfl⟩
      · intro present
        obtain ⟨old, _, same⟩ := present
        have oldKey : old.key = node.key := by rw [← keyEq, same]
        rw [if_pos oldKey] at same
        exact congrArg some (congrArg SkiplistNode.value same)
    · rw [Function.update_of_ne other, means.entry]
      constructor
      · intro present
        exact ⟨_, present, if_neg other⟩
      · intro present
        obtain ⟨old, inside, same⟩ := present
        have oldKey : old.key = key := by rw [← keyEq, same]
        rw [if_neg (oldKey ▸ other)] at same
        rwa [← same]
  · rw [List.length_map]
    exact means.num

/-- A deletion takes the entry of the key out. -/
theorem Means.unlink (means : Means l f) {node : SkiplistNode β} {rest : Skiplist β}
    (perm : l.nodes.Perm (node :: rest)) (sorted : rest.Sorted) :
    Means ⟨rest, int32 (l.num - 1)⟩ { f with entry := Function.update f.entry node.key none } := by
  refine ⟨sorted, ?_, ?_⟩
  · intro key value
    show Function.update f.entry node.key none key = _ ↔ _ ∈ rest
    rcases eq_or_ne key node.key with rfl | other
    · rw [Function.update_self]
      constructor
      · intro same
        cases same
      · intro left
        have other := means.sorted.ne_key_of_mem perm left
        exact absurd rfl other
    · rw [Function.update_of_ne other, means.entry, perm.mem_iff, List.mem_cons]
      constructor
      · intro present
        apply present.resolve_left
        intro same
        exact other (congrArg SkiplistNode.key same)
      · exact Or.inr
  · have := perm.length_eq
    rw [List.length_cons] at this
    rw [means.num, this, Int.sub_eq_add_neg, int32_add_int32]
    apply congrArg int32
    push_cast
    ring

variable {K : CStr → Prop}

/-- The container replies to every call as the map does. -/
theorem step_implements (usual : UsualKeys K) :
    Implements (fun (l : NodeChain β) f => Means l f ∧ ∀ node ∈ l.nodes, K node.key)
      (ContainerCall.Over K) step EntryMap.Answers := by
  intro l f c related about
  obtain ⟨means, keys⟩ := related
  have clear : ∀ key, K key → l.nodes.HashClear key := fun key inside =>
    ⟨usual.below key inside, fun node member same =>
      usual.apart _ _ (keys node member) inside same⟩
  cases c with
  | store key value level =>
      have searched := means.sorted.search_eq (clear key about.1)
      have answer := EntryMap.Answers.store f key value level
      cases found : l.nodes.find? fun node => node.key = key with
      | some node =>
          have member := List.mem_of_find?_eq_some found
          obtain rfl : node.key = key := by simpa using List.find?_some found
          rw [means.find, found] at answer
          refine ⟨_, _, _, ?_, answer, means.update member value, ?_⟩
          · rw [step, store, searched, found]
            rfl
          · intro other inside
            obtain ⟨old, inside', rfl⟩ := List.mem_map.mp inside
            split
            · exact keys old inside'
            · exact keys old inside'
      | none =>
          have absent : ∀ node ∈ l.nodes, node.key ≠ key := by
            intro node member
            simpa using List.find?_eq_none.mp found node member
          rw [means.find, found] at answer
          refine ⟨_, _, _, ?_, answer, means.insert (clear key about.1) absent value, ?_⟩
          · rw [step, store, searched, found]
            rfl
          · intro node inside
            have perm := (means.sorted.insert (clear key about.1) absent value).2
            rcases List.mem_cons.mp (perm.mem_iff.mp inside) with rfl | old
            · exact about.1
            · exact keys node old
  | ref key =>
      refine ⟨_, l, f, ?_, .ref f key, means, keys⟩
      rw [step, ref, means.sorted.search_eq (clear key about), means.find]
      rfl
  | delete key =>
      have searched := means.sorted.search_eq (clear key about)
      have answer := EntryMap.Answers.delete f key
      rcases means.sorted.delete (clear key about) with
        ⟨node, rest, found, deleted, perm, sorted⟩ | ⟨missing, deleted⟩
      · obtain rfl : node.key = key := by simpa using List.find?_some found
        rw [means.find, found] at answer
        refine ⟨_, _, _, ?_, answer, means.unlink perm sorted, ?_⟩
        · rw [step, delete, searched, found, deleted]
          rfl
        · intro other inside
          exact keys other (perm.mem_iff.mpr (List.mem_cons_of_mem node inside))
      · have entry : f.entry key = none := by rw [means.find, missing, Option.map_none]
        have same : Function.update f.entry key none = f.entry := by
          rw [← entry, Function.update_eq_self]
        rw [same, entry] at answer
        refine ⟨_, l, f, ?_, answer, means, keys⟩
        rw [step, delete, searched, missing, deleted]
        rfl
  | size =>
      refine ⟨_, l, f, rfl, ?_, means, keys⟩
      rw [means.num, ← means.ncard]
      exact .size f
  | each => exact ⟨_, l, f, rfl, means.each, means, keys⟩
  | clear => exact ⟨_, _, _, rfl, .clear f, means.clear, by simp⟩

end NodeChain

/-- Every list of calls on a container in memory returns, with replies a partial
map gives. -/
theorem PayloadList.replies_of_map {β : Type} {K : CStr → Prop}
    (usual : UsualKeys K) {calls : List (ContainerCall β)}
    (about : ∀ c ∈ calls, c.Over K) (payload : NodeAddr → β) :
    ∃ rs m f, replies step (init payload) calls = some (rs, m) ∧
      Allowed EntryMap.Answers EntryMap.empty calls rs f := by
  obtain ⟨rs, m, l, ran, allowed, _⟩ :=
    (step_implements usual).replies ⟨[], Represents.init K payload⟩ about
  obtain ⟨rs', l', f, ran', answered, _⟩ :=
    (NodeChain.step_implements usual).replies ⟨NodeChain.Means.init, by simp [NodeChain.init]⟩ about
  obtain rfl : rs = rs' :=
    congrArg Prod.fst (Option.some.inj (allowed.replies_eq.symm.trans ran'))
  exact ⟨rs, m, f, ran, answered⟩

theorem PayloadList.replies_of_map_containerRun :
    ∃ rs m f, replies step (init fun _ => SkiplistMem.keyA) containerRun = some (rs, m) ∧
      Allowed EntryMap.Answers EntryMap.empty containerRun rs f :=
  replies_of_map twoKeys_usual containerRun_over _

/-! ## The engine's methods -/

namespace Node

variable (n : Node) (id : Nat)

/-- `rb_hashmap_store` stores into the chain and notifies the disk of an addition
or an update. -/
theorem rbHashmapStore_eq (key data : RStr) :
    n.rbHashmapStore id key data = n.onMap id fun o nodes num =>
      match stringValueCStr key, stringValueCStr data with
      | .error e, _ => some (.error e, n)
      | _, .error e => some (.error e, n)
      | .ok k, .ok d => (NodeChain.store ⟨nodes, num⟩ k d).map fun out =>
        (.ok (), (n.setObj id { o with c := .hashmap out.2.nodes out.2.num }).noticeAll o.key
          fun key => [⟨key, some k, some d, if out.1 then .hmAdd else .hmUpdate⟩]) := by
  rw [rbHashmapStore]
  congr 1
  funext o nodes num
  cases stringValueCStr key with
  | error e => rfl
  | ok k =>
      cases stringValueCStr data with
      | error e => rfl
      | ok d =>
          simp only [NodeChain.store]
          cases nodes.search k with
          | none => rfl
          | some found => cases found <;> rfl

theorem rbHashmapRef_eq (key : RStr) :
    n.rbHashmapRef id key = n.onMap id fun _ nodes num =>
      match stringValueCStr key with
      | .error e => some (.error e, n)
      | .ok k => (NodeChain.ref ⟨nodes, num⟩ k).map fun value =>
        (.ok (value.map CStr.toR), n) := by
  rw [rbHashmapRef]
  congr 1
  funext o nodes num
  cases stringValueCStr key with
  | error e => rfl
  | ok k =>
      simp only [NodeChain.ref, Option.map_map]
      cases nodes.search k with
      | none => rfl
      | some found => cases found <;> rfl

theorem rbHashmapDelete_eq (key : RStr) :
    n.rbHashmapDelete id key = n.onMap id fun o nodes num =>
      match stringValueCStr key with
      | .error e => some (.error e, n)
      | .ok k => (NodeChain.delete ⟨nodes, num⟩ k).map fun out =>
        match out.1 with
        | some value => (.ok (some value.toR),
          (n.setObj id { o with c := .hashmap out.2.nodes out.2.num }).noticeAll o.key
            fun key => [⟨key, some k, none, .hmDel⟩])
        | none => (.ok none, n) := by
  rw [rbHashmapDelete]
  congr 1
  funext o nodes num
  cases stringValueCStr key with
  | error e => rfl
  | ok k =>
      simp only [NodeChain.delete]
      rcases searched : nodes.search k with _ | _ | node
      · rfl
      · rcases nodes.delete k with _ | _ | rest <;> rfl
      · obtain rfl := Skiplist.key_of_search searched
        rcases nodes.delete node.key with _ | _ | rest <;> rfl

theorem rbSetAdd_eq (key : RStr) :
    n.rbSetAdd id key = n.onSet id fun o nodes num =>
      match stringValueCStr key with
      | .error e => some (.error e, n)
      | .ok k => (NodeChain.store ⟨nodes, num⟩ k ()).map fun out =>
        if out.1 then (.ok true, (n.setObj id { o with c := .set out.2.nodes out.2.num }).noticeAll
          o.key fun key => [⟨key, some k, none, .setAdd⟩])
        else (.ok false, n) := by
  rw [rbSetAdd]
  congr 1
  funext o nodes num
  cases stringValueCStr key with
  | error e => rfl
  | ok k =>
      simp only [NodeChain.store]
      rcases nodes.search k with _ | _ | node <;> rfl

theorem rbSetInclude_eq (key : RStr) :
    n.rbSetInclude id key = n.onSet id fun _ nodes num =>
      match stringValueCStr key with
      | .error e => some (.error e, n)
      | .ok k => (NodeChain.ref ⟨nodes, num⟩ k).map fun value => (.ok value.isSome, n) := by
  rw [rbSetInclude]
  congr 1
  funext o nodes num
  cases stringValueCStr key with
  | error e => rfl
  | ok k =>
      simp only [NodeChain.ref]
      rcases nodes.search k with _ | _ | node <;> rfl

theorem rbSetRemove_eq (key : RStr) :
    n.rbSetRemove id key = n.onSet id fun o nodes num =>
      match stringValueCStr key with
      | .error e => some (.error e, n)
      | .ok k => (NodeChain.delete ⟨nodes, num⟩ k).map fun out =>
        if out.1.isSome then (.ok true,
          (n.setObj id { o with c := .set out.2.nodes out.2.num }).noticeAll o.key
            fun key => [⟨key, some k, none, .setDel⟩])
        else (.ok false, n) := by
  rw [rbSetRemove]
  congr 1
  funext o nodes num
  cases stringValueCStr key with
  | error e => rfl
  | ok k =>
      simp only [NodeChain.delete]
      rcases searched : nodes.search k with _ | _ | node
      · rfl
      · rcases nodes.delete k with _ | _ | rest <;> rfl
      · obtain rfl := Skiplist.key_of_search searched
        rcases nodes.delete node.key with _ | _ | rest <;> rfl

end Node

end XFireDB
