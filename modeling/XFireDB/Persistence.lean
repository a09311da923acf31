import XFireDB.Tracking
import XFireDB.Commands

/-!
# Commands keep the rows in step

`PersistOk` is the guard on engine calls: where it fails, a call leaves memory
and table apart.  Under it every storage command keeps a node `Sound`: the
queued notices lead to rows that mirror the node, and no key holds an empty
container.
-/

namespace XFireDB

open Lib

/-! ## The guard -/

/-- A sub-key argument: its hash is clear, or the call raises and leaves a
container that is not empty. -/
def SubkeyOk {β : Type} (nodes : Skiplist β) (h : RStr) : Prop :=
  match stringValueCStr h with
  | .ok k => nodes.HashClear k
  | .error _ => nodes ≠ []

namespace Node

/-- The elements of a list object. -/
def listOf (n : Node) (id : Nat) : Option (List CStr) :=
  match n.objs id with
  | some ⟨_, _, .list elems⟩ => some elems
  | _ => none

def mapOf (n : Node) (id : Nat) : Option (Skiplist CStr) :=
  match n.objs id with
  | some ⟨_, _, .hashmap nodes _⟩ => some nodes
  | _ => none

def setOf (n : Node) (id : Nat) : Option (Skiplist Unit) :=
  match n.objs id with
  | some ⟨_, _, .set nodes _⟩ => some nodes
  | _ => none

/-- The key holds a string. -/
def HasString (n : Node) (key : RStr) : Prop :=
  ∃ k s, stringValueCStr key = .ok k ∧ n.db k = some (.string s)

/-- The guard on engine calls.

* A string with a NUL is not stored over a string.
* A call whose argument has a NUL is not made on an empty container.
* A sub-key shares its hash with no other linked key nor with the header.
* An element popped from a list leaves the list that taking out the first equal
  element leaves; an element set is the first equal one, or is set to itself. -/
def PersistOk : {β : Type} → Node → Call β → Prop
  | _, n, .dbStore key (.str data) => 0 ∈ data → ¬ n.HasString key
  | _, n, .listPush id data => 0 ∈ data → n.listOf id ≠ some []
  | _, n, .listPop id i =>
    ∀ elems pos data, n.listOf id = some elems → listRef elems i = some (pos, data) →
      elems.erase data = elems.eraseIdx pos
  | _, n, .listSet id i data =>
    ∀ elems pos old d, n.listOf id = some elems → listRef elems i = some (pos, old) →
      stringValueCStr data = .ok d → elems.set (elems.idxOf old) d = elems.set pos d
  | _, n, .mapStore id h data =>
    ∀ nodes, n.mapOf id = some nodes → if 0 ∈ data then nodes ≠ [] else SubkeyOk nodes h
  | _, n, .mapDelete id h => ∀ nodes, n.mapOf id = some nodes → SubkeyOk nodes h
  | _, n, .mapRef id h => ∀ nodes, n.mapOf id = some nodes → SubkeyOk nodes h
  | _, n, .setAdd id h => ∀ nodes, n.setOf id = some nodes → SubkeyOk nodes h
  | _, n, .setRemove id h => ∀ nodes, n.setOf id = some nodes → SubkeyOk nodes h
  | _, n, .setInclude id h => ∀ nodes, n.setOf id = some nodes → SubkeyOk nodes h
  | _, _, _ => True

end Node

/-! ## Nodes that are in step -/

/-- No element. -/
def Container.IsEmpty : Container → Prop
  | .list elems => elems = []
  | .hashmap nodes _ => nodes = []
  | .set nodes _ => nodes = []

/-- The key holds no empty container. -/
def Stored.Full (v : Option Stored) : Prop := ∀ c, v = some (.container c) → ¬ c.IsEmpty

namespace Node

/-- Between two commands. -/
structure Sound (n : Node) : Prop where
  tracks : ∃ rows, n.Tracks rows
  persists : n.Persists
  full : ∀ k, Stored.Full (n.content k)

/-- Inside a command on key `k` that started in `n₀`: the rows are in step, and
what other keys hold has not changed. -/
structure Follows (n₀ : Node) (k : CStr) (n : Node) : Prop where
  tracks : ∃ rows, n.Tracks rows
  persists : n.Persists
  frame : ∀ k', k' ≠ k → n.content k' = n₀.content k'

theorem Sound.follows {n : Node} (sound : n.Sound) (k : CStr) : Follows n k n :=
  ⟨sound.tracks, sound.persists, fun _ _ => rfl⟩

theorem Follows.sound {n₀ n : Node} {k : CStr} (follows : Follows n₀ k n) (before : n₀.Sound)
    (full : Stored.Full (n.content k)) : n.Sound where
  tracks := follows.tracks
  persists := follows.persists
  full := by
    intro k'
    by_cases same : k' = k
    · rw [same]
      exact full
    · rw [follows.frame k' same]
      exact before.full k'

theorem Follows.wf {n₀ n : Node} {k : CStr} (follows : Follows n₀ k n) : n.Wf := by
  obtain ⟨rows, tracks⟩ := follows.tracks
  exact tracks.wf

/-- A change of the command's key whose notices keep its rows in step. -/
theorem Follows.changes {n₀ n n' : Node} {k : CStr} {v : Option Stored} {ops : List BioQ}
    (follows : Follows n₀ k n) (changes : Changes n n' k v ops)
    (mirrors : ∀ rows, Mirrors k (n.content k) rows → Mirrors k v (bioWorker rows ops))
    (through : ∀ rows, Mirrors k (n.content k) rows → MirrorsThrough k rows ops) :
    Follows n₀ k n' := by
  obtain ⟨rows, tracks⟩ := follows.tracks
  have here := tracks.mirror k
  refine ⟨⟨_, tracks.changes changes (mirrors _ here) (through _ here)⟩,
    changes.persists.mpr follows.persists, ?_⟩
  intro k' other
  rw [changes.content, Function.update_of_ne other]
  exact follows.frame k' other

/-- A change with one notice. -/
theorem Follows.change {n₀ n n' : Node} {k : CStr} {v : Option Stored} {q : BioQ}
    (follows : Follows n₀ k n) (changes : Changes n n' k v [q])
    (mirrors : ∀ rows, Mirrors k (n.content k) rows → Mirrors k v (bioWorker rows [q])) :
    Follows n₀ k n' :=
  follows.changes changes mirrors fun rows here => here.through_one (mirrors rows here)

theorem Changes.content_self {n n' : Node} {k : CStr} {v : Option Stored} {ops : List BioQ}
    (changes : Changes n n' k v ops) : n'.content k = v := by
  rw [changes.content, Function.update_self]

/-- The shard plays no part. -/
theorem Follows.shard {n₀ n : Node} {k : CStr} (follows : Follows n₀ k n) (shard : KeyShard) :
    Follows n₀ k { n with shard := shard } := by
  obtain ⟨rows, tracks⟩ := follows.tracks
  exact ⟨⟨rows, ⟨tracks.wf.held, tracks.wf.allocated⟩, tracks.mirror, tracks.synced, tracks.cuts⟩,
    follows.persists, follows.frame⟩

theorem Follows.clean_map {n₀ n : Node} {k : CStr} {id : Nat} {o : Obj} (follows : Follows n₀ k n)
    (holds : n.Holds k id o) {nodes : Skiplist CStr} {num : Int} (data : o.c = .hashmap nodes num) :
    nodes.Clean num := by
  obtain ⟨rows, tracks⟩ := follows.tracks
  have mirrors := tracks.mirror k
  rw [holds.content, data] at mirrors
  exact mirrors.2

theorem Follows.clean_set {n₀ n : Node} {k : CStr} {id : Nat} {o : Obj} (follows : Follows n₀ k n)
    (holds : n.Holds k id o) {nodes : Skiplist Unit} {num : Int} (data : o.c = .set nodes num) :
    nodes.Clean num := by
  obtain ⟨rows, tracks⟩ := follows.tracks
  have mirrors := tracks.mirror k
  rw [holds.content, data] at mirrors
  exact mirrors.2

/-! ## Container calls -/

section Methods

variable {n₀ n : Node} {k : CStr} {id : Nat} {o : Obj}

/-- `push` appends to the list under the key. -/
theorem Wf.rbListPush (wf : n.Wf) (holds : n.Holds k id o) {elems : List CStr}
    (isList : o.c = .list elems) {data : RStr} {d : CStr} (value : stringValueCStr data = .ok d) :
    ∃ n', n.rbListPush id data = (.ok (), n') ∧
      Changes n n' k (some (.container (.list (elems ++ [d])))) [⟨k, none, some d, .listAdd⟩] ∧
      n'.Holds k id { o with c := .list (elems ++ [d]) } := by
  refine ⟨_, ?_, wf.changes_object holds (.list (elems ++ [d])) (by simp), holds_setObj holds _ _⟩
  simp only [Node.rbListPush, onList, holds.obj, isList, value, wf.holds_key holds, noticeAll,
    setObj_notices]

/-- `store` of a key that is not linked. -/
theorem Wf.rbHashmapStore_absent (wf : n.Wf) (holds : n.Holds k id o) {nodes : Skiplist CStr}
    {num : Int} (isMap : o.c = .hashmap nodes num) {h data : RStr} {h' d : CStr}
    (subkey : stringValueCStr h = .ok h') (value : stringValueCStr data = .ok d)
    (missing : nodes.search h' = some none) :
    ∃ n', n.rbHashmapStore id h data = some (.ok (), n') ∧
      Changes n n' k (some (.container (.hashmap (nodes.insert h' d) (int32 (num + 1)))))
        [⟨k, some h', some d, .hmAdd⟩] ∧
      n'.Holds k id { o with c := .hashmap (nodes.insert h' d) (int32 (num + 1)) } := by
  refine ⟨_, ?_, wf.changes_object holds (.hashmap (nodes.insert h' d) (int32 (num + 1))) (by simp),
    holds_setObj holds _ _⟩
  simp only [Node.rbHashmapStore, onMap, holds.obj, isMap, subkey, value, missing, Option.map_some,
    wf.holds_key holds, noticeAll]

/-- `add` of a key that is not linked. -/
theorem Wf.rbSetAdd_absent (wf : n.Wf) (holds : n.Holds k id o) {nodes : Skiplist Unit} {num : Int}
    (isSet : o.c = .set nodes num) {h : RStr} {h' : CStr} (subkey : stringValueCStr h = .ok h')
    (missing : nodes.search h' = some none) :
    ∃ n', n.rbSetAdd id h = some (.ok true, n') ∧
      Changes n n' k (some (.container (.set (nodes.insert h' ()) (int32 (num + 1)))))
        [⟨k, some h', none, .setAdd⟩] ∧
      n'.Holds k id { o with c := .set (nodes.insert h' ()) (int32 (num + 1)) } := by
  refine ⟨_, ?_, wf.changes_object holds (.set (nodes.insert h' ()) (int32 (num + 1))) (by simp),
    holds_setObj holds _ _⟩
  simp only [Node.rbSetAdd, onSet, holds.obj, isSet, subkey, missing, Option.map_some,
    wf.holds_key holds, noticeAll]

/-- A method call that puts `c` in the place of the object's data. -/
theorem Follows.modify (follows : Follows n₀ k n) (holds : n.Holds k id o) (c : Container)
    (q : BioQ) (forKey : q.key = k)
    (mirrors : ∀ rows, Mirrors k (some (.container o.c)) rows →
      Mirrors k (some (.container c)) (bioWorker rows [q])) :
    Follows n₀ k ((n.setObj id { o with c := c }).notices [q]) ∧
      ((n.setObj id { o with c := c }).notices [q]).Holds k id { o with c := c } := by
  refine ⟨follows.change (follows.wf.changes_object holds c (by simpa using forKey)) ?_,
    holds_setObj holds _ [q]⟩
  rw [holds.content]
  exact mirrors

theorem Follows.key (follows : Follows n₀ k n) (holds : n.Holds k id o) : o.key = some k :=
  follows.wf.holds_key holds

theorem Follows.listPush (follows : Follows n₀ k n) (holds : n.Holds k id o) {elems : List CStr}
    (isList : o.c = .list elems) {data : RStr} {d : CStr} (value : stringValueCStr data = .ok d) :
    ∃ n', n.rbListPush id data = (.ok (), n') ∧ Follows n₀ k n' ∧
      n'.Holds k id { o with c := .list (elems ++ [d]) } := by
  obtain ⟨n', pushed, changes, holds'⟩ := follows.wf.rbListPush holds isList value
  refine ⟨n', pushed, follows.change changes ?_, holds'⟩
  intro rows mirrors
  rw [holds.content, isList] at mirrors
  exact mirrors.listAdd d

theorem Follows.listPop (follows : Follows n₀ k n) (holds : n.Holds k id o) {elems : List CStr}
    (isList : o.c = .list elems) {i : Int} (inRange : num2int i = .ok i) {pos : Nat} {data : CStr}
    (found : listRef elems i = some (pos, data)) (first : elems.erase data = elems.eraseIdx pos) :
    ∃ n', n.rbListPop id i = (.ok (some data.toR), n') ∧ Follows n₀ k n' ∧
      n'.Holds k id { o with c := .list (elems.eraseIdx pos) } := by
  refine ⟨_, ?_, follows.modify holds (.list (elems.eraseIdx pos))
    ⟨k, some data, none, .listDel⟩ rfl ?_⟩
  · simp only [rbListPop, onList, holds.obj, isList, inRange, found, follows.key holds, noticeAll,
      setObj_notices]
  · intro rows mirrors
    rw [isList] at mirrors
    exact (mirrors.listDel_iff pos data).mpr first

theorem Follows.listSet (follows : Follows n₀ k n) (holds : n.Holds k id o) {elems : List CStr}
    (isList : o.c = .list elems) {i : Int} (inRange : num2int i = .ok i) {pos : Nat} {old : CStr}
    (found : listRef elems i = some (pos, old)) {data : RStr} {d : CStr}
    (value : stringValueCStr data = .ok d)
    (first : elems.set (elems.idxOf old) d = elems.set pos d) :
    ∃ n', n.rbListSet id i data = (.ok (), n') ∧ Follows n₀ k n' ∧
      n'.Holds k id { o with c := .list (elems.set pos d) } := by
  refine ⟨_, ?_, follows.modify holds (.list (elems.set pos d))
    ⟨k, some old, some d, .listUpdate⟩ rfl ?_⟩
  · simp only [rbListSet, onList, holds.obj, isList, inRange, found, value, follows.key holds,
      noticeAll, setObj_notices]
  · intro rows mirrors
    rw [isList] at mirrors
    exact (mirrors.listUpdate_iff pos old d).mpr first

/-- `rb_hashmap_store` with proper strings: the hashmap is not empty afterwards. -/
theorem Follows.mapStore (follows : Follows n₀ k n) (holds : n.Holds k id o)
    {nodes : Skiplist CStr} {num : Int} (isMap : o.c = .hashmap nodes num) {h data : RStr}
    {h' d : CStr} (subkey : stringValueCStr h = .ok h') (value : stringValueCStr data = .ok d)
    (clear : nodes.HashClear h') :
    ∃ n' nodes' num', n.rbHashmapStore id h data = some (.ok (), n') ∧ Follows n₀ k n' ∧
      n'.Holds k id { o with c := .hashmap nodes' num' } ∧ nodes' ≠ [] := by
  have clean := follows.clean_map holds isMap
  have searched := clean.sorted.search_eq clear
  cases present : nodes.find? (fun node => node.key = h') with
  | none =>
      have absent : ∀ node ∈ nodes, node.key ≠ h' := by simpa using present
      rw [present] at searched
      obtain ⟨n', stored, changes, holds'⟩ :=
        follows.wf.rbHashmapStore_absent holds isMap subkey value searched
      refine ⟨n', _, _, stored, follows.change changes ?_, holds', ?_⟩
      · intro rows mirrors
        rw [holds.content, isMap] at mirrors
        exact mirrors.hmAdd clear absent d
      · intro empty
        have linked := (clean.insert clear absent d).2.length_eq
        rw [empty] at linked
        simp at linked
  | some node =>
      obtain ⟨after, held⟩ := follows.modify holds (.hashmap (setValue h' d nodes) num)
        ⟨k, some h', some d, .hmUpdate⟩ rfl (by
          intro rows mirrors
          rw [isMap] at mirrors
          exact mirrors.hmUpdate h' d)
      refine ⟨_, _, _, ?_, after, held, ?_⟩
      · simp only [rbHashmapStore, onMap, holds.obj, isMap, subkey, value, searched, present,
          Option.map_some, follows.key holds, noticeAll]
      · have member := List.mem_of_find?_eq_some present
        intro empty
        rw [setValue, List.map_eq_nil_iff] at empty
        rw [empty] at member
        exact absurd member List.not_mem_nil

theorem Follows.mapDelete (follows : Follows n₀ k n) (holds : n.Holds k id o)
    {nodes : Skiplist CStr} {num : Int} (isMap : o.c = .hashmap nodes num) {h : RStr} {h' : CStr}
    (subkey : stringValueCStr h = .ok h') (clear : nodes.HashClear h') :
    ∃ r n' nodes' num', n.rbHashmapDelete id h = some (.ok r, n') ∧ Follows n₀ k n' ∧
      n'.Holds k id { o with c := .hashmap nodes' num' } := by
  have clean := follows.clean_map holds isMap
  have searched := clean.sorted.search_eq clear
  rcases clean.sorted.delete clear with
    ⟨node, rest, present, deleted, unlinked, sorted⟩ | ⟨absent, missing⟩
  · obtain ⟨after, held⟩ := follows.modify holds (.hashmap rest (int32 (num - 1)))
      ⟨k, some node.key, none, .hmDel⟩ rfl (by
        intro rows mirrors
        rw [isMap] at mirrors
        exact mirrors.hmDel unlinked sorted)
    refine ⟨some node.value.toR, _, _, _, ?_, after, held⟩
    simp only [rbHashmapDelete, onMap, holds.obj, isMap, subkey, searched, present, deleted,
      follows.key holds, noticeAll]
  · refine ⟨none, n, nodes, num, ?_, follows, ?_⟩
    · simp only [rbHashmapDelete, onMap, holds.obj, isMap, subkey, searched, absent, missing]
    · rw [← isMap]
      exact holds

theorem Follows.setAdd (follows : Follows n₀ k n) (holds : n.Holds k id o)
    {nodes : Skiplist Unit} {num : Int} (isSet : o.c = .set nodes num) {h : RStr} {h' : CStr}
    (subkey : stringValueCStr h = .ok h') (clear : nodes.HashClear h') :
    ∃ r n' nodes' num', n.rbSetAdd id h = some (.ok r, n') ∧ Follows n₀ k n' ∧
      n'.Holds k id { o with c := .set nodes' num' } ∧ nodes' ≠ [] := by
  have clean := follows.clean_set holds isSet
  have searched := clean.sorted.search_eq clear
  cases present : nodes.find? (fun node => node.key = h') with
  | none =>
      have absent : ∀ node ∈ nodes, node.key ≠ h' := by simpa using present
      rw [present] at searched
      obtain ⟨n', added, changes, holds'⟩ :=
        follows.wf.rbSetAdd_absent holds isSet subkey searched
      refine ⟨true, n', _, _, added, follows.change changes ?_, holds', ?_⟩
      · intro rows mirrors
        rw [holds.content, isSet] at mirrors
        exact mirrors.setAdd clear absent
      · intro empty
        have linked := (clean.insert clear absent ()).2.length_eq
        rw [empty] at linked
        simp at linked
  | some node =>
      refine ⟨false, n, nodes, num, ?_, follows, ?_, ?_⟩
      · simp only [rbSetAdd, onSet, holds.obj, isSet, subkey, searched, present, Option.map_some]
      · rw [← isSet]
        exact holds
      · exact List.ne_nil_of_mem (List.mem_of_find?_eq_some present)

theorem Follows.setRemove (follows : Follows n₀ k n) (holds : n.Holds k id o)
    {nodes : Skiplist Unit} {num : Int} (isSet : o.c = .set nodes num) {h : RStr} {h' : CStr}
    (subkey : stringValueCStr h = .ok h') (clear : nodes.HashClear h') :
    ∃ r n' nodes' num', n.rbSetRemove id h = some (.ok r, n') ∧ Follows n₀ k n' ∧
      n'.Holds k id { o with c := .set nodes' num' } := by
  have clean := follows.clean_set holds isSet
  have searched := clean.sorted.search_eq clear
  rcases clean.sorted.delete clear with
    ⟨node, rest, present, deleted, unlinked, sorted⟩ | ⟨absent, missing⟩
  · obtain ⟨after, held⟩ := follows.modify holds (.set rest (int32 (num - 1)))
      ⟨k, some node.key, none, .setDel⟩ rfl (by
        intro rows mirrors
        rw [isSet] at mirrors
        exact mirrors.setDel unlinked sorted)
    refine ⟨true, _, _, _, ?_, after, held⟩
    simp only [rbSetRemove, onSet, holds.obj, isSet, subkey, searched, present, deleted,
      follows.key holds, noticeAll]
  · refine ⟨false, n, nodes, num, ?_, follows, ?_⟩
    · simp only [rbSetRemove, onSet, holds.obj, isSet, subkey, searched, absent, missing]
    · rw [← isSet]
      exact holds

end Methods

end Node

end XFireDB
