import XFireDB.Persistence
import XFireDB.FootprintRuns
import XFireDB.ClusterBus

/-!
# Commands that rebuild a key

SET on a local key, and LPUSH, MADD and SADD one element after another: what the
key holds after each of them.  A run of these on a node alone is a run on a node
of a cluster, since no forward ends well on a node alone.
-/

namespace XFireDB

open Lib Command

/-! ## Runs on a node -/

theorem Node.call_slots {β : Type} {c : Call β} {n t : Node} {r : Except Raise β}
    (handled : Node.call n c = some (r, t)) : t.shard.slots = n.shard.slots := by
  have tied : Region.whole.Tied n n n :=
    ⟨⟨fun _ _ => rfl, fun _ _ => rfl, rfl, fun _ _ _ _ => trivial, fun _ _ => rfl, fun _ _ => rfl,
      rfl⟩, rfl, le_rfl⟩
  have inside : Region.whole.Inside c := by
    cases c with
    | dbRef key => exact fun _ _ => trivial
    | dbStore key data => exact ⟨fun _ _ => trivial, fun _ _ _ => trivial⟩
    | dbDelete key => exact fun _ _ => trivial
    | _ => trivial
  have after := tied.call trivial inside
  rw [handled] at after
  exact after.2.slotsOut

/-- A node keeps its slots through a command. -/
theorem run_slots {α : Type} {p : Script α} {n t : Node} {r : Except Raise α}
    (ran : p.run Node.call n = some (r, t)) : t.shard.slots = n.shard.slots := by
  induction p generalizing n with
  | ret a =>
      cases ran
      rfl
  | raise e =>
      cases ran
      rfl
  | call c k ih =>
      rw [Prog.run] at ran
      split at ran
      · cases ran
      · rename_i b mid handled
        exact (ih b ran).trans (Node.call_slots handled)
      · rename_i e mid handled
        cases ran
        exact Node.call_slots handled

/-- What ends well on a node alone ends so on that node of a cluster. -/
theorem Cluster.run_of_node {ι : Type} [DecidableEq ι] {α : Type} {p : Script α} (fwd : Forwarder ι)
    (e : ι) {c : Cluster ι} {a : α} {t : Node}
    (ran : p.run Node.call (c.node e) = some (.ok a, t)) :
    p.run (Cluster.call fwd e) c = some (.ok a, { c with node := Function.update c.node e t }) := by
  induction p generalizing c with
  | ret b =>
      cases ran
      rw [Prog.run, Function.update_eq_self]
  | raise e => cases ran
  | call call k ih =>
      rw [Prog.run] at ran
      split at ran
      · cases ran
      · rename_i b mid handled
        have here : Cluster.call fwd e c call =
            some (.ok b, { c with node := Function.update c.node e mid }) := by
          cases call with
          | forward key query => cases handled
          | _ =>
              exact congrArg (Option.map fun out =>
                (out.1, { c with node := Function.update c.node e out.2 })) handled
        have rest := @ih b { c with node := Function.update c.node e mid } (by simpa using ran)
        simp only [Function.update_idem] at rest
        simp only [Prog.run, here, rest]
      · cases ran

/-! ## A container in parts -/

def Container.size : Container → Nat
  | .list elems => elems.length
  | .hashmap nodes _ => nodes.length
  | .set nodes _ => nodes.length

/-- The container that the first elements alone make. -/
def Container.take (c : Container) (count : Nat) : Container :=
  match c with
  | .list elems => .list (elems.take count)
  | .hashmap nodes _ => .hashmap (nodes.take count) (int32 (nodes.take count).length)
  | .set nodes _ => .set (nodes.take count) (int32 (nodes.take count).length)

/-- Not empty, with an exact counter and no two hashes alike; a list is one that its length
counts. -/
def Container.Whole : Container → Prop
  | .list elems => elems ≠ [] ∧ elems.length < 2 ^ 31
  | .hashmap nodes num => nodes.Clean num ∧ nodes ≠ []
  | .set nodes num => nodes.Clean num ∧ nodes ≠ []

theorem Container.take_kind (c : Container) (count : Nat) : (c.take count).kind = c.kind := by
  cases c <;> rfl

theorem Container.take_zero (c : Container) : c.take 0 = Container.alloc c.kind := by
  cases c <;> simp [take, kind, alloc]

theorem Container.Whole.take_size {c : Container} (whole : c.Whole) : c.take c.size = c := by
  cases c with
  | list elems => rw [take, size, List.take_length]
  | hashmap nodes num => rw [take, size, List.take_length, whole.1.counted]
  | set nodes num => rw [take, size, List.take_length, whole.1.counted]

theorem Container.Whole.ne_alloc {c : Container} (whole : c.Whole) :
    c ≠ Container.alloc c.kind := by
  intro empty
  cases c with
  | list elems =>
      injection empty with nothing
      exact whole.1 nothing
  | hashmap nodes num =>
      injection empty with nothing
      exact whole.2 nothing
  | set nodes num =>
      injection empty with nothing
      exact whole.2 nothing

section Last

variable {β : Type} {nodes : Skiplist β} {pos : Nat} {node : SkiplistNode β} {num : Int}

/-- The next node of a chain goes to the end of those before it. -/
theorem Skiplist.insertWith_last {hash : CStr → Nat} {l : Skiplist β} {key : CStr}
    (smaller : ∀ m ∈ l, hash m.key < hash key) (value : β) :
    insertWith hash key value l = l ++ [⟨key, value⟩] := by
  induction l with
  | nil => rfl
  | cons m rest ih =>
      rw [insertWith, if_pos (smaller m List.mem_cons_self),
        ih fun m' member => smaller m' (List.mem_cons_of_mem m member), List.cons_append]

theorem Skiplist.Clean.before (clean : nodes.Clean num) (here : nodes[pos]? = some node) :
    ∀ m ∈ nodes.take pos, skiplistHash m.key < skiplistHash node.key := by
  intro m member
  obtain ⟨bound, isNode⟩ := List.getElem?_eq_some_iff.mp here
  obtain ⟨i, early, isM⟩ := List.mem_iff_getElem.mp member
  rw [List.length_take] at early
  rw [List.getElem_take] at isM
  have ordered := List.pairwise_iff_getElem.mp clean.sorted i pos (by omega) bound (by omega)
  rwa [isM, isNode] at ordered

theorem Skiplist.Clean.search_next (clean : nodes.Clean num) (here : nodes[pos]? = some node) :
    Skiplist.search (nodes.take pos) node.key = some none := by
  have smaller := clean.before here
  have sorted : Skiplist.Sorted (nodes.take pos) :=
    List.Pairwise.sublist (List.take_sublist pos nodes) clean.sorted
  have clear : Skiplist.HashClear (nodes.take pos) node.key := by
    refine ⟨clean.below node (List.mem_of_getElem? here), ?_⟩
    intro m member same
    exact absurd same (ne_of_lt (smaller m member))
  rw [sorted.search_eq clear, List.find?_eq_none.mpr]
  intro m member same
  have less := smaller m member
  rw [of_decide_eq_true same] at less
  exact lt_irrefl _ less

theorem Skiplist.Clean.insert_next (clean : nodes.Clean num) (here : nodes[pos]? = some node) :
    Skiplist.insert (nodes.take pos) node.key node.value = nodes.take (pos + 1) := by
  rw [Skiplist.insert, insertWith_last (clean.before here), List.take_add_one, here]
  rfl

/-- The counter counts the next node. -/
theorem counter_take_next (here : nodes[pos]? = some node) :
    int32 (nodes.take (pos + 1)).length = int32 (int32 (nodes.take pos).length + 1) := by
  have bound := (List.getElem?_eq_some_iff.mp here).1
  rw [int32_succ, List.length_take_of_le bound, List.length_take_of_le (Nat.le_of_succ_le bound)]

end Last

/-! ## Commands on a local key -/

section Run

variable {n n' : Node} {k : CStr}

theorem run_unlessLocal {key query : RStr} {here : Script Reply}
    (isLocal : n.shard.includes key = .ok true) :
    (unlessLocal key query here).run Node.call n = here.run Node.call n := by
  have asked : Node.call n (.shardInclude key) = some (.ok true, n) := by
    rw [Node.call, isLocal]
  exact Prog.run_bind_ok (Prog.run_lift_ok asked)

/-- The key is tracked, the rest of the node stays. -/
theorem run_exec_add {key : RStr} (isLocal : n.shard.includes key = .ok true) :
    ∃ shard, (exec key true).run Node.call n = some (.ok (), { n with shard }) := by
  obtain ⟨shard, added⟩ : ∃ shard, n.shard.addKey key = .ok shard := by
    rw [KeyShard.addKey, isLocal]
    exact ⟨_, rfl⟩
  refine ⟨shard, Prog.run_lift_ok ?_⟩
  rw [Node.call, added]

/-- `n'` is `n` with the container `c` under the key; an empty one need not be
there. -/
structure Node.Filled (n n' : Node) (k : CStr) (c : Container) : Prop where
  wf : n'.Wf
  slots : n'.shard.slots = n.shard.slots
  others : ∀ k', k' ≠ k → n'.content k' = n.content k'
  here : n'.content k = some (.container c) ∨
    (n'.content k = none ∧ c = Container.alloc c.kind)

/-- The node holds the container `c` in the object `id`. -/
structure Node.FilledAt (n n' : Node) (k : CStr) (c : Container) (id : Nat) : Prop
    extends n.Filled n' k c where
  holds : ∃ o, n'.Holds k id o ∧ o.c = c

theorem Node.FilledAt.of_changes {id : Nat} {c c' : Container} {ops : List BioQ}
    {t : Node} {o : Obj}
    (filled : n.FilledAt n' k c id) (changes : n'.Changes t k (some (.container c')) ops)
    (slots : t.shard.slots = n'.shard.slots) (holds : t.Holds k id o) (data : o.c = c') :
    n.FilledAt t k c' id where
  wf := changes.wf
  slots := slots.trans filled.slots
  others k' other := by
    rw [changes.content, Function.update_of_ne other]
    exact filled.others k' other
  here := by
    left
    rw [changes.content, Function.update_self]
  holds := ⟨o, holds, data⟩

theorem Node.Filled.with_shard {c : Container} (filled : n.Filled n' k c) {shard : KeyShard}
    (slots : shard.slots = n'.shard.slots) : n.Filled { n' with shard } k c where
  wf := ⟨filled.wf.held, filled.wf.allocated⟩
  slots := slots.trans filled.slots
  others := filled.others
  here := filled.here

/-- `db[key] = Class.new unless db[key].is_a? Class`. -/
theorem Node.Filled.run_ensure {c : Container} (filled : n.Filled n' k c) :
    ∃ t id, (ensure k.toR c.kind).run Node.call n' = some (.ok (), t) ∧ n.FilledAt t k c id := by
  have known := stringValueCStr_toR k
  rcases filled.wf.content_cases k with ⟨missing, nothing⟩ | ⟨s, _, isString⟩ | ⟨id, o, holds⟩
  · obtain ⟨n₁, allocated, wf₁, unplaced, content, _⟩ := filled.wf.newObj c.kind
    obtain ⟨n₂, stored, changes, holds⟩ := wf₁.rbDbStore_new known unplaced
    have isNew : c = Container.alloc c.kind := by
      rcases filled.here with there | ⟨_, isNew⟩
      · rw [nothing] at there
        cases there
      · exact isNew
    have ran : (ensure k.toR c.kind).run Node.call n' = some (.ok (), n₂) := by
      refine (Prog.run_bind_ok
        (Prog.run_lift_ok (congrArg some (rbDbRef_none known missing)))).trans ?_
      refine (Prog.run_bind_ok (Prog.run_lift_ok (congrArg some allocated))).trans ?_
      exact Prog.run_lift_ok (congrArg some stored)
    refine ⟨n₂, _, ran, ⟨changes.wf, (run_slots ran).trans filled.slots, ?_, ?_⟩, _, holds,
      isNew.symm⟩
    · intro k' other
      rw [changes.content, Function.update_of_ne other, content]
      exact filled.others k' other
    · left
      rw [changes.content, Function.update_self, ← isNew]
  · rcases filled.here with there | ⟨there, _⟩ <;> rw [isString] at there <;> cases there
  · have data : o.c = c := by
      rcases filled.here with there | ⟨there, _⟩
      · rw [holds.content] at there
        cases there
        rfl
      · rw [holds.content] at there
        cases there
    have ran : (ensure k.toR c.kind).run Node.call n' = some (.ok (), n') := by
      refine (Prog.run_bind_ok (Prog.run_lift_ok (congrArg some
        (rbDbRef_object known holds)))).trans ?_
      rw [data]
      simp only [if_true]
      rfl
    exact ⟨n', id, ran, filled, o, holds, data⟩

/-- The key's class is made sure of, `method` adds an element to the object, and the
key is tracked. -/
theorem Node.Filled.run_add {c c' : Container} (filled : n.Filled n' k c)
    (isLocal : n.shard.includes k.toR = .ok true) {query : RStr} {α : Type}
    {work : Val → Script Reply} (method : Nat → Script α) (reply : α → Reply)
    (shape : ∀ id, work (.obj c.kind id) = do
      let a ← method id
      exec k.toR true
      pure (reply a))
    (adds : ∀ t id, n.FilledAt t k c id →
      ∃ a t', (method id).run Node.call t = some (.ok a, t') ∧ n.FilledAt t' k c' id) :
    ∃ r t, (unlessLocal k.toR query (do
      ensure k.toR c.kind
      let found ← engine (.dbRef k.toR)
      work found)).run Node.call n' = some (.ok r, t) ∧ n.Filled t k c' := by
  have same : n'.shard.includes k.toR = .ok true := by
    rw [Region.Tied.includes_congr filled.slots, isLocal]
  obtain ⟨n₁, id, ensured, filled₁⟩ := filled.run_ensure
  obtain ⟨o, holds, data⟩ := filled₁.holds
  obtain ⟨a, n₂, ran, filled₂⟩ := adds n₁ id filled₁
  have same₂ : n₂.shard.includes k.toR = .ok true := by
    rw [Region.Tied.includes_congr filled₂.slots, isLocal]
  obtain ⟨shard, tracked⟩ := run_exec_add same₂
  refine ⟨reply a, { n₂ with shard }, ?_, filled₂.toFilled.with_shard (run_slots tracked)⟩
  have found : Node.call n₁ (.dbRef k.toR) = some (.ok (.obj c.kind id), n₁) := by
    rw [← data]
    exact congrArg some (rbDbRef_object (stringValueCStr_toR k) holds)
  rw [run_unlessLocal same]
  refine (Prog.run_bind_ok ensured).trans ?_
  refine (Prog.run_bind_ok (Prog.run_lift_ok found)).trans ?_
  rw [shape]
  refine (Prog.run_bind_ok ran).trans ?_
  exact (Prog.run_bind_ok tracked).trans rfl

/-- SET. -/
theorem Node.Wf.run_set (wf : n.Wf) (isLocal : n.shard.includes k.toR = .ok true) (d : CStr)
    (rest : List RStr) :
    ∃ r t, (Command.set (k.toR :: d.toR :: rest)).run Node.call n = some (.ok r, t) ∧ t.Wf ∧
      t.content = Function.update n.content k (some (.string d)) := by
  obtain ⟨n₁, stored, changes⟩ :=
    wf.rbDbStore_string (stringValueCStr_toR k) (stringValueCStr_toR d)
  have stored' : Node.call n (.dbStore k.toR (.str d.toR)) = some (.ok (), n₁) :=
    congrArg some stored
  have same : n₁.shard.includes k.toR = .ok true := by
    rw [Region.Tied.includes_congr (Node.call_slots stored'), isLocal]
  obtain ⟨shard, tracked⟩ := run_exec_add same
  refine ⟨text "-OK", { n₁ with shard }, ?_, ⟨changes.wf.held, changes.wf.allocated⟩,
    changes.content⟩
  rw [Command.set, run_unlessLocal isLocal]
  refine (Prog.run_bind_ok (Prog.run_lift_ok stored')).trans ?_
  exact (Prog.run_bind_ok tracked).trans rfl

/-- LPUSH of the next element. -/
theorem Node.Filled.run_lPush {elems : List CStr} {pos : Nat} {d : CStr}
    (filled : n.Filled n' k ((Container.list elems).take pos))
    (isLocal : n.shard.includes k.toR = .ok true) (here : elems[pos]? = some d) :
    ∃ r t, (Command.lPush [k.toR, d.toR]).run Node.call n' = some (.ok r, t) ∧
      n.Filled t k ((Container.list elems).take (pos + 1)) := by
  refine filled.run_add isLocal
    (fun id => engine (.listPush id d.toR)) (fun _ => text "-OK")
    (fun id => rfl) ?_
  intro t id filledAt
  obtain ⟨o, holds, data⟩ := filledAt.holds
  obtain ⟨t', pushed, changes, holds'⟩ :=
    filledAt.wf.rbListPush holds data (stringValueCStr_toR d)
  have pushed' : Node.call t (.listPush id d.toR) = some (.ok (), t') := congrArg some pushed
  have next : elems.take pos ++ [d] = elems.take (pos + 1) := by
    rw [List.take_add_one, here]
    rfl
  rw [next] at changes holds'
  exact ⟨(), t', Prog.run_lift_ok pushed',
    filledAt.of_changes changes (Node.call_slots pushed') holds' rfl⟩

/-- MADD of the next pair. -/
theorem Node.Filled.run_mAdd {nodes : Skiplist CStr} {num : Int} {pos : Nat}
    {node : SkiplistNode CStr} (clean : nodes.Clean num)
    (filled : n.Filled n' k ((Container.hashmap nodes num).take pos))
    (isLocal : n.shard.includes k.toR = .ok true) (here : nodes[pos]? = some node) :
    ∃ r t, (Command.mAdd [k.toR, node.key.toR, node.value.toR]).run Node.call n' =
        some (.ok r, t) ∧
      n.Filled t k ((Container.hashmap nodes num).take (pos + 1)) := by
  refine filled.run_add isLocal
    (fun id => engine (.mapStore id node.key.toR node.value.toR)) (fun _ => text "-OK")
    (fun id => rfl) ?_
  intro t id filledAt
  obtain ⟨o, holds, data⟩ := filledAt.holds
  obtain ⟨t', stored, changes, holds'⟩ :=
    filledAt.wf.rbHashmapStore_absent holds data (stringValueCStr_toR node.key)
      (stringValueCStr_toR node.value) (clean.search_next here)
  have stored' : Node.call t (.mapStore id node.key.toR node.value.toR) = some (.ok (), t') :=
    stored
  rw [clean.insert_next here, ← counter_take_next here] at changes holds'
  exact ⟨(), t', Prog.run_lift_ok stored',
    filledAt.of_changes changes (Node.call_slots stored') holds' rfl⟩

/-- SADD of the next key. -/
theorem Node.Filled.run_sAdd {nodes : Skiplist Unit} {num : Int} {pos : Nat}
    {node : SkiplistNode Unit} (clean : nodes.Clean num)
    (filled : n.Filled n' k ((Container.set nodes num).take pos))
    (isLocal : n.shard.includes k.toR = .ok true) (here : nodes[pos]? = some node) :
    ∃ r t, (Command.sAdd [k.toR, node.key.toR]).run Node.call n' = some (.ok r, t) ∧
      n.Filled t k ((Container.set nodes num).take (pos + 1)) := by
  refine filled.run_add isLocal
    (fun id => sAddLoop id 0 [node.key.toR]) (fun rv => .text (lit "%" ++ natToS rv))
    (fun id => rfl) ?_
  intro t id filledAt
  obtain ⟨o, holds, data⟩ := filledAt.holds
  obtain ⟨t', added, changes, holds'⟩ :=
    filledAt.wf.rbSetAdd_absent holds data (stringValueCStr_toR node.key)
      (clean.search_next here)
  have added' : Node.call t (.setAdd id node.key.toR) = some (.ok true, t') := added
  have slots := Node.call_slots added'
  rw [clean.insert_next here, ← counter_take_next here] at changes holds'
  refine ⟨1, t', ?_, filledAt.of_changes changes slots holds' rfl⟩
  exact (Prog.run_bind_ok (Prog.run_lift_ok added')).trans rfl

end Run

end XFireDB
