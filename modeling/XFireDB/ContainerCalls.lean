import XFireDB.WellFormed

/-!
# Container calls on exact containers

`Node.callWith crash` takes hashmaps and sets as exact maps and sets: a search finds
the key exactly if it is there, and the process crashes where `crash` says so.  With a
test that never says so this is the engine with exact containers.  With the test
`collides`, for hashes that walk a skiplist into its header, it is the engine itself.
-/

namespace XFireDB

open Lib

/-! ## Calls -/

namespace Node

variable (crash : List CStr → CStr → Bool)

/-- `rb_hashmap_store`. -/
def mapStoreWith (n : Node) (id : Nat) (key data : RStr) : Option (Outcome Unit) :=
  n.onMap id fun o nodes num =>
    match stringValueCStr key, stringValueCStr data with
    | .error e, _ => some (.error e, n)
    | _, .error e => some (.error e, n)
    | .ok k, .ok d =>
      if crash (nodes.map SkiplistNode.key) k then none
      else
        match nodes.find? fun node => node.key = k with
        | none =>
          some (.ok (), (n.setObj id { o with
            c := .hashmap (nodes.insert k d) (int32 (num + 1)) }).noticeAll
            o.key fun key => [⟨key, some k, some d, .hmAdd⟩])
        | some _ =>
          some (.ok (), (n.setObj id { o with c := .hashmap (setValue k d nodes) num }).noticeAll
            o.key fun key => [⟨key, some k, some d, .hmUpdate⟩])

/-- `rb_hashmap_ref`. -/
def mapRefWith (n : Node) (id : Nat) (key : RStr) : Option (Outcome (Option RStr)) :=
  n.onMap id fun _ nodes _ =>
    match stringValueCStr key with
    | .error e => some (.error e, n)
    | .ok k =>
      if crash (nodes.map SkiplistNode.key) k then none
      else some (.ok ((nodes.find? fun node => node.key = k).map (·.value.toR)), n)

/-- `rb_hashmap_delete`. -/
def mapDeleteWith (n : Node) (id : Nat) (key : RStr) : Option (Outcome (Option RStr)) :=
  n.onMap id fun o nodes num =>
    match stringValueCStr key with
    | .error e => some (.error e, n)
    | .ok k =>
      if crash (nodes.map SkiplistNode.key) k then none
      else
        match nodes.find? fun node => node.key = k with
        | none => some (.ok none, n)
        | some node =>
          some (.ok (some node.value.toR),
            (n.setObj id { o with
              c := .hashmap (nodes.filter fun node => node.key ≠ k) (int32 (num - 1)) }).noticeAll
                o.key fun key => [⟨key, some node.key, none, .hmDel⟩])

/-- `rb_set_add`. -/
def setAddWith (n : Node) (id : Nat) (key : RStr) : Option (Outcome Bool) :=
  n.onSet id fun o nodes num =>
    match stringValueCStr key with
    | .error e => some (.error e, n)
    | .ok k =>
      if crash (nodes.map SkiplistNode.key) k then none
      else
        match nodes.find? fun node => node.key = k with
        | some _ => some (.ok false, n)
        | none =>
          some (.ok true,
            (n.setObj id { o with c := .set (nodes.insert k ()) (int32 (num + 1)) }).noticeAll
            o.key fun key => [⟨key, some k, none, .setAdd⟩])

/-- `rb_set_remove_key`. -/
def setRemoveWith (n : Node) (id : Nat) (key : RStr) : Option (Outcome Bool) :=
  n.onSet id fun o nodes num =>
    match stringValueCStr key with
    | .error e => some (.error e, n)
    | .ok k =>
      if crash (nodes.map SkiplistNode.key) k then none
      else
        match nodes.find? fun node => node.key = k with
        | none => some (.ok false, n)
        | some node =>
          some (.ok true,
            (n.setObj id { o with
              c := .set (nodes.filter fun node => node.key ≠ k) (int32 (num - 1)) }).noticeAll
                o.key fun key => [⟨key, some node.key, none, .setDel⟩])

/-- `rb_set_include`. -/
def setIncludeWith (n : Node) (id : Nat) (key : RStr) : Option (Outcome Bool) :=
  n.onSet id fun _ nodes _ =>
    match stringValueCStr key with
    | .error e => some (.error e, n)
    | .ok k =>
      if crash (nodes.map SkiplistNode.key) k then none
      else some (.ok (nodes.find? fun node => node.key = k).isSome, n)

/-- `Node.call` on exact containers. -/
def callWith : Prog.Handler Call Raise Node
  | _, n, .mapStore id key data => n.mapStoreWith crash id key data
  | _, n, .mapRef id key => n.mapRefWith crash id key
  | _, n, .mapDelete id key => n.mapDeleteWith crash id key
  | _, n, .setAdd id key => n.setAddWith crash id key
  | _, n, .setRemove id key => n.setRemoveWith crash id key
  | _, n, .setInclude id key => n.setIncludeWith crash id key
  | _, n, c => Node.call n c

end Node

/-- The test that no container makes the process crash. -/
def never : List CStr → CStr → Bool := fun _ _ => false

/-- The hash of the key is that of another linked key, or the header's. -/
def collides (keys : List CStr) (k : CStr) : Bool :=
  ¬ (skiplistHash k < skiplistMaxSize ∧ ∀ key ∈ keys, skiplistHash key = skiplistHash k → key = k)

/-! ## Where the engine crashes -/

section Ordered

variable {β : Type} {nodes : Skiplist β} {k : CStr}

/-- Strictly ordered below the header. -/
structure Skiplist.Ordered (nodes : Skiplist β) : Prop where
  sorted : nodes.Sorted
  below : ∀ node ∈ nodes, skiplistHash node.key < skiplistMaxSize

theorem not_collides_iff : collides (nodes.map SkiplistNode.key) k = false ↔ nodes.HashClear k := by
  simp [collides, Skiplist.HashClear, Skiplist.HashClearWith]

theorem Skiplist.ordered_nil : Skiplist.Ordered ([] : Skiplist β) :=
  ⟨List.Pairwise.nil, by simp⟩

theorem Skiplist.Ordered.insert (ordered : nodes.Ordered) (clear : nodes.HashClear k)
    (absent : nodes.find? (fun node => node.key = k) = none) (v : β) :
    Skiplist.Ordered (nodes.insert k v) := by
  have others : ∀ node ∈ nodes, node.key ≠ k := by simpa using absent
  obtain ⟨sorted, linked⟩ := ordered.sorted.insert clear others v
  refine ⟨sorted, ?_⟩
  intro node member
  rcases List.mem_cons.mp (linked.mem_iff.mp member) with rfl | old
  · exact clear.1
  · exact ordered.below node old

theorem Skiplist.Ordered.filter (ordered : nodes.Ordered) (p : SkiplistNode β → Bool) :
    Skiplist.Ordered (nodes.filter p) :=
  ⟨List.Pairwise.filter p ordered.sorted,
    fun node member => ordered.below node (List.mem_filter.mp member).1⟩

theorem Skiplist.Ordered.setValue {nodes : Skiplist CStr} (ordered : nodes.Ordered) (key d : CStr) :
    Skiplist.Ordered (Node.setValue key d nodes) := by
  have clean : nodes.Clean (int32 nodes.length) := ⟨ordered.sorted, ordered.below, rfl⟩
  exact ⟨(clean.setValue key d).sorted, (clean.setValue key d).below⟩

/-- The walk along a chain without the key ends at the header. -/
theorem Skiplist.walkToKey_none (others : ∀ node ∈ nodes, node.key ≠ k) :
    Skiplist.walkToKey k nodes = none := by
  induction nodes with
  | nil => rfl
  | cons node rest ih =>
      rw [Skiplist.walkToKey, if_neg (others node List.mem_cons_self)]
      exact ih fun m member => others m (List.mem_cons_of_mem node member)

/-- A search crashes at a hash that is the header's or another key's. -/
theorem Skiplist.Ordered.search_none (ordered : nodes.Ordered) (unclear : ¬ nodes.HashClear k) :
    nodes.search k = none := by
  rw [Skiplist.search]
  rcases Nat.lt_or_ge (skiplistHash k) skiplistMaxSize with small | large
  · -- a node shares the hash, and all behind it have larger ones
    obtain ⟨node, member, same, other⟩ : ∃ node ∈ nodes,
        skiplistHash node.key = skiplistHash k ∧ node.key ≠ k := by
      by_contra apart
      push Not at apart
      exact unclear ⟨small, apart⟩
    obtain ⟨u, w, split⟩ := List.append_of_mem member
    have sorted : (u ++ node :: w).Pairwise fun a b => skiplistHash a.key < skiplistHash b.key := by
      rw [← split]
      exact ordered.sorted
    obtain ⟨_, later, earlier⟩ := List.pairwise_append.mp sorted
    have before : ∀ m ∈ u, skiplistHash m.key < skiplistHash k := by
      intro m inside
      rw [← same]
      exact earlier m inside node List.mem_cons_self
    have behind : ∀ m ∈ node :: w, m.key ≠ k := by
      intro m inside
      rcases List.mem_cons.mp inside with rfl | inside
      · exact other
      · have larger := (List.pairwise_cons.mp later).1 m inside
        intro same
        obtain rfl := same
        exact absurd larger (by rw [same]; exact lt_irrefl _)
    have dropped : nodes.dropWhile (fun m => skiplistHash m.key < skiplistHash k) = node :: w := by
      rw [split, List.dropWhile_append_of_pos (by simpa using before),
        List.dropWhile_cons_of_neg (by simp [same])]
    rw [Skiplist.searchWith, dropped]
    simp only [same, if_true, Skiplist.walkToKey_none behind, Option.map_none]
  · have max : skiplistMaxSize = skiplistHash k := le_antisymm large (skiplistHash_le k)
    have all : nodes.dropWhile (fun m => skiplistHash m.key < skiplistHash k) = [] := by
      rw [List.dropWhile_eq_nil_iff]
      intro m member
      rw [← max]
      exact decide_eq_true (ordered.below m member)
    rw [Skiplist.searchWith, all]
    exact if_pos max

/-- A search on an ordered chain crashes or finds what is there. -/
theorem Skiplist.Ordered.search_eq (ordered : nodes.Ordered) (k : CStr) :
    nodes.search k = if collides (nodes.map SkiplistNode.key) k then none
      else some (nodes.find? fun node => node.key = k) := by
  by_cases clear : nodes.HashClear k
  · rw [not_collides_iff.mpr clear, ordered.sorted.search_eq clear]
    rfl
  · have crashes : collides (nodes.map SkiplistNode.key) k = true := by
      rw [← Bool.not_eq_false, not_collides_iff]
      exact clear
    rw [crashes, ordered.search_none clear]
    rfl

/-- Without a collision the node of the key is unlinked, if there is one. -/
theorem Skiplist.Ordered.delete_eq (ordered : nodes.Ordered) (clear : nodes.HashClear k) :
    nodes.delete k = some (if (nodes.find? fun node => node.key = k).isSome
      then some (nodes.filter fun node => node.key ≠ k) else none) := by
  rcases ordered.sorted.delete clear with
    ⟨node, rest, found, deleted, perm, sortedRest⟩ | ⟨missing, deleted⟩
  · obtain rfl : node.key = k := by simpa using List.find?_some found
    rw [deleted, found, ordered.sorted.filter_ne_key perm sortedRest]
    rfl
  · rw [deleted, missing]
    rfl

end Ordered

def Container.Ordered : Container → Prop
  | .list _ => True
  | .hashmap nodes _ => nodes.Ordered
  | .set nodes _ => nodes.Ordered

namespace Node

variable {n t : Node} {id : Nat}

/-- All containers of the node are ordered, those that are in no database too. -/
def Ordered (n : Node) : Prop := ∀ id o, n.objs id = some o → o.c.Ordered

theorem Ordered.of_objs (ordered : n.Ordered) (same : t.objs = n.objs) : t.Ordered := by
  rw [Ordered, same]
  exact ordered

theorem Ordered.setObj (ordered : n.Ordered) {o : Obj} (here : o.c.Ordered) :
    (n.setObj id o).Ordered := by
  intro id' o' found
  rcases eq_or_ne id' id with rfl | other
  · obtain rfl : o = o' := by simpa [Node.setObj] using found
    exact here
  · exact ordered id' o' (by simpa [Node.setObj, other] using found)

theorem Ordered.noticeAll (ordered : n.Ordered) (key : Option CStr) (f : CStr → List BioQ) :
    (n.noticeAll key f).Ordered :=
  ordered.of_objs (noticeAll_objs n key f)

theorem cleared_ordered (c : Container) : (cleared c).Ordered := by
  cases c with
  | list elems => trivial
  | hashmap nodes num => exact Skiplist.ordered_nil
  | set nodes num => exact Skiplist.ordered_nil

theorem Ordered.rawRbDbDelete (ordered : n.Ordered) (k : CStr) (entry : Entry) :
    (n.rawRbDbDelete k entry).Ordered := by
  unfold Node.rawRbDbDelete
  split
  · exact ordered.of_objs (notices_objs n [_])
  · split
    · exact (ordered.noticeAll _ _).setObj (cleared_ordered _)
    · exact ordered

theorem Ordered.rbDbStoreFresh (ordered : n.Ordered) (k : CStr) (data : Val) :
    (n.rbDbStoreFresh k data).2.Ordered := by
  unfold Node.rbDbStoreFresh
  split
  · exact ordered
  · split
    · exact ordered
    · exact ordered.of_objs (notices_objs _ [_])
  · rename_i kind id
    split
    · rename_i o found
      have placed : ((n.setObj id { o with key := some k, intree := true }).setDb k
          (some (.object id))).Ordered := Ordered.setObj ordered (ordered id o found)
      exact placed.noticeAll (some k) _
    · exact ordered

theorem Ordered.rbDbStore (ordered : n.Ordered) (key : RStr) (data : Val) :
    (n.rbDbStore key data).2.Ordered := by
  unfold Node.rbDbStore
  split
  · exact ordered
  · rename_i k known
    split
    · exact ordered.rbDbStoreFresh k data
    · rename_i entry found
      have emptied : (n.setDb k none).Ordered := ordered
      dsimp only
      split
      · split
        · exact emptied
        · exact emptied.of_objs (notices_objs _ [_])
      · split
        · exact emptied.rbDbStoreFresh k _
        · exact (emptied.rawRbDbDelete k _).rbDbStoreFresh k _
      · exact (emptied.rawRbDbDelete k _).rbDbStoreFresh k _

theorem Ordered.rbDbDelete (ordered : n.Ordered) (key : RStr) : (n.rbDbDelete key).2.Ordered := by
  unfold Node.rbDbDelete
  split
  · exact ordered
  · rename_i k known
    split
    · exact ordered
    · rename_i entry found
      have emptied : (n.setDb k none).Ordered := ordered
      exact emptied.rawRbDbDelete k entry

theorem Ordered.onList {β : Type} (ordered : n.Ordered) {f : Obj → List CStr → Outcome β}
    (each : ∀ o elems, (f o elems).2.Ordered) : (n.onList id f).2.Ordered := by
  unfold Node.onList
  split
  · split
    · exact each _ _
    · exact ordered
  · exact ordered

theorem Ordered.onMap {β : Type} (ordered : n.Ordered)
    {f : Obj → Skiplist CStr → Int → Option (Outcome β)}
    (each : ∀ o nodes num x, nodes.Ordered → f o nodes num = some x → x.2.Ordered)
    {r : Except Raise β} (ran : n.onMap id f = some (r, t)) : t.Ordered := by
  unfold Node.onMap at ran
  split at ran
  · rename_i o found
    have here := ordered id o found
    split at ran
    · rename_i nodes num isMap
      rw [isMap] at here
      exact each _ _ _ _ here ran
    · cases ran
      exact ordered
  · cases ran
    exact ordered

theorem Ordered.onSet {β : Type} (ordered : n.Ordered)
    {f : Obj → Skiplist Unit → Int → Option (Outcome β)}
    (each : ∀ o nodes num x, nodes.Ordered → f o nodes num = some x → x.2.Ordered)
    {r : Except Raise β} (ran : n.onSet id f = some (r, t)) : t.Ordered := by
  unfold Node.onSet at ran
  split at ran
  · rename_i o found
    have here := ordered id o found
    split at ran
    · rename_i nodes num isSet
      rw [isSet] at here
      exact each _ _ _ _ here ran
    · cases ran
      exact ordered
  · cases ran
    exact ordered

theorem Ordered.setMap (ordered : n.Ordered) {o : Obj} {nodes : Skiplist CStr}
    (here : nodes.Ordered) (num : Int) (key : Option CStr) (f : CStr → List BioQ) :
    ((n.setObj id { o with c := .hashmap nodes num }).noticeAll key f).Ordered := by
  have data : ({ o with c := .hashmap nodes num } : Obj).c.Ordered := here
  exact (ordered.setObj data).noticeAll key f

theorem Ordered.setSet (ordered : n.Ordered) {o : Obj} {nodes : Skiplist Unit}
    (here : nodes.Ordered) (num : Int) (key : Option CStr) (f : CStr → List BioQ) :
    ((n.setObj id { o with c := .set nodes num }).noticeAll key f).Ordered := by
  have data : ({ o with c := .set nodes num } : Obj).c.Ordered := here
  exact (ordered.setObj data).noticeAll key f

theorem Ordered.setList (ordered : n.Ordered) (o : Obj) (elems : List CStr) (key : Option CStr)
    (f : CStr → List BioQ) :
    ((n.noticeAll key f).setObj id { o with c := .list elems }).Ordered :=
  (ordered.noticeAll key f).setObj trivial

/-! ## The engine is the engine on exact containers -/

theorem Ordered.onMap_congr {β : Type} (ordered : n.Ordered)
    {f g : Obj → Skiplist CStr → Int → Option (Outcome β)}
    (same : ∀ o nodes num, nodes.Ordered → f o nodes num = g o nodes num) :
    n.onMap id f = n.onMap id g := by
  unfold Node.onMap
  cases found : n.objs id with
  | none => rfl
  | some o =>
      have here := ordered id o found
      dsimp only
      cases data : o.c with
      | hashmap nodes num =>
          rw [data] at here
          exact same o nodes num here
      | _ => rfl

theorem Ordered.onSet_congr {β : Type} (ordered : n.Ordered)
    {f g : Obj → Skiplist Unit → Int → Option (Outcome β)}
    (same : ∀ o nodes num, nodes.Ordered → f o nodes num = g o nodes num) :
    n.onSet id f = n.onSet id g := by
  unfold Node.onSet
  cases found : n.objs id with
  | none => rfl
  | some o =>
      have here := ordered id o found
      dsimp only
      cases data : o.c with
      | set nodes num =>
          rw [data] at here
          exact same o nodes num here
      | _ => rfl

/-- On ordered containers the engine is the engine on exact containers with the crashes
of colliding hashes. -/
theorem Ordered.call_eq (ordered : n.Ordered) {β : Type} (c : Call β) :
    Node.call n c = Node.callWith collides n c := by
  cases c with
  | mapStore id key data =>
      refine ordered.onMap_congr ?_
      intro o nodes num here
      cases stringValueCStr key with
      | error e => rfl
      | ok k =>
          cases stringValueCStr data with
          | error e => rfl
          | ok d =>
              dsimp only
              rw [here.search_eq k]
              cases collides (nodes.map SkiplistNode.key) k with
              | true => rfl
              | false => cases nodes.find? (fun node => node.key = k) <;> rfl
  | mapRef id key =>
      refine ordered.onMap_congr ?_
      intro o nodes num here
      cases stringValueCStr key with
      | error e => rfl
      | ok k =>
          dsimp only
          rw [here.search_eq k]
          cases collides (nodes.map SkiplistNode.key) k <;> rfl
  | mapDelete id key =>
      refine ordered.onMap_congr ?_
      intro o nodes num here
      cases stringValueCStr key with
      | error e => rfl
      | ok k =>
          dsimp only
          rw [here.search_eq k]
          cases crashes : collides (nodes.map SkiplistNode.key) k with
          | true => rfl
          | false =>
              rw [here.delete_eq (not_collides_iff.mp crashes)]
              cases nodes.find? (fun node => node.key = k) <;> rfl
  | setAdd id key =>
      refine ordered.onSet_congr ?_
      intro o nodes num here
      cases stringValueCStr key with
      | error e => rfl
      | ok k =>
          dsimp only
          rw [here.search_eq k]
          cases collides (nodes.map SkiplistNode.key) k with
          | true => rfl
          | false => cases nodes.find? (fun node => node.key = k) <;> rfl
  | setRemove id key =>
      refine ordered.onSet_congr ?_
      intro o nodes num here
      cases stringValueCStr key with
      | error e => rfl
      | ok k =>
          dsimp only
          rw [here.search_eq k]
          cases crashes : collides (nodes.map SkiplistNode.key) k with
          | true => rfl
          | false =>
              rw [here.delete_eq (not_collides_iff.mp crashes)]
              cases nodes.find? (fun node => node.key = k) <;> rfl
  | setInclude id key =>
      refine ordered.onSet_congr ?_
      intro o nodes num here
      cases stringValueCStr key with
      | error e => rfl
      | ok k =>
          dsimp only
          rw [here.search_eq k]
          cases collides (nodes.map SkiplistNode.key) k <;> rfl
  | _ => rfl

theorem Ordered.of_outcome {β : Type} {x : Outcome β} (ordered : x.2.Ordered) {r : Except Raise β}
    (handled : some x = some (r, t)) : t.Ordered := by
  rw [Option.some.inj handled] at ordered
  exact ordered

/-- A call that does not crash leaves ordered containers. -/
theorem Ordered.call (ordered : n.Ordered) {β : Type} {c : Call β} {r : Except Raise β}
    (handled : Node.callWith collides n c = some (r, t)) : t.Ordered := by
  by_cases reads : c.Reads
  · rw [← ordered.call_eq] at handled
    rw [Node.call_reads reads handled]
    exact ordered
  cases c with
  | dbStore key data => exact (ordered.rbDbStore key data).of_outcome handled
  | dbDelete key => exact (ordered.rbDbDelete key).of_outcome handled
  | newObj kind =>
      have fresh : (Container.alloc kind).Ordered := by
        cases kind with
        | list => trivial
        | hashmap => exact Skiplist.ordered_nil
        | set => exact Skiplist.ordered_nil
      have after : (n.newObj kind).2.Ordered := Ordered.setObj ordered fresh
      exact after.of_outcome handled
  | listPush id data =>
      refine Ordered.of_outcome (ordered.onList ?_) handled
      intro o elems
      split
      · exact ordered
      · exact ordered.setList o _ _ _
  | listPop id i =>
      refine Ordered.of_outcome (ordered.onList ?_) handled
      intro o elems
      split
      · exact ordered
      · split
        · exact ordered
        · exact ordered.setList o _ _ _
  | listSet id i data =>
      refine Ordered.of_outcome (ordered.onList ?_) handled
      intro o elems
      split
      · exact ordered
      · split
        · exact ordered
        · split
          · exact ordered
          · exact ordered.setList o _ _ _
  | mapStore id key data =>
      refine ordered.onMap ?_ handled
      intro o nodes num x here stored
      split at stored
      · cases stored
        exact ordered
      · cases stored
        exact ordered
      · split at stored
        · cases stored
        · rename_i k d _ _ clear
          have clear := not_collides_iff.mp (Bool.eq_false_of_not_eq_true clear)
          split at stored
          · rename_i absent
            cases stored
            exact ordered.setMap (here.insert clear absent d) _ _ _
          · cases stored
            exact ordered.setMap (here.setValue k d) _ _ _
  | mapDelete id key =>
      refine ordered.onMap ?_ handled
      intro o nodes num x here deleted
      split at deleted
      · cases deleted
        exact ordered
      · split at deleted
        · cases deleted
        · split at deleted
          · cases deleted
            exact ordered
          · cases deleted
            exact ordered.setMap (here.filter _) _ _ _
  | setAdd id key =>
      refine ordered.onSet ?_ handled
      intro o nodes num x here added
      split at added
      · cases added
        exact ordered
      · split at added
        · cases added
        · rename_i k _ clear
          have clear := not_collides_iff.mp (Bool.eq_false_of_not_eq_true clear)
          split at added
          · cases added
            exact ordered
          · rename_i absent
            cases added
            exact ordered.setSet (here.insert clear absent ()) _ _ _
  | setRemove id key =>
      refine ordered.onSet ?_ handled
      intro o nodes num x here removed
      split at removed
      · cases removed
        exact ordered
      · split at removed
        · cases removed
        · split at removed
          · cases removed
            exact ordered
          · cases removed
            exact ordered.setSet (here.filter _) _ _ _
  | addKey key =>
      rw [← ordered.call_eq] at handled
      simp only [Node.call] at handled
      split at handled
      · cases handled
        exact ordered
      · cases handled
        exact ordered
  | delKey key =>
      cases handled
      exact ordered
  | _ => exact absurd trivial reads

end Node

/-- A script runs as on exact containers. -/
theorem Node.Ordered.run_eq {n : Node} (ordered : n.Ordered) {α : Type} (p : Script α) :
    p.run Node.call n = p.run (Node.callWith collides) n :=
  Prog.run_congr (fun ordered _ c => ordered.call_eq c)
    (fun ordered _ _ _ _ handled => ordered.call handled) ordered p

theorem Node.Ordered.run {n t : Node} (ordered : n.Ordered) {α : Type} {p : Script α}
    {r : Except Raise α} (ran : p.run Node.call n = some (r, t)) : t.Ordered := by
  rw [ordered.run_eq] at ran
  exact Prog.run_keeps (fun ordered _ _ _ _ handled => ordered.call handled) ordered ran

end XFireDB
