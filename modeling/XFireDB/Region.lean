import XFireDB.Commands

/-!
# Regions of a node

A region is a part of the keys and of the container objects of a node.  A call
inside a region reads and writes nothing else: on two nodes that agree on the
region it gives the same result, and it spares the rest.
-/

namespace XFireDB

open Lib

structure Region where
  keys : CStr → Prop
  ids : Nat → Prop

namespace Region

variable (R : Region)

/-- A key argument is one of the region's, or `StringValueCStr` raises on it. -/
def KeyIn (key : RStr) : Prop := ∀ k, stringValueCStr key = .ok k → R.keys k

/-- The call names keys and objects of the region only. -/
def Inside : {β : Type} → Call β → Prop
  | _, .dbRef key => R.KeyIn key
  | _, .dbStore key data => R.KeyIn key ∧ ∀ kind id, data = .obj kind id → R.ids id
  | _, .dbDelete key => R.KeyIn key
  | _, .listPush id _ => R.ids id
  | _, .listPop id _ => R.ids id
  | _, .listSet id _ _ => R.ids id
  | _, .listRef id _ => R.ids id
  | _, .listLength id => R.ids id
  | _, .mapStore id _ _ => R.ids id
  | _, .mapRef id _ => R.ids id
  | _, .mapDelete id _ => R.ids id
  | _, .mapSize id => R.ids id
  | _, .setAdd id _ => R.ids id
  | _, .setRemove id _ => R.ids id
  | _, .setInclude id _ => R.ids id
  | _, .setSize id => R.ids id
  | _, _ => True

/-- The objects a call gives are objects of the region. -/
def Gives : {β : Type} → Call β → β → Prop
  | _, .dbRef _, v => ∀ kind id, v = .obj kind id → R.ids id
  | _, .newObj _, id => R.ids id
  | _, _, _ => True

/-- Two nodes that agree on the region, the first of which has come from `n₀`
without a change outside the region. -/
structure Agree (n₀ n n' : Node) : Prop where
  db : ∀ k, R.keys k → n'.db k = n.db k
  objs : ∀ id, R.ids id → n'.objs id = n.objs id
  slots : n'.shard.slots = n.shard.slots
  held : ∀ k id, R.keys k → n.db k = some (.object id) → R.ids id
  dbOut : ∀ k, ¬ R.keys k → n.db k = n₀.db k
  objsOut : ∀ id, ¬ R.ids id → n.objs id = n₀.objs id
  slotsOut : n.shard.slots = n₀.shard.slots

/-- The next object gets the same number on both nodes. -/
structure Tied (n₀ n n' : Node) : Prop extends R.Agree n₀ n n' where
  fresh : n'.fresh = n.fresh
  later : n₀.fresh ≤ n.fresh

variable {R} {n₀ n n' : Node}

namespace Tied

theorem setDb (tied : R.Tied n₀ n n') {k : CStr} (mine : R.keys k) {e : Option Entry}
    (object : ∀ id, e = some (.object id) → R.ids id) :
    R.Tied n₀ (n.setDb k e) (n'.setDb k e) where
  db := by
    intro k' mine'
    by_cases same : k' = k
    · simp [Node.setDb, same]
    · simpa [Node.setDb, Function.update_of_ne same] using tied.db k' mine'
  objs := tied.objs
  slots := tied.slots
  fresh := tied.fresh
  held := by
    intro k' id mine' entry
    by_cases same : k' = k
    · exact object id (by simpa [Node.setDb, same] using entry)
    · exact tied.held k' id mine' (by simpa [Node.setDb, Function.update_of_ne same] using entry)
  dbOut := by
    intro k' other
    have differ : k' ≠ k := fun same => other (same ▸ mine)
    simpa [Node.setDb, Function.update_of_ne differ] using tied.dbOut k' other
  objsOut := tied.objsOut
  slotsOut := tied.slotsOut
  later := tied.later

theorem setObj (tied : R.Tied n₀ n n') {id : Nat} (mine : R.ids id) (o : Obj) :
    R.Tied n₀ (n.setObj id o) (n'.setObj id o) where
  db := tied.db
  objs := by
    intro id' mine'
    by_cases same : id' = id
    · simp [Node.setObj, same]
    · simpa [Node.setObj, Function.update_of_ne same] using tied.objs id' mine'
  slots := tied.slots
  fresh := tied.fresh
  held := tied.held
  dbOut := tied.dbOut
  objsOut := by
    intro id' other
    have differ : id' ≠ id := fun same => other (same ▸ mine)
    simpa [Node.setObj, Function.update_of_ne differ] using tied.objsOut id' other
  slotsOut := tied.slotsOut
  later := tied.later

/-- What is queued for the disk does not matter. -/
theorem noticeDisk (tied : R.Tied n₀ n n') (q : BioQ) :
    R.Tied n₀ (n.noticeDisk q) (n'.noticeDisk q) := by
  unfold Node.noticeDisk
  split <;> split <;> exact ⟨⟨tied.db, tied.objs, tied.slots, tied.held, tied.dbOut, tied.objsOut,
    tied.slotsOut⟩, tied.fresh, tied.later⟩

theorem notices (tied : R.Tied n₀ n n') (ops : List BioQ) :
    R.Tied n₀ (n.notices ops) (n'.notices ops) := by
  unfold Node.notices
  induction ops generalizing n n' with
  | nil => exact tied
  | cons q ops ih => exact ih (tied.noticeDisk q)

theorem noticeAll (tied : R.Tied n₀ n n') (key : Option CStr) (f : CStr → List BioQ) :
    R.Tied n₀ (n.noticeAll key f) (n'.noticeAll key f) := by
  cases key with
  | none => exact tied
  | some k => exact tied.notices (f k)

/-- The keys of the shard do not matter. -/
theorem shard (tied : R.Tied n₀ n n') {shard shard' : KeyShard}
    (slots : shard.slots = n.shard.slots) (slots' : shard'.slots = n'.shard.slots) :
    R.Tied n₀ { n with shard := shard } { n' with shard := shard' } :=
  ⟨⟨tied.db, tied.objs, by rw [slots, slots', tied.slots], tied.held, tied.dbOut, tied.objsOut,
    by rw [slots, tied.slotsOut]⟩, tied.fresh, tied.later⟩

end Tied

/-- The same result on tied nodes. -/
def SameOut {β : Type} (R : Region) (n₀ : Node) (x x' : Outcome β) : Prop :=
  x.1 = x'.1 ∧ R.Tied n₀ x.2 x'.2

namespace Tied

/-! ## Database methods -/

theorem rawRbDbDelete (tied : R.Tied n₀ n n') (k : CStr) {entry : Entry}
    (object : ∀ id, entry = .object id → R.ids id) :
    R.Tied n₀ (n.rawRbDbDelete k entry) (n'.rawRbDbDelete k entry) := by
  cases entry with
  | string s => exact tied.noticeDisk _
  | object id =>
      have mine := object id rfl
      simp only [Node.rawRbDbDelete, tied.objs id mine]
      cases n.objs id with
      | none => exact tied
      | some o => exact (tied.noticeAll _ _).setObj mine _

theorem rbDbStoreFresh (tied : R.Tied n₀ n n') {k : CStr} (mine : R.keys k) {data : Val}
    (object : ∀ kind id, data = .obj kind id → R.ids id) :
    R.SameOut n₀ (n.rbDbStoreFresh k data) (n'.rbDbStoreFresh k data) := by
  cases data with
  | nil => exact ⟨rfl, tied⟩
  | str data =>
      simp only [Node.rbDbStoreFresh]
      cases stringValueCStr data with
      | error e => exact ⟨rfl, tied⟩
      | ok d => exact ⟨rfl, (tied.setDb mine (by simp)).noticeDisk _⟩
  | obj kind id =>
      have inRegion := object kind id rfl
      simp only [Node.rbDbStoreFresh, tied.objs id inRegion]
      cases n.objs id with
      | none => exact ⟨rfl, tied⟩
      | some o =>
          have stored : ∀ id', some (Entry.object id) = some (.object id') → R.ids id' := by
            intro id' found
            cases found
            exact inRegion
          exact ⟨rfl, ((tied.setObj inRegion ⟨some k, true, o.c⟩).setDb mine stored).noticeAll
            (some k) (Node.storeNotices o.c)⟩

theorem rbDbRef (tied : R.Tied n₀ n n') {key : RStr} (inside : R.KeyIn key) :
    R.SameOut n₀ (n.rbDbRef key) (n'.rbDbRef key) := by
  unfold Node.rbDbRef
  cases known : stringValueCStr key with
  | error e => exact ⟨rfl, tied⟩
  | ok k =>
      have mine := inside k known
      simp only [tied.db k mine]
      match entry : n.db k with
      | none => exact ⟨rfl, tied⟩
      | some (.string s) => exact ⟨rfl, tied⟩
      | some (.object id) =>
          simp only [tied.objs id (tied.held k id mine entry)]
          cases n.objs id with
          | none => exact ⟨rfl, tied⟩
          | some o => exact ⟨rfl, tied⟩

theorem rbDbDelete (tied : R.Tied n₀ n n') {key : RStr} (inside : R.KeyIn key) :
    R.SameOut n₀ (n.rbDbDelete key) (n'.rbDbDelete key) := by
  unfold Node.rbDbDelete
  cases known : stringValueCStr key with
  | error e => exact ⟨rfl, tied⟩
  | ok k =>
      have mine := inside k known
      simp only [tied.db k mine]
      cases entry : n.db k with
      | none => exact ⟨rfl, tied⟩
      | some e =>
          refine ⟨rfl, (tied.setDb mine (by simp)).rawRbDbDelete k ?_⟩
          intro id same
          obtain rfl := same
          exact tied.held k id mine entry

theorem rbDbStore (tied : R.Tied n₀ n n') {key : RStr} (inside : R.KeyIn key) {data : Val}
    (object : ∀ kind id, data = .obj kind id → R.ids id) :
    R.SameOut n₀ (n.rbDbStore key data) (n'.rbDbStore key data) := by
  unfold Node.rbDbStore
  cases known : stringValueCStr key with
  | error e => exact ⟨rfl, tied⟩
  | ok k =>
      have mine := inside k known
      simp only [tied.db k mine]
      cases found : n.db k with
      | none => exact tied.rbDbStoreFresh mine object
      | some entry =>
          have emptied := tied.setDb mine (e := none) (by simp)
          have replaced : R.SameOut n₀
            (((n.setDb k none).rawRbDbDelete k entry).rbDbStoreFresh k data)
              (((n'.setDb k none).rawRbDbDelete k entry).rbDbStoreFresh k data) := by
            refine (emptied.rawRbDbDelete k ?_).rbDbStoreFresh mine object
            intro id same
            obtain rfl := same
            exact tied.held k id mine found
          cases entry with
          | string s =>
              cases data with
              | nil => exact replaced
              | obj kind id => exact replaced
              | str d =>
                  simp only
                  cases stringValueCStr d with
                  | error e => exact ⟨rfl, emptied⟩
                  | ok d => exact ⟨rfl, (emptied.noticeDisk _).setDb mine (by simp)⟩
          | object id =>
              cases data with
              | nil => exact replaced
              | str d => exact replaced
              | obj kind id' =>
                  simp only
                  split
                  · exact emptied.rbDbStoreFresh mine object
                  · exact replaced

/-! ## Container methods -/

section Methods

variable {id : Nat}

theorem onList {β : Type} (tied : R.Tied n₀ n n') (mine : R.ids id)
    {f f' : Obj → List CStr → Outcome β} (each : ∀ o elems, R.SameOut n₀ (f o elems) (f' o elems)) :
    R.SameOut n₀ (n.onList id f) (n'.onList id f') := by
  unfold Node.onList
  rw [tied.objs id mine]
  cases n.objs id with
  | none => exact ⟨rfl, tied⟩
  | some o =>
      simp only
      split
      · exact each o _
      · exact ⟨rfl, tied⟩

theorem rbListPush (tied : R.Tied n₀ n n') (mine : R.ids id) (data : RStr) :
    R.SameOut n₀ (n.rbListPush id data) (n'.rbListPush id data) := by
  refine tied.onList mine ?_
  intro o elems
  cases stringValueCStr data with
  | error e => exact ⟨rfl, tied⟩
  | ok d => exact ⟨rfl, (tied.noticeAll _ _).setObj mine _⟩

theorem rbListPop (tied : R.Tied n₀ n n') (mine : R.ids id) (i : Int) :
    R.SameOut n₀ (n.rbListPop id i) (n'.rbListPop id i) := by
  refine tied.onList mine ?_
  intro o elems
  cases Node.num2int i with
  | error e => exact ⟨rfl, tied⟩
  | ok idx =>
      simp only
      match Node.listRef elems idx with
      | none => exact ⟨rfl, tied⟩
      | some (pos, data) => exact ⟨rfl, (tied.noticeAll _ _).setObj mine _⟩

theorem rbListSet (tied : R.Tied n₀ n n') (mine : R.ids id) (i : Int) (data : RStr) :
    R.SameOut n₀ (n.rbListSet id i data) (n'.rbListSet id i data) := by
  refine tied.onList mine ?_
  intro o elems
  cases Node.num2int i with
  | error e => exact ⟨rfl, tied⟩
  | ok idx =>
      simp only
      match Node.listRef elems idx with
      | none => exact ⟨rfl, tied⟩
      | some (pos, old) =>
          simp only
          cases stringValueCStr data with
          | error e => exact ⟨rfl, tied⟩
          | ok d => exact ⟨rfl, (tied.noticeAll _ _).setObj mine _⟩

theorem rbListRef (tied : R.Tied n₀ n n') (mine : R.ids id) (i : Int) :
    R.SameOut n₀ (n.rbListRef id i) (n'.rbListRef id i) := by
  refine tied.onList mine ?_
  intro o elems
  cases Node.num2int i with
  | error e => exact ⟨rfl, tied⟩
  | ok idx => exact ⟨rfl, tied⟩

theorem rbListLength (tied : R.Tied n₀ n n') (mine : R.ids id) :
    R.SameOut n₀ (n.rbListLength id) (n'.rbListLength id) :=
  tied.onList mine fun _ _ => ⟨rfl, tied⟩

/-- Methods that may crash. -/
abbrev SameRun {β : Type} (R : Region) (n₀ : Node) (x x' : Option (Outcome β)) : Prop :=
  Prog.SameOutcome (R.Tied n₀) x x'

theorem onMap {β : Type} (tied : R.Tied n₀ n n') (mine : R.ids id)
    {f f' : Obj → Skiplist CStr → Int → Option (Outcome β)}
    (each : ∀ o nodes num, SameRun R n₀ (f o nodes num) (f' o nodes num)) :
    SameRun R n₀ (n.onMap id f) (n'.onMap id f') := by
  unfold Node.onMap
  rw [tied.objs id mine]
  cases n.objs id with
  | none => exact ⟨rfl, tied⟩
  | some o =>
      simp only
      split
      · exact each o _ _
      · exact ⟨rfl, tied⟩

theorem onSet {β : Type} (tied : R.Tied n₀ n n') (mine : R.ids id)
    {f f' : Obj → Skiplist Unit → Int → Option (Outcome β)}
    (each : ∀ o nodes num, SameRun R n₀ (f o nodes num) (f' o nodes num)) :
    SameRun R n₀ (n.onSet id f) (n'.onSet id f') := by
  unfold Node.onSet
  rw [tied.objs id mine]
  cases n.objs id with
  | none => exact ⟨rfl, tied⟩
  | some o =>
      simp only
      split
      · exact each o _ _
      · exact ⟨rfl, tied⟩

theorem rbHashmapStore (tied : R.Tied n₀ n n') (mine : R.ids id) (key data : RStr) :
    SameRun R n₀ (n.rbHashmapStore id key data) (n'.rbHashmapStore id key data) := by
  refine tied.onMap mine ?_
  intro o nodes num
  cases stringValueCStr key with
  | error e => exact ⟨rfl, tied⟩
  | ok k =>
      cases stringValueCStr data with
      | error e => exact ⟨rfl, tied⟩
      | ok d =>
          simp only
          match nodes.search k with
          | none => trivial
          | some none => exact ⟨rfl, (tied.setObj mine _).noticeAll _ _⟩
          | some (some node) => exact ⟨rfl, (tied.setObj mine _).noticeAll _ _⟩

theorem rbHashmapRef (tied : R.Tied n₀ n n') (mine : R.ids id) (key : RStr) :
    SameRun R n₀ (n.rbHashmapRef id key) (n'.rbHashmapRef id key) := by
  refine tied.onMap mine ?_
  intro o nodes num
  cases stringValueCStr key with
  | error e => exact ⟨rfl, tied⟩
  | ok k =>
      simp only
      cases nodes.search k with
      | none => trivial
      | some found => exact ⟨rfl, tied⟩

theorem rbHashmapDelete (tied : R.Tied n₀ n n') (mine : R.ids id) (key : RStr) :
    SameRun R n₀ (n.rbHashmapDelete id key) (n'.rbHashmapDelete id key) := by
  refine tied.onMap mine ?_
  intro o nodes num
  cases stringValueCStr key with
  | error e => exact ⟨rfl, tied⟩
  | ok k =>
      simp only
      match nodes.search k, nodes.delete k with
      | some (some node), some (some rest) => exact ⟨rfl, (tied.setObj mine _).noticeAll _ _⟩
      | some none, some (some rest) => trivial
      | some none, some none => exact ⟨rfl, tied⟩
      | some (some node), some none => exact ⟨rfl, tied⟩
      | none, _ => trivial
      | some none, none => trivial
      | some (some node), none => trivial

theorem rbHashmapSize (tied : R.Tied n₀ n n') (mine : R.ids id) :
    SameRun R n₀ (n.rbHashmapSize id) (n'.rbHashmapSize id) :=
  tied.onMap mine fun _ _ _ => ⟨rfl, tied⟩

theorem rbSetAdd (tied : R.Tied n₀ n n') (mine : R.ids id) (key : RStr) :
    SameRun R n₀ (n.rbSetAdd id key) (n'.rbSetAdd id key) := by
  refine tied.onSet mine ?_
  intro o nodes num
  cases stringValueCStr key with
  | error e => exact ⟨rfl, tied⟩
  | ok k =>
      simp only
      match nodes.search k with
      | none => trivial
      | some none => exact ⟨rfl, (tied.setObj mine _).noticeAll _ _⟩
      | some (some node) => exact ⟨rfl, tied⟩

theorem rbSetRemove (tied : R.Tied n₀ n n') (mine : R.ids id) (key : RStr) :
    SameRun R n₀ (n.rbSetRemove id key) (n'.rbSetRemove id key) := by
  refine tied.onSet mine ?_
  intro o nodes num
  cases stringValueCStr key with
  | error e => exact ⟨rfl, tied⟩
  | ok k =>
      simp only
      match nodes.search k, nodes.delete k with
      | some (some node), some (some rest) => exact ⟨rfl, (tied.setObj mine _).noticeAll _ _⟩
      | some none, some (some rest) => trivial
      | some none, some none => exact ⟨rfl, tied⟩
      | some (some node), some none => exact ⟨rfl, tied⟩
      | none, _ => trivial
      | some none, none => trivial
      | some (some node), none => trivial

theorem rbSetInclude (tied : R.Tied n₀ n n') (mine : R.ids id) (key : RStr) :
    SameRun R n₀ (n.rbSetInclude id key) (n'.rbSetInclude id key) := by
  refine tied.onSet mine ?_
  intro o nodes num
  cases stringValueCStr key with
  | error e => exact ⟨rfl, tied⟩
  | ok k =>
      simp only
      cases nodes.search k with
      | none => trivial
      | some found => exact ⟨rfl, tied⟩

theorem rbSetSize (tied : R.Tied n₀ n n') (mine : R.ids id) :
    SameRun R n₀ (n.rbSetSize id) (n'.rbSetSize id) :=
  tied.onSet mine fun _ _ _ => ⟨rfl, tied⟩

end Methods

/-! ## Calls -/

theorem newObj (tied : R.Tied n₀ n n') (mine : R.ids n.fresh) (kind : Kind) :
    R.SameOut n₀ (n.newObj kind) (n'.newObj kind) := by
  refine ⟨congrArg Except.ok tied.fresh.symm, ?_⟩
  have allocated := tied.setObj mine ⟨none, false, Container.alloc kind⟩
  refine ⟨⟨tied.db, ?_, tied.slots, tied.held, tied.dbOut, allocated.objsOut, tied.slotsOut⟩,
    congrArg (· + 1) tied.fresh, tied.later.trans (Nat.le_succ _)⟩
  intro id mine'
  have same := allocated.objs id mine'
  simpa only [Node.newObj, Node.setObj, tied.fresh] using same

theorem addKey_slots {shard shard' : KeyShard} {key : RStr}
    (added : shard.addKey key = .ok shard') :
    shard'.slots = shard.slots := by
  unfold KeyShard.addKey at added
  cases included : shard.includes key with
  | error e => simp [included, Except.map] at added
  | ok b =>
      simp only [included, Except.map, Except.ok.injEq] at added
      rw [← added]
      split <;> rfl

theorem includes_congr {shard shard' : KeyShard} (slots : shard'.slots = shard.slots) (key : RStr) :
    shard'.includes key = shard.includes key := by
  unfold KeyShard.includes
  rw [slots]

/-- Calls inside the region, on tied nodes. -/
theorem call {β : Type} {c : Call β} (tied : R.Tied n₀ n n') (mine : R.ids n.fresh)
    (inside : R.Inside c) : SameRun R n₀ (Node.call n c) (Node.call n' c) := by
  cases c with
  | dbRef key => exact tied.rbDbRef inside
  | dbStore key data => exact tied.rbDbStore inside.1 inside.2
  | dbDelete key => exact tied.rbDbDelete inside
  | newObj kind => exact tied.newObj mine kind
  | listPush id data => exact tied.rbListPush inside data
  | listPop id i => exact tied.rbListPop inside i
  | listSet id i data => exact tied.rbListSet inside i data
  | listRef id i => exact tied.rbListRef inside i
  | listLength id => exact tied.rbListLength inside
  | mapStore id key data => exact tied.rbHashmapStore inside key data
  | mapRef id key => exact tied.rbHashmapRef inside key
  | mapDelete id key => exact tied.rbHashmapDelete inside key
  | mapSize id => exact tied.rbHashmapSize inside
  | setAdd id key => exact tied.rbSetAdd inside key
  | setRemove id key => exact tied.rbSetRemove inside key
  | setInclude id key => exact tied.rbSetInclude inside key
  | setSize id => exact tied.rbSetSize inside
  | shardInclude key => exact ⟨(includes_congr tied.slots key).symm, tied⟩
  | addKey key =>
      have sameIncludes := includes_congr tied.slots key
      cases added : n.shard.addKey key with
      | error e =>
          obtain added' : n'.shard.addKey key = .error e := by
            rw [KeyShard.addKey] at added ⊢
            rw [sameIncludes]
            cases included : n.shard.includes key with
            | error e' => simpa [included, Except.map] using added
            | ok b => simp [included, Except.map] at added
          simp only [Node.call, added, added']
          exact ⟨rfl, tied⟩
      | ok shard =>
          obtain ⟨shard', added'⟩ : ∃ shard', n'.shard.addKey key = .ok shard' := by
            rw [KeyShard.addKey] at added ⊢
            rw [sameIncludes]
            cases included : n.shard.includes key with
            | error e' => simp [included, Except.map] at added
            | ok b => exact ⟨_, rfl⟩
          simp only [Node.call, added, added']
          exact ⟨rfl, tied.shard (addKey_slots added) (addKey_slots added')⟩
  | delKey key => exact ⟨rfl, tied.shard rfl rfl⟩
  | forward key query => exact ⟨rfl, tied⟩

/-- What a call inside gives belongs to the region. -/
theorem call_gives {β : Type} {c : Call β} (tied : R.Tied n₀ n n') (mine : R.ids n.fresh)
    (inside : R.Inside c) {b : β} {t : Node} (handled : Node.call n c = some (.ok b, t)) :
    R.Gives c b := by
  cases c with
  | dbRef key =>
      intro kind id isObject
      subst isObject
      have outcome := congrArg Prod.fst (Option.some.inj handled)
      unfold Node.rbDbRef at outcome
      cases known : stringValueCStr key with
      | error e => simp [known] at outcome
      | ok k =>
          match entry : n.db k with
          | none => simp [known, entry] at outcome
          | some (.string s) => simp [known, entry] at outcome
          | some (.object id') =>
              have held := tied.held k id' (inside k known) entry
              cases found : n.objs id' with
              | none => simp [known, entry, found] at outcome
              | some o =>
                  simp only [known, entry, found, Except.ok.injEq, Val.obj.injEq] at outcome
                  exact outcome.2 ▸ held
  | newObj kind =>
      have outcome := congrArg Prod.fst (Option.some.inj handled)
      obtain rfl : n.fresh = b := by simpa [Node.newObj] using outcome
      exact mine
  | _ => trivial

end Tied

end Region

end XFireDB
