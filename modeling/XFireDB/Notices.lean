import XFireDB.WellFormed
import XFireDB.Interleaving

/-!
# What a request queues for the disk

The queue is written only: notices that stand in it already change nothing that a
call does.  A call inside a region queues notices for keys of the region, so all
notices of a request are for the request's key.
-/

namespace XFireDB

open Lib

/-- The node with earlier notices in front of its queue. -/
def Node.upon (n : Node) (journal : List BioQ) : Node := { n with queue := journal ++ n.queue }

theorem Node.clearNotices_forKey (c : Container) (k : CStr) : ∀ q ∈ clearNotices c k, q.key = k :=
  deleteNotices_forKey k (some (.container c))

theorem Node.storeNotices_forKey (c : Container) (k : CStr) :
    ∀ q ∈ storeNotices c k, q.key = k := by
  intro q member
  cases c <;> (obtain ⟨_, _, rfl⟩ := List.mem_map.mp member; rfl)

/-- `n'` is `n` with a journal in front of the queue, and what has been queued since
`n₀` is for keys of the region.  Nothing is queued while rows are being loaded. -/
structure Region.Logs (R : Region) (journal : List BioQ) (n₀ n n' : Node) : Prop where
  upon : n' = n.upon journal
  queued : ∃ ops, n.queue = n₀.queue ++ ops ∧ ∀ q ∈ ops, R.keys q.key
  held : R.Closed n
  named : ∀ id o k, R.ids id → n.objs id = some o → o.key = some k → R.keys k
  fresh : ∀ id, n.fresh ≤ id → R.ids id
  loadState : n.loadState = n₀.loadState
  persistLevel : n.persistLevel = n₀.persistLevel
  silent : n₀.loadState = false → n.queue = n₀.queue

namespace Region.Logs

variable {R : Region} {journal : List BioQ} {n₀ n n' : Node} {id : Nat}

theorem db (logs : R.Logs journal n₀ n n') : n'.db = n.db := by rw [logs.upon]; rfl

theorem objs (logs : R.Logs journal n₀ n n') : n'.objs = n.objs := by rw [logs.upon]; rfl

theorem shard (logs : R.Logs journal n₀ n n') : n'.shard = n.shard := by rw [logs.upon]; rfl

/-! ## Pieces of a call -/

theorem setDb (logs : R.Logs journal n₀ n n') (k : CStr) {e : Option Entry}
    (object : ∀ id, e = some (.object id) → R.ids id) :
    R.Logs journal n₀ (n.setDb k e) (n'.setDb k e) where
  upon := by rw [logs.upon]; rfl
  queued := logs.queued
  held := by
    intro k' id mine entry
    by_cases same : k' = k
    · exact object id (by simpa [Node.setDb, same] using entry)
    · exact logs.held k' id mine (by simpa [Node.setDb, Function.update_of_ne same] using entry)
  named := logs.named
  fresh := logs.fresh
  loadState := logs.loadState
  persistLevel := logs.persistLevel
  silent := logs.silent

theorem setObj (logs : R.Logs journal n₀ n n') (id : Nat) {o : Obj}
    (key : ∀ k, o.key = some k → R.keys k) :
    R.Logs journal n₀ (n.setObj id o) (n'.setObj id o) where
  upon := by rw [logs.upon]; rfl
  queued := logs.queued
  held := logs.held
  named := by
    intro id' o' k mine found named
    by_cases same : id' = id
    · obtain rfl : o = o' := by simpa [Node.setObj, same] using found
      exact key k named
    · exact logs.named id' o' k mine
        (by simpa [Node.setObj, Function.update_of_ne same] using found) named
  fresh := logs.fresh
  loadState := logs.loadState
  persistLevel := logs.persistLevel
  silent := logs.silent

theorem noticeDisk (logs : R.Logs journal n₀ n n') {q : BioQ} (mine : R.keys q.key) :
    R.Logs journal n₀ (n.noticeDisk q) (n'.noticeDisk q) := by
  obtain ⟨ops, queue, forKeys⟩ := logs.queued
  obtain rfl := logs.upon
  by_cases persists : n.loadState = true ∧ n.persistLevel < 3
  · rw [Node.noticeDisk, Node.noticeDisk, if_pos persists, if_pos (by exact persists)]
    refine ⟨?_, ⟨ops ++ [q], ?_, ?_⟩, logs.held, logs.named, logs.fresh, logs.loadState,
      logs.persistLevel, ?_⟩
    · rw [Node.upon, Node.upon, List.append_assoc]
    · show n.queue ++ [q] = _
      rw [queue, List.append_assoc]
    · intro q' member
      rcases List.mem_append.mp member with old | new
      · exact forKeys q' old
      · obtain rfl := List.mem_singleton.mp new
        exact mine
    · intro loading
      rw [← logs.loadState, persists.1] at loading
      cases loading
  · rw [Node.noticeDisk, Node.noticeDisk, if_neg persists, if_neg (by exact persists)]
    exact logs

theorem notices (logs : R.Logs journal n₀ n n') {ops : List BioQ} (mine : ∀ q ∈ ops, R.keys q.key) :
    R.Logs journal n₀ (n.notices ops) (n'.notices ops) := by
  unfold Node.notices
  induction ops generalizing n n' with
  | nil => exact logs
  | cons q ops ih =>
      apply ih (logs.noticeDisk (mine q List.mem_cons_self))
      intro q' later
      exact mine q' (List.mem_cons_of_mem q later)

theorem noticeAll (logs : R.Logs journal n₀ n n') {key : Option CStr} (f : CStr → List BioQ)
    (mine : ∀ k, key = some k → R.keys k) (forKey : ∀ k, ∀ q ∈ f k, q.key = k) :
    R.Logs journal n₀ (n.noticeAll key f) (n'.noticeAll key f) := by
  cases key with
  | none => exact logs
  | some k =>
      apply logs.notices
      intro q member
      rw [forKey k q member]
      exact mine k rfl

theorem setShard (logs : R.Logs journal n₀ n n') (shard : KeyShard) :
    R.Logs journal n₀ { n with shard := shard } { n' with shard := shard } where
  upon := by rw [logs.upon]; rfl
  queued := logs.queued
  held := logs.held
  named := logs.named
  fresh := logs.fresh
  loadState := logs.loadState
  persistLevel := logs.persistLevel
  silent := logs.silent

/-- New data in an object of the region, and the notices about it. -/
theorem setData (logs : R.Logs journal n₀ n n') (mine : R.ids id) {o : Obj}
    (found : n.objs id = some o) (intree : Bool) (c : Container) {f : CStr → List BioQ}
    (forKey : ∀ k, ∀ q ∈ f k, q.key = k) :
    R.Logs journal n₀ ((n.noticeAll o.key f).setObj id ⟨o.key, intree, c⟩)
      ((n'.noticeAll o.key f).setObj id ⟨o.key, intree, c⟩) :=
  (logs.noticeAll f (fun k => logs.named id o k mine found) forKey).setObj id
    fun k => logs.named id o k mine found

theorem setData_first (logs : R.Logs journal n₀ n n') (mine : R.ids id) {o : Obj}
    (found : n.objs id = some o) (c : Container) {f : CStr → List BioQ}
    (forKey : ∀ k, ∀ q ∈ f k, q.key = k) :
    R.Logs journal n₀ ((n.setObj id { o with c := c }).noticeAll o.key f)
      ((n'.setObj id { o with c := c }).noticeAll o.key f) :=
  (logs.setObj id (o := { o with c := c }) fun k => logs.named id o k mine found).noticeAll f
    (fun k => logs.named id o k mine found) forKey

/-! ## Database methods -/

/-- The same result, and nodes that differ in the journal. -/
def Out {β : Type} (R : Region) (journal : List BioQ) (n₀ : Node) (x x' : Outcome β) : Prop :=
  x.1 = x'.1 ∧ R.Logs journal n₀ x.2 x'.2

theorem rawRbDbDelete (logs : R.Logs journal n₀ n n') {k : CStr} (mine : R.keys k) {entry : Entry}
    (object : ∀ id, entry = .object id → R.ids id) :
    R.Logs journal n₀ (n.rawRbDbDelete k entry) (n'.rawRbDbDelete k entry) := by
  cases entry with
  | string s => exact logs.noticeDisk mine
  | object id =>
      simp only [Node.rawRbDbDelete, logs.objs]
      cases found : n.objs id with
      | none => exact logs
      | some o => exact logs.setData (object id rfl) found false _ (Node.clearNotices_forKey o.c)

theorem rbDbStoreFresh (logs : R.Logs journal n₀ n n') {k : CStr} (mine : R.keys k) {data : Val}
    (object : ∀ kind id, data = .obj kind id → R.ids id) :
    Out R journal n₀ (n.rbDbStoreFresh k data) (n'.rbDbStoreFresh k data) := by
  cases data with
  | nil => exact ⟨rfl, logs⟩
  | str data =>
      simp only [Node.rbDbStoreFresh]
      cases stringValueCStr data with
      | error e => exact ⟨rfl, logs⟩
      | ok d => exact ⟨rfl, (logs.setDb k (by simp)).noticeDisk mine⟩
  | obj kind id =>
      simp only [Node.rbDbStoreFresh, logs.objs]
      cases n.objs id with
      | none => exact ⟨rfl, logs⟩
      | some o =>
          have owned : ∀ k', some k = some k' → R.keys k' := by
            intro k' same
            exact Option.some.inj same ▸ mine
          have stored : ∀ id', some (Entry.object id) = some (.object id') → R.ids id' := by
            intro id' same
            cases same
            exact object kind id rfl
          have placed := (logs.setObj id (o := ⟨some k, true, o.c⟩) owned).setDb k stored
          exact ⟨rfl, placed.noticeAll (Node.storeNotices o.c) owned (Node.storeNotices_forKey o.c)⟩

theorem rbDbRef (logs : R.Logs journal n₀ n n') (key : RStr) :
    Out R journal n₀ (n.rbDbRef key) (n'.rbDbRef key) := by
  simp only [Node.rbDbRef, logs.db, logs.objs]
  split
  · exact ⟨rfl, logs⟩
  · split
    · exact ⟨rfl, logs⟩
    · exact ⟨rfl, logs⟩
    · split <;> exact ⟨rfl, logs⟩

theorem rbDbDelete (logs : R.Logs journal n₀ n n') {key : RStr} (inside : R.KeyIn key) :
    Out R journal n₀ (n.rbDbDelete key) (n'.rbDbDelete key) := by
  simp only [Node.rbDbDelete, logs.db]
  cases known : stringValueCStr key with
  | error e => exact ⟨rfl, logs⟩
  | ok k =>
      have mine := inside k known
      dsimp only
      cases entry : n.db k with
      | none => exact ⟨rfl, logs⟩
      | some e =>
          refine ⟨rfl, (logs.setDb k (by simp)).rawRbDbDelete mine ?_⟩
          intro id object
          exact logs.held k id mine (object ▸ entry)

theorem rbDbStore (logs : R.Logs journal n₀ n n') {key : RStr} (inside : R.KeyIn key) {data : Val}
    (object : ∀ kind id, data = .obj kind id → R.ids id) :
    Out R journal n₀ (n.rbDbStore key data) (n'.rbDbStore key data) := by
  simp only [Node.rbDbStore, logs.db]
  cases known : stringValueCStr key with
  | error e => exact ⟨rfl, logs⟩
  | ok k =>
      have mine := inside k known
      dsimp only
      cases found : n.db k with
      | none => exact logs.rbDbStoreFresh mine object
      | some entry =>
          have emptied := logs.setDb k (e := none) (by simp)
          have replaced : Out R journal n₀
              (((n.setDb k none).rawRbDbDelete k entry).rbDbStoreFresh k data)
              (((n'.setDb k none).rawRbDbDelete k entry).rbDbStoreFresh k data) := by
            apply (emptied.rawRbDbDelete mine ?_).rbDbStoreFresh mine object
            intro id same
            exact logs.held k id mine (same ▸ found)
          cases entry with
          | string s =>
              cases data with
              | nil => exact replaced
              | obj kind id => exact replaced
              | str d =>
                  dsimp only
                  cases stringValueCStr d with
                  | error e => exact ⟨rfl, emptied⟩
                  | ok d => exact ⟨rfl, (emptied.noticeDisk mine).setDb k (by simp)⟩
          | object id =>
              cases data with
              | nil => exact replaced
              | str d => exact replaced
              | obj kind id' =>
                  dsimp only
                  split
                  · exact emptied.rbDbStoreFresh mine object
                  · exact replaced

/-! ## Container methods -/

section Methods

variable (logs : R.Logs journal n₀ n n')
include logs

theorem onList {β : Type} {f f' : Obj → List CStr → Outcome β}
    (each : ∀ o elems, n.objs id = some o → Out R journal n₀ (f o elems) (f' o elems)) :
    Out R journal n₀ (n.onList id f) (n'.onList id f') := by
  unfold Node.onList
  rw [logs.objs]
  cases found : n.objs id with
  | none => exact ⟨rfl, logs⟩
  | some o =>
      dsimp only
      split
      · exact each o _ found
      · exact ⟨rfl, logs⟩

theorem onMap {β : Type} {f f' : Obj → Skiplist CStr → Int → Option (Outcome β)}
    (each : ∀ o nodes num, n.objs id = some o →
      Prog.SameOutcome (R.Logs journal n₀) (f o nodes num) (f' o nodes num)) :
    Prog.SameOutcome (R.Logs journal n₀) (n.onMap id f) (n'.onMap id f') := by
  unfold Node.onMap
  rw [logs.objs]
  cases found : n.objs id with
  | none => exact ⟨rfl, logs⟩
  | some o =>
      dsimp only
      split
      · exact each o _ _ found
      · exact ⟨rfl, logs⟩

theorem onSet {β : Type} {f f' : Obj → Skiplist Unit → Int → Option (Outcome β)}
    (each : ∀ o nodes num, n.objs id = some o →
      Prog.SameOutcome (R.Logs journal n₀) (f o nodes num) (f' o nodes num)) :
    Prog.SameOutcome (R.Logs journal n₀) (n.onSet id f) (n'.onSet id f') := by
  unfold Node.onSet
  rw [logs.objs]
  cases found : n.objs id with
  | none => exact ⟨rfl, logs⟩
  | some o =>
      dsimp only
      split
      · exact each o _ _ found
      · exact ⟨rfl, logs⟩

variable (mine : R.ids id)
include mine

theorem rbListPush (data : RStr) :
    Out R journal n₀ (n.rbListPush id data) (n'.rbListPush id data) := by
  apply logs.onList
  intro o elems found
  cases stringValueCStr data with
  | error e => exact ⟨rfl, logs⟩
  | ok d => exact ⟨rfl, logs.setData mine found o.intree _ (by simp)⟩

theorem rbListPop (i : Int) : Out R journal n₀ (n.rbListPop id i) (n'.rbListPop id i) := by
  apply logs.onList
  intro o elems found
  cases Node.num2int i with
  | error e => exact ⟨rfl, logs⟩
  | ok idx =>
      dsimp only
      split
      · exact ⟨rfl, logs⟩
      · exact ⟨rfl, logs.setData mine found o.intree _ (by simp)⟩

theorem rbListSet (i : Int) (data : RStr) :
    Out R journal n₀ (n.rbListSet id i data) (n'.rbListSet id i data) := by
  apply logs.onList
  intro o elems found
  cases Node.num2int i with
  | error e => exact ⟨rfl, logs⟩
  | ok idx =>
      dsimp only
      split
      · exact ⟨rfl, logs⟩
      · split
        · exact ⟨rfl, logs⟩
        · exact ⟨rfl, logs.setData mine found o.intree _ (by simp)⟩

theorem rbHashmapStore (key data : RStr) :
    Prog.SameOutcome (R.Logs journal n₀) (n.rbHashmapStore id key data)
      (n'.rbHashmapStore id key data) := by
  apply logs.onMap
  intro o nodes num found
  split
  · exact ⟨rfl, logs⟩
  · exact ⟨rfl, logs⟩
  · rename_i k d _ _
    cases nodes.search k with
    | none => trivial
    | some old =>
        cases old with
        | none => exact ⟨rfl, logs.setData_first mine found _ (by simp)⟩
        | some node => exact ⟨rfl, logs.setData_first mine found _ (by simp)⟩

theorem rbHashmapDelete (key : RStr) :
    Prog.SameOutcome (R.Logs journal n₀) (n.rbHashmapDelete id key)
      (n'.rbHashmapDelete id key) := by
  apply logs.onMap
  intro o nodes num found
  split
  · exact ⟨rfl, logs⟩
  · split
    · exact ⟨rfl, logs.setData_first mine found _ (by simp)⟩
    · exact ⟨rfl, logs⟩
    · trivial

theorem rbSetAdd (key : RStr) :
    Prog.SameOutcome (R.Logs journal n₀) (n.rbSetAdd id key) (n'.rbSetAdd id key) := by
  apply logs.onSet
  intro o nodes num found
  split
  · exact ⟨rfl, logs⟩
  · rename_i k _
    cases nodes.search k with
    | none => trivial
    | some old =>
        cases old with
        | none => exact ⟨rfl, logs.setData_first mine found _ (by simp)⟩
        | some node => exact ⟨rfl, logs⟩

theorem rbSetRemove (key : RStr) :
    Prog.SameOutcome (R.Logs journal n₀) (n.rbSetRemove id key) (n'.rbSetRemove id key) := by
  apply logs.onSet
  intro o nodes num found
  split
  · exact ⟨rfl, logs⟩
  · split
    · exact ⟨rfl, logs.setData_first mine found _ (by simp)⟩
    · exact ⟨rfl, logs⟩
    · trivial

end Methods

theorem newObj (logs : R.Logs journal n₀ n n') (kind : Kind) :
    Out R journal n₀ (n.newObj kind) (n'.newObj kind) := by
  have allocated := logs.setObj n.fresh (o := ⟨none, false, Container.alloc kind⟩) (by simp)
  have same : n'.fresh = n.fresh := by rw [logs.upon]; rfl
  refine ⟨congrArg Except.ok same.symm, ?_, allocated.queued, allocated.held, allocated.named, ?_,
    logs.loadState, logs.persistLevel, logs.silent⟩
  · rw [logs.upon]
    rfl
  · intro id above
    exact logs.fresh id (Nat.le_of_succ_le above)

/-! ## Calls and scripts -/

/-- A call inside the region. -/
theorem call (logs : R.Logs journal n₀ n n') {β : Type} {c : Call β} (inside : R.Inside c) :
    Prog.SameOutcome (R.Logs journal n₀) (Node.call n c) (Node.call n' c) := by
  cases c with
  | dbRef key => exact logs.rbDbRef key
  | dbStore key data => exact logs.rbDbStore inside.1 inside.2
  | dbDelete key => exact logs.rbDbDelete inside
  | newObj kind => exact logs.newObj kind
  | listPush id data => exact logs.rbListPush inside data
  | listPop id i => exact logs.rbListPop inside i
  | listSet id i data => exact logs.rbListSet inside i data
  | listRef id i =>
      apply logs.onList
      intro o elems _
      split <;> exact ⟨rfl, logs⟩
  | listLength id => exact logs.onList fun _ _ _ => ⟨rfl, logs⟩
  | mapStore id key data => exact logs.rbHashmapStore inside key data
  | mapRef id key =>
      apply logs.onMap
      intro o nodes num _
      split
      · exact ⟨rfl, logs⟩
      · rename_i k _
        cases nodes.search k with
        | none => trivial
        | some old => exact ⟨rfl, logs⟩
  | mapDelete id key => exact logs.rbHashmapDelete inside key
  | mapSize id => exact logs.onMap fun _ _ _ _ => ⟨rfl, logs⟩
  | setAdd id key => exact logs.rbSetAdd inside key
  | setRemove id key => exact logs.rbSetRemove inside key
  | setInclude id key =>
      apply logs.onSet
      intro o nodes num _
      split
      · exact ⟨rfl, logs⟩
      · rename_i k _
        cases nodes.search k with
        | none => trivial
        | some old => exact ⟨rfl, logs⟩
  | setSize id => exact logs.onSet fun _ _ _ _ => ⟨rfl, logs⟩
  | shardInclude key => exact ⟨by rw [logs.shard], logs⟩
  | addKey key =>
      simp only [Node.call, logs.shard]
      cases n.shard.addKey key with
      | ok shard => exact ⟨rfl, logs.setShard shard⟩
      | error e => exact ⟨rfl, logs⟩
  | delKey key =>
      simp only [Node.call, logs.shard]
      exact ⟨rfl, logs.setShard _⟩
  | forward key query => exact ⟨rfl, logs⟩

theorem call_gives (logs : R.Logs journal n₀ n n') {β : Type} {c : Call β} (inside : R.Inside c)
    {b : β} {t : Node} (handled : Node.call n c = some (.ok b, t)) : R.Gives c b := by
  have tied : R.Tied n n n :=
    ⟨⟨fun _ _ => rfl, fun _ _ => rfl, rfl, logs.held, fun _ _ => rfl, fun _ _ => rfl, rfl⟩, rfl,
      le_rfl⟩
  exact tied.call_gives (logs.fresh n.fresh le_rfl) inside handled

theorem run (logs : R.Logs journal n₀ n n') {P : RStr → RStr → Prop} {α : Type} {p : Script α}
    (stays : Stays R P p) :
    Prog.SameOutcome (R.Logs journal n₀) (p.run Node.call n) (p.run Node.call n') :=
  Prog.Within.run_same (fun _ _ _ permits logs => logs.call permits.1)
    (fun _ _ _ _ _ permits logs handled => logs.call_gives permits.1 handled) stays logs

end Region.Logs

theorem Lib.Prog.SameOutcome.none_left {ε α σ σ' : Type} {R : σ → σ' → Prop}
    {x : Option (Except ε α × σ')} (same : Prog.SameOutcome R none x) : x = none := by
  cases x with
  | none => rfl
  | some out => exact same.elim

namespace Node

variable {n t : Node}

theorem logs_whole (n : Node) (journal : List BioQ) :
    Region.whole.Logs journal n n (n.upon journal) :=
  ⟨rfl, ⟨[], by simp, by simp⟩, fun _ _ _ _ => trivial, fun _ _ _ _ _ _ => trivial,
    fun _ _ => trivial, rfl, rfl, fun _ => rfl⟩

theorem Wf.logs_part (wf : n.Wf) (P : CStr → Prop) : (n.part P).Logs [] n n n where
  upon := rfl
  queued := ⟨[], by simp, by simp⟩
  held := fun k id mine entry => Or.inl ⟨k, mine, entry⟩
  named := by
    intro id o k inPart found key
    rcases inPart with ⟨k', mine, entry⟩ | new
    · obtain ⟨o', found', key'⟩ := wf.held k' id entry
      obtain rfl := Option.some.inj (found.symm.trans found')
      obtain rfl := Option.some.inj (key.symm.trans key')
      exact mine
    · exact absurd (wf.allocated id o found) (Nat.not_lt.mpr new)
  fresh := fun _ new => Or.inr new
  loadState := rfl
  persistLevel := rfl
  silent := fun _ => rfl

/-- A request queues notices for its key only. -/
theorem Wf.serve_queue (wf : n.Wf) {r : Request} (served : n.serve r = some t) :
    ∃ ops, t.queue = n.queue ++ ops ∧ ∀ q ∈ ops, r.key = some q.key := by
  obtain ⟨⟨out, t⟩, ran, rfl⟩ := Option.map_eq_some_iff.mp served
  have same := (wf.logs_part fun k => r.key = some k).run (stays_script fun _ mine => mine)
  rw [ran] at same
  exact same.2.queued

theorem inside_whole {β : Type} (c : Call β) : Region.whole.Inside c := by
  cases c with
  | dbRef key => exact fun _ _ => trivial
  | dbStore key data => exact ⟨fun _ _ => trivial, fun _ _ _ => trivial⟩
  | dbDelete key => exact fun _ _ => trivial
  | _ => trivial

/-- What stands in the queue does not matter to a call. -/
theorem call_upon (n : Node) (journal : List BioQ) {β : Type} (c : Call β) :
    Node.call (n.upon journal) c = (Node.call n c).map fun out => (out.1, out.2.upon journal) := by
  have same := (logs_whole n journal).call (inside_whole c)
  cases handled : Node.call n c with
  | none =>
      rw [handled] at same
      rw [same.none_left]
      rfl
  | some out =>
      obtain ⟨r, t⟩ := out
      rw [handled] at same
      obtain ⟨t', handled', logs⟩ := same.of_left
      rw [handled', logs.upon]
      rfl

/-- Nor to a script. -/
theorem run_upon (n : Node) (journal : List BioQ) {α : Type} (p : Script α) :
    p.run Node.call (n.upon journal) =
      (p.run Node.call n).map fun out => (out.1, out.2.upon journal) := by
  induction p generalizing n with
  | ret a => rfl
  | raise e => rfl
  | call c k ih =>
      rw [Prog.run, Prog.run, call_upon]
      rcases Node.call n c with - | ⟨r, t⟩
      · rfl
      · cases r with
        | ok b => exact ih b t
        | error e => rfl

theorem persistOk_upon (n : Node) (journal : List BioQ) {β : Type} (c : Call β) :
    PersistOk (n.upon journal) c ↔ PersistOk n c := by
  cases c with
  | dbStore key data => cases data <;> exact Iff.rfl
  | _ => exact Iff.rfl

theorem guarded_upon (n : Node) (journal : List BioQ) {α : Type} (p : Script α) :
    p.Guarded Node.call PersistOk (n.upon journal) ↔ p.Guarded Node.call PersistOk n := by
  induction p generalizing n with
  | ret a => exact Iff.rfl
  | raise e => exact Iff.rfl
  | call c k ih =>
      rw [Prog.Guarded, Prog.Guarded, persistOk_upon, call_upon]
      apply and_congr Iff.rfl
      rcases Node.call n c with - | ⟨r, t⟩
      · simp
      · constructor
        · intro rest b s handled
          obtain ⟨rfl, rfl⟩ := Prod.mk.inj (Option.some.inj handled)
          exact (ih b t).mp (rest b (t.upon journal) rfl)
        · intro rest b s handled
          obtain ⟨rfl, rfl⟩ := Prod.mk.inj (Option.some.inj handled)
          exact (ih b t).mpr (rest b t rfl)

end Node

end XFireDB
