import XFireDB.DiskMirror

/-!
# A node and its rows

`Node.Tracks n rows`: the rows mirror what the node holds, key by key, and they
are what the queued notices make of an empty table.  `Node.Changes` is the shape
of every engine call that modifies a key: the key holds something new, notices
for that key are queued, and nothing else moves.
-/

namespace XFireDB

namespace Node

/-- What a key holds. -/
def content (n : Node) (k : CStr) : Option Stored :=
  match n.db k with
  | none => none
  | some (.string s) => some (.string s)
  | some (.object id) => (n.objs id).map fun o => .container o.c

/-- Notices reach the queue. -/
def Persists (n : Node) : Prop := n.loadState = true ∧ n.persistLevel < 3

/-- Objects in the database know their key, and object numbers are not reused. -/
structure Wf (n : Node) : Prop where
  held : ∀ k id, n.db k = some (.object id) → ∃ o, n.objs id = some o ∧ o.key = some k
  allocated : ∀ id o, n.objs id = some o → id < n.fresh

/-! ## Notices -/

@[simp] theorem notices_nil (n : Node) : n.notices [] = n := rfl

theorem notices_singleton (n : Node) (q : BioQ) : n.notices [q] = n.noticeDisk q := rfl

theorem notices_append (n : Node) (ops ops' : List BioQ) :
    n.notices (ops ++ ops') = (n.notices ops).notices ops' := List.foldl_append

/-- Notices change the queue only. -/
theorem notices_eq (n : Node) (ops : List BioQ) :
    n.notices ops = { n with queue := (n.notices ops).queue } := by
  unfold notices
  induction ops generalizing n with
  | nil => rfl
  | cons q ops ih =>
      rw [List.foldl_cons, ih]
      unfold noticeDisk
      split <;> rfl

@[simp] theorem notices_db (n : Node) (ops : List BioQ) : (n.notices ops).db = n.db := by
  rw [notices_eq]

@[simp] theorem notices_objs (n : Node) (ops : List BioQ) : (n.notices ops).objs = n.objs := by
  rw [notices_eq]

@[simp] theorem notices_fresh (n : Node) (ops : List BioQ) : (n.notices ops).fresh = n.fresh := by
  rw [notices_eq]

@[simp] theorem notices_loadState (n : Node) (ops : List BioQ) :
    (n.notices ops).loadState = n.loadState := by
  rw [notices_eq]

@[simp] theorem notices_persistLevel (n : Node) (ops : List BioQ) :
    (n.notices ops).persistLevel = n.persistLevel := by
  rw [notices_eq]

theorem notices_queue_of_persists {n : Node} (persists : n.Persists) (ops : List BioQ) :
    (n.notices ops).queue = n.queue ++ ops := by
  unfold notices
  induction ops generalizing n with
  | nil => simp
  | cons q ops ih =>
      have queued : n.noticeDisk q = { n with queue := n.queue ++ [q] } := by
        rw [noticeDisk, if_pos (show n.loadState = true ∧ n.persistLevel < 3 from persists)]
      have still : (n.noticeDisk q).Persists := by
        rw [queued]
        exact persists
      rw [List.foldl_cons, ih still, queued]
      simp

/-! ## Changing one key -/

/-- Key `k` comes to hold `v`, and `ops` are queued for it. -/
structure Changes (n n' : Node) (k : CStr) (v : Option Stored) (ops : List BioQ) : Prop where
  content : n'.content = Function.update n.content k v
  wf : n'.Wf
  queue : n'.queue = (n.notices ops).queue
  loadState : n'.loadState = n.loadState
  persistLevel : n'.persistLevel = n.persistLevel
  forKey : ∀ q ∈ ops, q.key = k

/-- The rows mirror the node, and the queued notices lead to them.  Cut off
anywhere, the notices lead to rows that mirror something. -/
structure Tracks (n : Node) (rows : Table) : Prop where
  wf : n.Wf
  mirror : ∀ k, Mirrors k (n.content k) (rowsOf k rows)
  synced : n.Persists → bioWorker [] n.queue = rows
  cuts : n.Persists → ∀ j, Mirrored (bioWorker [] (n.queue.take j))

theorem Changes.persists {n n' : Node} {k : CStr} {v : Option Stored} {ops : List BioQ}
    (changes : Changes n n' k v ops) : n'.Persists ↔ n.Persists := by
  rw [Persists, Persists, changes.loadState, changes.persistLevel]

/-- Statements for one key, cut off anywhere. -/
theorem mirrored_take {n : Node} {rows : Table} {k : CStr} {ops : List BioQ}
    (mirror : ∀ k, Mirrors k (n.content k) (rowsOf k rows)) (forKey : ∀ q ∈ ops, q.key = k)
    (through : MirrorsThrough k (rowsOf k rows) ops) (j : Nat) :
    Mirrored (bioWorker rows (ops.take j)) := by
  intro k'
  rw [rowsOf_bioWorker (fun q member => forKey q (List.mem_of_mem_take member))]
  by_cases same : k = k'
  · subst same
    rw [if_pos rfl]
    exact through j
  · rw [if_neg same]
    exact ⟨_, mirror k'⟩

/-- A change whose notices keep the key's rows in step keeps all rows in step. -/
theorem Tracks.changes {n n' : Node} {rows : Table} {k : CStr} {v : Option Stored}
    {ops : List BioQ} (tracks : n.Tracks rows) (changes : Changes n n' k v ops)
    (mirrors : Mirrors k v (bioWorker (rowsOf k rows) ops))
    (through : MirrorsThrough k (rowsOf k rows) ops) : n'.Tracks (bioWorker rows ops) where
  wf := changes.wf
  mirror := by
    intro k'
    rw [changes.content, rowsOf_bioWorker changes.forKey]
    by_cases same : k = k'
    · subst same
      rw [Function.update_self, if_pos rfl]
      exact mirrors
    · rw [Function.update_of_ne (Ne.symm same), if_neg same]
      exact tracks.mirror k'
  synced := by
    intro persists
    have before := changes.persists.mp persists
    rw [changes.queue, notices_queue_of_persists before, bioWorker, List.foldl_append]
    exact congrArg (fun rows => bioWorker rows ops) (tracks.synced before)
  cuts := by
    intro persists j
    have before := changes.persists.mp persists
    rw [changes.queue, notices_queue_of_persists before, List.take_append]
    rcases le_total j n.queue.length with early | late
    · rw [Nat.sub_eq_zero_of_le early, List.take_zero, List.append_nil]
      exact tracks.cuts before j
    · rw [List.take_of_length_le late, bioWorker_append, tracks.synced before]
      exact mirrored_take tracks.mirror changes.forKey through _

/-! ## Changes of a database entry -/

theorem content_of_db_eq {n n' : Node} {k : CStr} (db : n'.db k = n.db k)
    (objs : n'.objs = n.objs) : n'.content k = n.content k := by
  rw [content, content, db, objs]

/-- The object under a key. -/
structure Holds (n : Node) (k : CStr) (id : Nat) (o : Obj) : Prop where
  db : n.db k = some (.object id)
  obj : n.objs id = some o

theorem Holds.content {n : Node} {k : CStr} {id : Nat} {o : Obj} (holds : n.Holds k id o) :
    n.content k = some (.container o.c) := by
  rw [Node.content, holds.db]
  simp [holds.obj]

theorem Wf.holds_key {n : Node} (wf : n.Wf) {k : CStr} {id : Nat} {o : Obj}
    (holds : n.Holds k id o) :
    o.key = some k := by
  obtain ⟨o', found, key⟩ := wf.held k id holds.db
  rw [holds.obj] at found
  rw [Option.some.inj found, key]

/-- What a well-formed node holds under a key is a string or an object. -/
theorem Wf.content_cases {n : Node} (wf : n.Wf) (k : CStr) :
    (n.db k = none ∧ n.content k = none) ∨
    (∃ s, n.db k = some (.string s) ∧ n.content k = some (.string s)) ∨
    ∃ id o, n.Holds k id o := by
  cases entry : n.db k with
  | none => exact Or.inl ⟨rfl, by rw [content, entry]⟩
  | some e =>
      cases e with
      | string s => exact Or.inr (Or.inl ⟨s, rfl, by rw [content, entry]⟩)
      | object id =>
          obtain ⟨o, found, _⟩ := wf.held k id entry
          exact Or.inr (Or.inr ⟨id, o, entry, found⟩)

/-- Two keys do not share an object. -/
theorem Wf.object_ne {n : Node} (wf : n.Wf) {k k' : CStr} {id id' : Nat} {o : Obj}
    (holds : n.Holds k id o) (other : k' ≠ k) (there : n.db k' = some (.object id')) :
    id' ≠ id := by
  intro same
  subst same
  obtain ⟨o', found, key⟩ := wf.held k' id' there
  rw [holds.obj] at found
  rw [← Option.some.inj found, wf.holds_key holds] at key
  exact other (Option.some.inj key).symm

/-- Changing the data of an object changes what its key holds. -/
theorem Wf.content_setObj {n : Node} (wf : n.Wf) {k : CStr} {id : Nat} {o o' : Obj}
    (holds : n.Holds k id o) :
    (n.setObj id o').content = Function.update n.content k (some (.container o'.c)) := by
  funext k'
  by_cases same : k' = k
  · subst same
    rw [Function.update_self, content, show (n.setObj id o').db k' = n.db k' from rfl, holds.db]
    simp [setObj]
  · rw [Function.update_of_ne same, content, content,
      show (n.setObj id o').db k' = n.db k' from rfl]
    cases entry : n.db k' with
    | none => rfl
    | some e =>
        cases e with
        | string s => rfl
        | object id' =>
            have otherId := wf.object_ne holds same entry
            simp [setObj, otherId]

theorem Wf.setObj {n : Node} (wf : n.Wf) {id : Nat} {o o' : Obj} (found : n.objs id = some o)
    (sameKey : o'.key = o.key) : (n.setObj id o').Wf where
  held := by
    intro k id' entry
    obtain ⟨o₁, found₁, key⟩ := wf.held k id' entry
    by_cases same : id' = id
    · subst same
      rw [found] at found₁
      obtain rfl := Option.some.inj found₁
      exact ⟨o', by simp [Node.setObj], sameKey.trans key⟩
    · exact ⟨o₁, by simpa [Node.setObj, same] using found₁, key⟩
  allocated := by
    intro id' o₁ found₁
    by_cases same : id' = id
    · subst same
      exact wf.allocated id' o found
    · exact wf.allocated id' o₁ (by simpa [Node.setObj, same] using found₁)

theorem Wf.notices {n : Node} (wf : n.Wf) (ops : List BioQ) : (n.notices ops).Wf where
  held := by simpa using wf.held
  allocated := by simpa using wf.allocated

@[simp] theorem content_notices (n : Node) (ops : List BioQ) :
    (n.notices ops).content = n.content := by
  funext k
  exact content_of_db_eq (by simp) (by simp)

/-- Notices and object updates do not disturb each other. -/
theorem setObj_notices (n : Node) (id : Nat) (o : Obj) (ops : List BioQ) :
    (n.setObj id o).notices ops = (n.notices ops).setObj id o := by
  unfold notices
  induction ops generalizing n with
  | nil => rfl
  | cons q ops ih =>
      have commute : (n.setObj id o).noticeDisk q = (n.noticeDisk q).setObj id o := by
        unfold noticeDisk setObj
        dsimp only
        split <;> rfl
      rw [List.foldl_cons, List.foldl_cons, commute, ih]

/-- A method call on the object under a key, with its notices. -/
theorem Wf.changes_object {n : Node} (wf : n.Wf) {k : CStr} {id : Nat} {o : Obj}
    (holds : n.Holds k id o) (c : Container) {ops : List BioQ} (forKey : ∀ q ∈ ops, q.key = k) :
    Changes n ((n.setObj id { o with c := c }).notices ops) k (some (.container c)) ops where
  content := by rw [content_notices, wf.content_setObj holds]
  wf := by
    have sameKey : ({ o with c := c } : Obj).key = o.key := rfl
    exact (wf.setObj holds.obj sameKey).notices ops
  queue := by rw [setObj_notices]; rfl
  loadState := by simp [Node.setObj]
  persistLevel := by simp [Node.setObj]
  forKey := forKey

theorem holds_setObj {n : Node} {k : CStr} {id : Nat} {o : Obj} (holds : n.Holds k id o)
    (o' : Obj) (ops : List BioQ) : ((n.setObj id o').notices ops).Holds k id o' where
  db := by
    rw [notices_db]
    exact holds.db
  obj := by simp [Node.setObj]

/-! ## Deleting and storing entries -/

/-- The notices that delete what a key holds. -/
def deleteNotices (k : CStr) : Option Stored → List BioQ
  | none => []
  | some (.string _) => [⟨k, none, none, .stringDel⟩]
  | some (.container c) => clearNotices c k

theorem deleteNotices_forKey (k : CStr) (v : Option Stored) :
    ∀ q ∈ deleteNotices k v, q.key = k := by
  intro q member
  cases v with
  | none => simp [deleteNotices] at member
  | some stored =>
      cases stored with
      | string s => simp_all [deleteNotices]
      | container c =>
          cases c <;> (obtain ⟨_, _, rfl⟩ := List.mem_map.mp member; rfl)

theorem mirrors_deleteNotices {k : CStr} {v : Option Stored} {rows : Table}
    (mirrors : Mirrors k v rows) : Mirrors k none (bioWorker rows (deleteNotices k v)) := by
  cases v with
  | none => exact mirrors
  | some stored =>
      cases stored with
      | string s => exact mirrors.stringDel
      | container c => exact mirrors.clear

theorem through_deleteNotices {k : CStr} {v : Option Stored} {rows : Table}
    (mirrors : Mirrors k v rows) : MirrorsThrough k rows (deleteNotices k v) := by
  cases v with
  | none => exact mirrors.through_nil
  | some stored =>
      cases stored with
      | string s => exact mirrors.through_one mirrors.stringDel
      | container c => exact mirrors.through_clear

theorem content_setDb (n : Node) (k : CStr) (e : Option Entry) :
    (n.setDb k e).content = Function.update n.content k ((n.setDb k e).content k) := by
  funext k'
  by_cases same : k' = k
  · subst same
    rw [Function.update_self]
  · rw [Function.update_of_ne same]
    exact content_of_db_eq (by simp [setDb, same]) rfl

theorem content_setDb_none (n : Node) (k : CStr) :
    (n.setDb k none).content = Function.update n.content k none := by
  rw [content_setDb]
  congr 1
  simp [content, setDb]

theorem content_setDb_string (n : Node) (k s : CStr) :
    (n.setDb k (some (.string s))).content = Function.update n.content k (some (.string s)) := by
  rw [content_setDb]
  congr 1
  simp [content, setDb]

theorem Wf.setDb {n : Node} (wf : n.Wf) {k : CStr} {e : Option Entry}
    (here : ∀ id, e = some (.object id) → ∃ o, n.objs id = some o ∧ o.key = some k) :
    (n.setDb k e).Wf where
  held := by
    intro k' id entry
    by_cases same : k' = k
    · subst same
      exact here id (by simpa [Node.setDb] using entry)
    · exact wf.held k' id (by simpa [Node.setDb, same] using entry)
  allocated := wf.allocated

theorem setDb_notices (n : Node) (k : CStr) (e : Option Entry) (ops : List BioQ) :
    (n.setDb k e).notices ops = (n.notices ops).setDb k e := by
  unfold notices
  induction ops generalizing n with
  | nil => rfl
  | cons q ops ih =>
      have commute : (n.setDb k e).noticeDisk q = (n.noticeDisk q).setDb k e := by
        unfold noticeDisk setDb
        dsimp only
        split <;> rfl
      rw [List.foldl_cons, List.foldl_cons, commute, ih]

/-- Taking an entry out of the database and destroying it. -/
theorem Wf.changes_delete {n : Node} (wf : n.Wf) {k : CStr} {entry : Entry}
    (found : n.db k = some entry) :
    Changes n ((n.setDb k none).rawRbDbDelete k entry) k none (deleteNotices k (n.content k)) := by
  have emptied : (n.setDb k none).Wf := wf.setDb (by simp)
  rcases wf.content_cases k with ⟨missing, _⟩ | ⟨s, isString, content⟩ | ⟨id, o, holds⟩
  · rw [found] at missing
    cases missing
  · rw [found] at isString
    obtain rfl := Option.some.inj isString
    rw [content]
    exact {
      content := by
        show ((n.setDb k none).notices [_]).content = _
        rw [content_notices, content_setDb_none]
      wf := emptied.notices [_]
      queue := by
        show ((n.setDb k none).notices [_]).queue = _
        rw [setDb_notices]
        rfl
      loadState := notices_loadState _ [_]
      persistLevel := notices_persistLevel _ [_]
      forKey := deleteNotices_forKey k _ }
  · have entryIs := holds.db
    rw [found] at entryIs
    obtain rfl := Option.some.inj entryIs
    have key := wf.holds_key holds
    have result : (n.setDb k none).rawRbDbDelete k (.object id) =
        ((n.setDb k none).notices (clearNotices o.c k)).setObj id
          { o with intree := false, c := cleared o.c } := by
      simp only [rawRbDbDelete, Node.setDb, holds.obj, key, noticeAll]
    rw [result, holds.content]
    exact {
      content := by
        funext k'
        have atDb : (((n.setDb k none).notices (clearNotices o.c k)).setObj id
            { o with intree := false, c := cleared o.c }).db k' = (n.setDb k none).db k' := by
          simp [Node.setObj]
        by_cases same : k' = k
        · subst same
          rw [Function.update_self, Node.content, atDb]
          simp [Node.setDb]
        · rw [Function.update_of_ne same, Node.content, atDb, Node.content]
          have there : (n.setDb k none).db k' = n.db k' := by simp [Node.setDb, same]
          rw [there]
          cases entry : n.db k' with
          | none => rfl
          | some e =>
              cases e with
              | string s => rfl
              | object id' =>
                  have otherId := wf.object_ne holds same entry
                  simp [Node.setObj, otherId, Node.setDb]
      wf := by
        have sameKey : ({ o with intree := false, c := cleared o.c } : Obj).key = o.key := rfl
        exact (emptied.notices _).setObj (by simpa [Node.setDb] using holds.obj) sameKey
      queue := by
        show ((n.setDb k none).notices (clearNotices o.c k)).queue = _
        rw [setDb_notices]
        rfl
      loadState := notices_loadState _ _
      persistLevel := notices_persistLevel _ _
      forKey := deleteNotices_forKey k (some (.container o.c)) }

/-- What notices add to a queue depends on the queue and the configuration. -/
theorem notices_queue_congr {n n' : Node} (queue : n'.queue = n.queue)
    (loadState : n'.loadState = n.loadState) (persistLevel : n'.persistLevel = n.persistLevel)
    (ops : List BioQ) : (n'.notices ops).queue = (n.notices ops).queue := by
  unfold notices
  induction ops generalizing n n' with
  | nil => exact queue
  | cons q ops ih =>
      rw [List.foldl_cons, List.foldl_cons]
      unfold noticeDisk
      rw [loadState, persistLevel]
      split
      · exact ih (by simp [queue]) rfl rfl
      · exact ih queue loadState persistLevel

/-- One change after another at the same key. -/
theorem Changes.trans {n n₁ n₂ : Node} {k : CStr} {v v' : Option Stored} {ops ops' : List BioQ}
    (first : Changes n n₁ k v ops) (second : Changes n₁ n₂ k v' ops') :
    Changes n n₂ k v' (ops ++ ops') where
  content := by rw [second.content, first.content, Function.update_idem]
  wf := second.wf
  queue := by
    rw [second.queue, notices_append]
    refine notices_queue_congr first.queue ?_ ?_ ops'
    · rw [first.loadState, notices_loadState]
    · rw [first.persistLevel, notices_persistLevel]
  loadState := second.loadState.trans first.loadState
  persistLevel := second.persistLevel.trans first.persistLevel
  forKey := by
    intro q member
    rcases List.mem_append.mp member with early | late
    · exact first.forKey q early
    · exact second.forKey q late

/-! ## Database calls -/

section Calls

variable {n : Node} {key : RStr} {k : CStr}

theorem rbDbRef_none (known : stringValueCStr key = .ok k) (missing : n.db k = none) :
    n.rbDbRef key = (.ok .nil, n) := by
  simp only [rbDbRef, known, missing]

theorem rbDbRef_string (known : stringValueCStr key = .ok k) {s : CStr}
    (found : n.db k = some (.string s)) : n.rbDbRef key = (.ok (.str s.toR), n) := by
  simp only [rbDbRef, known, found]

theorem rbDbRef_object (known : stringValueCStr key = .ok k) {id : Nat} {o : Obj}
    (holds : n.Holds k id o) : n.rbDbRef key = (.ok (.obj o.c.kind id), n) := by
  simp only [rbDbRef, known, holds.db, holds.obj]

theorem Wf.rbDbDelete (wf : n.Wf) (known : stringValueCStr key = .ok k) :
    ∃ n', n.rbDbDelete key = (.ok (), n') ∧
      Changes n n' k none (deleteNotices k (n.content k)) := by
  cases entry : n.db k with
  | none =>
      have nothing : n.content k = none := by rw [content, entry]
      refine ⟨n, by simp only [Node.rbDbDelete, known, entry], ?_⟩
      rw [nothing]
      exact ⟨by rw [← nothing, Function.update_eq_self], wf, rfl, rfl, rfl, by simp [deleteNotices]⟩
  | some e => exact ⟨_, by simp only [Node.rbDbDelete, known, entry], wf.changes_delete entry⟩

/-- Storing a string under a free key. -/
theorem Wf.changes_storeString (wf : n.Wf) (d : CStr) (q : BioQ) (forKey : q.key = k) :
    Changes n ((n.setDb k (some (.string d))).noticeDisk q) k (some (.string d)) [q] where
  content := by
    rw [← notices_singleton, content_notices, content_setDb_string]
  wf := by
    rw [← notices_singleton]
    exact (wf.setDb (by simp)).notices [q]
  queue := by
    rw [← notices_singleton, setDb_notices]
    rfl
  loadState := notices_loadState _ [q]
  persistLevel := notices_persistLevel _ [q]
  forKey := by simpa using forKey

/-- The notices of `SET`. -/
def setNotices (k d : CStr) : Option Stored → List BioQ
  | some (.string _) => [⟨k, none, some d, .stringUpdate⟩]
  | v => deleteNotices k v ++ [⟨k, none, some d, .stringAdd⟩]

theorem mirrors_setNotices {v : Option Stored} {rows : Table}
    (mirrors : Mirrors k v rows) (d : CStr) :
    Mirrors k (some (.string d)) (bioWorker rows (setNotices k d v)) := by
  have fresh : Mirrors k (some (.string d))
      (bioWorker rows (deleteNotices k v ++ [⟨k, none, some d, .stringAdd⟩])) := by
    have gone : bioWorker rows (deleteNotices k v) = [] := mirrors_deleteNotices mirrors
    rw [bioWorker, List.foldl_append]
    show Mirrors k _ (bioWorker (bioWorker rows (deleteNotices k v)) _)
    rw [gone]
    exact mirrors_stringAdd k d
  cases v with
  | none => exact fresh
  | some stored =>
      cases stored with
      | string s => exact mirrors.stringUpdate d
      | container c => exact fresh

theorem through_setNotices {v : Option Stored} {rows : Table} (mirrors : Mirrors k v rows)
    (d : CStr) : MirrorsThrough k rows (setNotices k d v) := by
  have fresh : MirrorsThrough k rows (deleteNotices k v ++ [⟨k, none, some d, .stringAdd⟩]) := by
    have gone : bioWorker rows (deleteNotices k v) = [] := mirrors_deleteNotices mirrors
    have empty : Mirrors k none [] := rfl
    apply (through_deleteNotices mirrors).append
    rw [gone]
    exact empty.through_one (mirrors_stringAdd k d)
  cases v with
  | none => exact fresh
  | some stored =>
      cases stored with
      | string s => exact mirrors.through_one (mirrors.stringUpdate d)
      | container c => exact fresh

theorem Wf.rbDbStore_string (wf : n.Wf) (known : stringValueCStr key = .ok k)
    {data : RStr} {d : CStr} (value : stringValueCStr data = .ok d) :
    ∃ n', n.rbDbStore key (.str data) = (.ok (), n') ∧
      Changes n n' k (some (.string d)) (setNotices k d (n.content k)) := by
  rcases wf.content_cases k with ⟨missing, nothing⟩ | ⟨s, found, content⟩ | ⟨id, o, holds⟩
  · refine ⟨_, by simp only [Node.rbDbStore, known, missing, rbDbStoreFresh, value]; rfl, ?_⟩
    rw [nothing]
    exact wf.changes_storeString d _ rfl
  · refine ⟨_, by simp only [Node.rbDbStore, known, found, value]; rfl, ?_⟩
    rw [content, ← notices_singleton, ← setDb_notices]
    have twice : (n.setDb k none).setDb k (some (.string d)) = n.setDb k (some (.string d)) := by
      simp [Node.setDb]
    rw [twice, notices_singleton]
    exact wf.changes_storeString d _ rfl
  · refine ⟨_, by simp only [Node.rbDbStore, known, holds.db, rbDbStoreFresh, value]; rfl, ?_⟩
    have first := wf.changes_delete holds.db
    rw [holds.content] at first ⊢
    exact first.trans (first.wf.changes_storeString d _ rfl)

/-- `StringValueCStr` raises on the new string.  The key is gone afterwards; only
a key that held a string loses it without a notice. -/
theorem Wf.rbDbStore_raise (wf : n.Wf) (known : stringValueCStr key = .ok k)
    {data : RStr} {e : Raise}
    (nul : stringValueCStr data = .error e) (notString : ∀ s, n.db k ≠ some (.string s)) :
    ∃ n', n.rbDbStore key (.str data) = (.error e, n') ∧
      Changes n n' k none (deleteNotices k (n.content k)) := by
  rcases wf.content_cases k with ⟨missing, nothing⟩ | ⟨s, found, content⟩ | ⟨id, o, holds⟩
  · refine ⟨n, by simp only [Node.rbDbStore, known, missing, rbDbStoreFresh, nul], ?_⟩
    rw [nothing]
    exact ⟨by rw [← nothing, Function.update_eq_self], wf, rfl, rfl, rfl, by simp [deleteNotices]⟩
  · exact absurd found (notString s)
  · exact ⟨_, by simp only [Node.rbDbStore, known, holds.db, rbDbStoreFresh, nul],
      wf.changes_delete holds.db⟩

/-- A container object that is in no database yet. -/
def Unplaced (n : Node) (kind : Kind) (id : Nat) : Prop :=
  n.objs id = some ⟨none, false, Container.alloc kind⟩

theorem Wf.newObj (wf : n.Wf) (kind : Kind) :
    ∃ n', n.newObj kind = (.ok n.fresh, n') ∧ n'.Wf ∧ n'.Unplaced kind n.fresh ∧
      n'.content = n.content ∧ n'.queue = n.queue ∧ n'.loadState = n.loadState ∧
      n'.persistLevel = n.persistLevel := by
  refine ⟨_, rfl, ⟨?_, ?_⟩, by simp [Unplaced], ?_, rfl, rfl, rfl⟩
  · intro k id entry
    obtain ⟨o, found, key⟩ := wf.held k id entry
    have old : id ≠ n.fresh := ne_of_lt (wf.allocated id o found)
    exact ⟨o, by simpa [old] using found, key⟩
  · intro id o found
    by_cases new : id = n.fresh
    · rw [new]
      exact Nat.lt_succ_self _
    · exact Nat.lt_succ_of_lt (wf.allocated id o (by simpa [new] using found))
  · funext k
    rw [content, content]
    cases entry : n.db k with
    | none => rfl
    | some e =>
        cases e with
        | string s => rfl
        | object id =>
            obtain ⟨o, found, key⟩ := wf.held k id entry
            have old : id ≠ n.fresh := ne_of_lt (wf.allocated id o found)
            simp [old]

/-- An object that no key holds yet is stored under a free key. -/
theorem Wf.changes_storeNew (wf : n.Wf) {kind : Kind} {id : Nat} (unplaced : n.Unplaced kind id)
    (k : CStr) :
    Changes n (((n.setObj id ⟨some k, true, Container.alloc kind⟩).setDb k
      (some (.object id))).notices (storeNotices (Container.alloc kind) k)) k
      (some (.container (Container.alloc kind))) [] := by
  have silent : storeNotices (Container.alloc kind) k = [] := by
    cases kind <;> rfl
  have elsewhere : ∀ k' id', n.db k' = some (.object id') → id' ≠ id := by
    intro k' id' entry same
    obtain ⟨o, found, key⟩ := wf.held k' id' entry
    rw [same, unplaced] at found
    rw [← Option.some.inj found] at key
    cases key
  rw [silent, notices_nil]
  exact {
    content := by
      funext k'
      by_cases same : k' = k
      · subst same
        rw [Function.update_self]
        simp [Node.content, Node.setDb, Node.setObj]
      · rw [Function.update_of_ne same, Node.content, Node.content]
        have there : ((n.setObj id ⟨some k, true, Container.alloc kind⟩).setDb k
            (some (.object id))).db k' = n.db k' := by
          simp [Node.setDb, Node.setObj, same]
        rw [there]
        cases entry : n.db k' with
        | none => rfl
        | some e =>
            cases e with
            | string s => rfl
            | object id' => simp [Node.setDb, Node.setObj, elsewhere k' id' entry]
    wf := {
      held := by
        intro k' id' entry
        by_cases same : k' = k
        · subst same
          have idEq : id = id' := by simpa [Node.setDb, Node.setObj] using entry
          subst idEq
          exact ⟨_, by simp [Node.setDb, Node.setObj]; rfl, rfl⟩
        · have entry' : n.db k' = some (.object id') := by
            simpa [Node.setDb, Node.setObj, same] using entry
          obtain ⟨o, found, key⟩ := wf.held k' id' entry'
          refine ⟨o, ?_, key⟩
          simpa [Node.setDb, Node.setObj, elsewhere k' id' entry'] using found
      allocated := by
        intro id' o found
        by_cases same : id' = id
        · subst same
          exact wf.allocated id' _ unplaced
        · exact wf.allocated id' o (by simpa [Node.setDb, Node.setObj, same] using found) }
    queue := rfl
    loadState := rfl
    persistLevel := rfl
    forKey := by simp }

theorem Unplaced.not_held (wf : n.Wf) {kind : Kind} {id : Nat} (unplaced : n.Unplaced kind id)
    {o : Obj} (holds : n.Holds k id o) : False := by
  have found := holds.obj
  rw [unplaced] at found
  have key := wf.holds_key holds
  rw [← Option.some.inj found] at key
  cases key

/-- `db[key] = Class.new`. -/
theorem Wf.rbDbStore_new (wf : n.Wf) (known : stringValueCStr key = .ok k) {kind : Kind} {id : Nat}
    (unplaced : n.Unplaced kind id) :
    ∃ n', n.rbDbStore key (.obj kind id) = (.ok (), n') ∧
      Changes n n' k (some (.container (Container.alloc kind))) (deleteNotices k (n.content k)) ∧
      n'.Holds k id ⟨some k, true, Container.alloc kind⟩ := by
  have stored : ∀ m : Node, m.Wf → m.Unplaced kind id →
      ∃ m', m.rbDbStoreFresh k (.obj kind id) = (.ok (), m') ∧
        Changes m m' k (some (.container (Container.alloc kind))) [] ∧
        m'.Holds k id ⟨some k, true, Container.alloc kind⟩ := by
    intro m wfm free
    refine ⟨_, ?_, wfm.changes_storeNew free k, ?_⟩
    · unfold Unplaced at free
      simp only [rbDbStoreFresh, free, noticeAll]
    · exact ⟨by simp [Node.setDb], by simp [Node.setDb, Node.setObj]⟩
  cases entry : n.db k with
  | none =>
      obtain ⟨n', ran, changes, holds⟩ := stored n wf unplaced
      have nothing : n.content k = none := by rw [content, entry]
      refine ⟨n', by simpa only [Node.rbDbStore, known, entry] using ran, ?_, holds⟩
      rw [nothing]
      exact changes
  | some e =>
      have first := wf.changes_delete entry
      have free : ((n.setDb k none).rawRbDbDelete k e).Unplaced kind id := by
        cases e with
        | string s =>
            show ((n.setDb k none).notices [_]).objs id = _
            rw [notices_objs]
            exact unplaced
        | object id' =>
            obtain ⟨o, found, key⟩ := wf.held k id' entry
            have other : id ≠ id' := by
              intro same
              subst same
              exact unplaced.not_held wf ⟨entry, found⟩
            simp only [rawRbDbDelete, Node.setDb, found, Unplaced, Node.setObj,
              Function.update_of_ne other, key, noticeAll, notices_objs]
            exact unplaced
      obtain ⟨n', ran, second, holds⟩ := stored _ first.wf free
      refine ⟨n', ?_, ?_, holds⟩
      · cases e with
        | string s => simpa only [Node.rbDbStore, known, entry] using ran
        | object id' =>
            obtain ⟨o, found, key⟩ := wf.held k id' entry
            have other : ¬ id' = id := by
              intro same
              subst same
              exact unplaced.not_held wf ⟨entry, found⟩
            simpa only [Node.rbDbStore, known, entry, if_neg other] using ran
      · simpa using first.trans second

end Calls

end Node

end XFireDB
