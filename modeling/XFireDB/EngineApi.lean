import XFireDB.DiskMirror

/-!
# The C interface of the engine

The functions of `libxfiredbengine/xfiredb.c` that a C program calls.  They work on one
database, whose dictionary is a map here (`dict_run_refines_map`), and queue statements
for the disk.

A read outside of an array and a crash in a skiplist walk have no result (`none`).
-/

namespace XFireDB

def xfiredbOK : Int := 0
def xfiredbErr : Int := 1

/-- `list_length`. -/
def listLength (elems : List CStr) : Int := int32 elems.length

/-- The database, the configured level, what has been queued for the disk, oldest first,
and the block of memory that holds the key of each entry: blocks are numbered by the first
entry that they were allocated for. -/
structure EngineState where
  db : CStr → Option Stored
  persistLevel : Nat
  queue : List BioQ
  keyBlocks : List Nat

namespace EngineState

def setDb (e : EngineState) (key : CStr) (v : Option Stored) : EngineState :=
  { e with db := Function.update e.db key v }

/-- `bio_queue_add`, with a key that was allocated for the entry. -/
def bioQueueAdd (e : EngineState) (q : BioQ) : EngineState :=
  if 3 ≤ e.persistLevel then e
  else { e with queue := e.queue ++ [q], keyBlocks := e.keyBlocks ++ [e.keyBlocks.length] }

/-- Several operations, one after another. -/
def bioQueueAll (e : EngineState) (ops : List BioQ) : EngineState := ops.foldl bioQueueAdd e

/-- Calls of `bio_queue_add` with one key for all of them.  At a level that persists
nothing each of them frees the key: the second one crashes. -/
def bioQueueShared (e : EngineState) (ops : List BioQ) : Option EngineState :=
  if 3 ≤ e.persistLevel then (if ops.length ≤ 1 then some e else none)
  else some { e with
    queue := e.queue ++ ops
    keyBlocks := e.keyBlocks ++ List.replicate ops.length e.keyBlocks.length }

/-- The loop of `bio_worker` over the entries and the blocks of their keys, which it frees.
It crashes at an entry whose key it has freed already. -/
def bioDrain : Table → List Nat → List (BioQ × Nat) → Option Table
  | rows, _, [] => some rows
  | rows, freed, (q, block) :: queue =>
    if block ∈ freed then none else bioDrain (bioApply rows q) (block :: freed) queue

/-- The table after `bio_worker` has emptied the queue. -/
def drained (e : EngineState) : Option Table := bioDrain [] [] (e.queue.zip e.keyBlocks)

/-! ## Strings -/

/-- `xfiredb_string_get`: the error code, and what is written to `data`, if anything. -/
def xfiredbStringGet (e : EngineState) (key : CStr) : Int × Option (Option CStr) :=
  match e.db key with
  | none => (-xfiredbErr, some none)
  | some (.container _) => (-xfiredbErr, none)
  | some (.string s) => (xfiredbOK, some (some s))

/-- `xfiredb_string_set`. -/
def xfiredbStringSet (e : EngineState) (key str : CStr) : Int × EngineState :=
  match e.db key with
  | some (.container _) => (-xfiredbErr, e)
  | some (.string _) =>
    (xfiredbOK, (e.setDb key (some (.string str))).bioQueueAdd ⟨key, none, some str, .stringUpdate⟩)
  | none =>
    (xfiredbOK, (e.setDb key (some (.string str))).bioQueueAdd ⟨key, none, some str, .stringAdd⟩)

/-! ## Lists -/

/-- `xfiredb_list_length`. -/
def xfiredbListLength (e : EngineState) (key : CStr) : Int :=
  match e.db key with
  | some (.container (.list elems)) => listLength elems
  | _ => -xfiredbErr

/-- `idx[counter]`, which is counted from the end again as long as it is negative. -/
def fromEnd (len k : Int) : Int := if k < 0 then int32 (k + len) else k

/-- The loop of `xfiredb_list_pop`: the entries before the carriage, those from it on,
its position and the indexes from `idx[counter]` on.  It gives the entries that are
left, those popped, and the indexes. -/
def listPopLoop : List CStr → List CStr → Int → List Int →
    Option (List CStr × List CStr × List Int)
  | kept, [], _, idx => some (kept, [], idx)
  | _, _ :: _, _, [] => none
  | kept, x :: rest, i, k :: idx =>
    let k := fromEnd (listLength (kept ++ x :: rest)) k
    if k = i then
      if idx = [] then some (kept ++ rest, [x], [k])
      else
        (listPopLoop kept rest (int32 (i + 1)) idx).map fun found =>
          (found.1, x :: found.2.1, k :: found.2.2)
    else listPopLoop (kept ++ [x]) rest (int32 (i + 1)) (k :: idx)

/-- The operations for entries that have been popped. -/
def popNotices (key : CStr) (popped : List CStr) : List BioQ :=
  popped.map fun data => ⟨key, some data, none, .listDel⟩

/-- `xfiredb_list_pop`: how many entries have been popped, and the indexes. -/
def xfiredbListPop (e : EngineState) (key : CStr) (idx : List Int) :
    Option (Int × List Int × EngineState) :=
  match e.db key with
  | none => some (0, idx, e)
  | some (.container (.list elems)) =>
    (listPopLoop [] elems 0 idx).map fun (left, popped, idx) =>
      (popped.length, idx,
        (e.setDb key
          (if listLength left ≤ 0 then none else some (.container (.list left)))).bioQueueAll
          (popNotices key popped))
  | some _ => some (-xfiredbErr, idx, e)

/-- The loop of `xfiredb_list_get`: the data and the indexes. -/
def listGetLoop (len : Int) : List CStr → Int → List Int → Option (List CStr × List Int)
  | [], _, idx => some ([], idx)
  | _ :: _, _, [] => none
  | x :: rest, i, k :: idx =>
    let k := fromEnd len k
    if k = i then
      if idx = [] then some ([x], [k])
      else (listGetLoop len rest (int32 (i + 1)) idx).map fun found => (x :: found.1, k :: found.2)
    else listGetLoop len rest (int32 (i + 1)) (k :: idx)

/-- `xfiredb_list_get`. -/
def xfiredbListGet (e : EngineState) (key : CStr) (idx : List Int) :
    Option (Int × List CStr × List Int) :=
  match e.db key with
  | some (.container (.list elems)) =>
    (listGetLoop (listLength elems) elems 0 idx).map fun found => (xfiredbOK, found.1, found.2)
  | _ => some (-xfiredbErr, [], idx)

/-- Push onto the list of a key. -/
def pushOnto (e : EngineState) (key data : CStr) (left : Bool) (elems : List CStr) : EngineState :=
  (e.bioQueueAdd ⟨key, none, some data, .listAdd⟩).setDb key
    (some (.container (.list (if left then data :: elems else elems ++ [data]))))

/-- `xfiredb_list_push`. -/
def xfiredbListPush (e : EngineState) (key data : CStr) (left : Bool) : Int × EngineState :=
  match e.db key with
  | none => (xfiredbOK, e.pushOnto key data left [])
  | some (.container (.list elems)) => (xfiredbOK, e.pushOnto key data left elems)
  | some _ => (-xfiredbErr, e)

/-- What the loop of `xfiredb_list_set` has done. -/
inductive ListSet
  | nothing
  | update (old : CStr) (elems : List CStr)
  | append

/-- The loop of `xfiredb_list_set`.  The last entry but one is where a missing index
is found out. -/
def listSetLoop (len idx : Int) (data : CStr) : List CStr → List CStr → Int → ListSet
  | _, [], _ => .nothing
  | kept, x :: rest, i =>
    if i = idx then .update x (kept ++ data :: rest)
    else if len ≤ int32 (i + 1) then .append
    else listSetLoop len idx data (kept ++ [x]) rest (int32 (i + 1))

/-- `xfiredb_list_set`.  An entry that is appended because the index is missing is not
queued. -/
def xfiredbListSet (e : EngineState) (key : CStr) (idx : Int) (data : CStr) : Int × EngineState :=
  match e.db key with
  | none => e.xfiredbListPush key data false
  | some (.container (.list elems)) =>
    if listLength elems = 0 then
      (xfiredbOK, (e.setDb key (some (.container (.list (elems ++ [data]))))).bioQueueAdd
        ⟨key, none, some data, .listAdd⟩)
    else
      match listSetLoop (listLength elems) idx data [] elems 0 with
      | .nothing => (-xfiredbErr, e)
      | .update old elems =>
        (xfiredbOK, (e.bioQueueAdd ⟨key, some old, some data, .listUpdate⟩).setDb key
          (some (.container (.list elems))))
      | .append => (xfiredbOK, e.setDb key (some (.container (.list (elems ++ [data])))))
  | some _ => (-xfiredbErr, e)

/-! ## Hashmaps -/

/-- `xfiredb_hashmap_get`: the data of the sub-keys that are there. -/
def xfiredbHashmapGet (e : EngineState) (key : CStr) (skeys : List CStr) :
    Option (Int × List (Option CStr)) :=
  match e.db key with
  | some (.container (.hashmap nodes _)) =>
    (skeys.mapM nodes.search).map fun found => (xfiredbOK, found.map fun node => node.map (·.value))
  | _ => some (-xfiredbErr, skeys.map fun _ => none)

/-- The loop of `xfiredb_hashmap_remove`: the hashmap that is left and the sub-keys that
have been removed. -/
def hashmapRemoveLoop : Skiplist CStr → Int → List CStr → Option (Skiplist CStr × Int × List CStr)
  | nodes, num, [] => some (nodes, num, [])
  | nodes, num, skey :: skeys =>
    match nodes.search skey, nodes.delete skey with
    | some (some _), some (some rest) =>
      (hashmapRemoveLoop rest (int32 (num - 1)) skeys).map fun found =>
        (found.1, found.2.1, skey :: found.2.2)
    | some _, some none => hashmapRemoveLoop nodes num skeys
    | _, _ => none

/-- `xfiredb_hashmap_remove`: how many sub-keys have been removed. -/
def xfiredbHashmapRemove (e : EngineState) (key : CStr) (skeys : List CStr) :
    Option (Int × EngineState) :=
  match e.db key with
  | some (.container (.hashmap nodes num)) =>
    (hashmapRemoveLoop nodes num skeys).map fun (nodes, num, removed) =>
      (removed.length,
        (e.setDb key
          (if int32 num = 0 then none else some (.container (.hashmap nodes num)))).bioQueueAll
          (removed.map fun skey => ⟨key, some skey, none, .hmDel⟩))
  | _ => some (0, e)

/-- Set a sub-key in the hashmap of a key. -/
def setIn (e : EngineState) (key skey data : CStr) (nodes : Skiplist CStr) (num : Int) :
    Option EngineState :=
  (nodes.search skey).map fun
    | none =>
      (e.bioQueueAdd ⟨key, some skey, some data, .hmAdd⟩).setDb key
        (some (.container (.hashmap (nodes.insert skey data) (int32 (num + 1)))))
    | some _ =>
      (e.bioQueueAdd ⟨key, some skey, some data, .hmUpdate⟩).setDb key
        (some (.container (.hashmap (Node.setValue skey data nodes) num)))

/-- `xfiredb_hashmap_set`. -/
def xfiredbHashmapSet (e : EngineState) (key skey data : CStr) : Option (Int × EngineState) :=
  match e.db key with
  | none => (e.setIn key skey data [] 0).map fun e => (xfiredbOK, e)
  | some (.container (.hashmap nodes num)) =>
    (e.setIn key skey data nodes num).map fun e => (xfiredbOK, e)
  | some _ => some (-xfiredbErr, e)

/-! ## Keys -/

/-- `xfiredb_key_delete`.  The key has left the dictionary when its type is looked at,
and there is no case for sets.  The key is copied once for all entries of a list. -/
def xfiredbKeyDelete (e : EngineState) (key : CStr) : Option (Int × EngineState) :=
  match e.db key with
  | none => some (0, e)
  | some (.string _) => some (1, (e.setDb key none).bioQueueAdd ⟨key, none, none, .stringDel⟩)
  | some (.container (.list elems)) =>
    ((e.setDb key none).bioQueueShared (Node.clearNotices (.list elems) key)).map fun e =>
      (int32 elems.length, e)
  | some (.container (.hashmap nodes num)) =>
    some (int32 num, (e.setDb key none).bioQueueAll (Node.clearNotices (.hashmap nodes num) key))
  | some (.container (.set _ _)) => some (-xfiredbErr, e.setDb key none)

end EngineState

/-! ## Calls -/

/-- A call of the interface. -/
inductive ApiCall
  | stringGet (key : CStr)
  | stringSet (key str : CStr)
  | listLength (key : CStr)
  | listPop (key : CStr) (idx : List Int)
  | listGet (key : CStr) (idx : List Int)
  | listSet (key : CStr) (idx : Int) (data : CStr)
  | listPush (key data : CStr) (left : Bool)
  | hashmapGet (key : CStr) (skeys : List CStr)
  | hashmapRemove (key : CStr) (skeys : List CStr)
  | hashmapSet (key skey data : CStr)
  | keyDelete (key : CStr)

namespace EngineState

/-- What a call returns, and the state it leaves. -/
def call (e : EngineState) : ApiCall → Option (Int × EngineState)
  | .stringGet key => some ((e.xfiredbStringGet key).1, e)
  | .stringSet key str => some (e.xfiredbStringSet key str)
  | .listLength key => some (e.xfiredbListLength key, e)
  | .listPop key idx => (e.xfiredbListPop key idx).map fun found => (found.1, found.2.2)
  | .listGet key idx => (e.xfiredbListGet key idx).map fun found => (found.1, e)
  | .listSet key idx data => some (e.xfiredbListSet key idx data)
  | .listPush key data left => some (e.xfiredbListPush key data left)
  | .hashmapGet key skeys => (e.xfiredbHashmapGet key skeys).map fun found => (found.1, e)
  | .hashmapRemove key skeys => e.xfiredbHashmapRemove key skeys
  | .hashmapSet key skey data => e.xfiredbHashmapSet key skey data
  | .keyDelete key => e.xfiredbKeyDelete key

/-! ## Errors -/

variable {e e' : EngineState} {key : CStr}

@[simp] theorem setDb_self (e : EngineState) (key : CStr) (v : Option Stored) :
    (e.setDb key v).db key = v := by
  simp [setDb]

@[simp] theorem bioQueueAdd_db (e : EngineState) (q : BioQ) : (e.bioQueueAdd q).db = e.db := by
  unfold bioQueueAdd
  split <;> rfl

@[simp] theorem bioQueueAll_db (e : EngineState) (ops : List BioQ) :
    (e.bioQueueAll ops).db = e.db := by
  induction ops generalizing e with
  | nil => rfl
  | cons q ops ih =>
      rw [bioQueueAll, List.foldl_cons, ← bioQueueAll, ih, bioQueueAdd_db]

theorem stringSet_err {str : CStr} (failed : e.xfiredbStringSet key str = (-xfiredbErr, e')) :
    e' = e := by
  unfold xfiredbStringSet at failed
  split at failed
  · exact (congrArg Prod.snd failed).symm
  · cases failed
  · cases failed

theorem listPush_err {data : CStr} {left : Bool}
    (failed : e.xfiredbListPush key data left = (-xfiredbErr, e')) : e' = e := by
  unfold xfiredbListPush at failed
  split at failed
  · cases failed
  · cases failed
  · exact (congrArg Prod.snd failed).symm

theorem listSet_err {idx : Int} {data : CStr}
    (failed : e.xfiredbListSet key idx data = (-xfiredbErr, e')) : e' = e := by
  unfold xfiredbListSet at failed
  split at failed
  · exact listPush_err failed
  · split at failed
    · cases failed
    · split at failed
      · exact (congrArg Prod.snd failed).symm
      · cases failed
      · cases failed
  · exact (congrArg Prod.snd failed).symm

theorem listPop_err {idx idx' : List Int}
    (failed : e.xfiredbListPop key idx = some (-xfiredbErr, idx', e')) : e' = e := by
  unfold xfiredbListPop at failed
  split at failed
  · cases failed
  · obtain ⟨⟨left, popped, idx''⟩, _, same⟩ := Option.map_eq_some_iff.mp failed
    have count := congrArg Prod.fst same
    simp only [xfiredbErr] at count
    omega
  · cases failed
    rfl

theorem hashmapRemove_err {skeys : List CStr}
    (failed : e.xfiredbHashmapRemove key skeys = some (-xfiredbErr, e')) : e' = e := by
  unfold xfiredbHashmapRemove at failed
  split at failed
  · obtain ⟨⟨nodes, num, removed⟩, _, same⟩ := Option.map_eq_some_iff.mp failed
    have count := congrArg Prod.fst same
    simp only [xfiredbErr] at count
    omega
  · cases failed

theorem hashmapSet_err {skey data : CStr}
    (failed : e.xfiredbHashmapSet key skey data = some (-xfiredbErr, e')) : e' = e := by
  unfold xfiredbHashmapSet at failed
  split at failed
  · obtain ⟨_, _, same⟩ := Option.map_eq_some_iff.mp failed
    cases same
  · obtain ⟨_, _, same⟩ := Option.map_eq_some_iff.mp failed
    cases same
  · cases failed
    rfl

theorem bioQueueShared_db {ops : List BioQ} (queued : e.bioQueueShared ops = some e') :
    e'.db = e.db := by
  unfold bioQueueShared at queued
  split at queued
  · split at queued
    · cases queued
      rfl
    · cases queued
  · cases queued
    rfl

/-- Deleting the key gives no error code: it holds no set, and no container whose size
is the error code.  (Without persistence such a list crashes the call.) -/
def Deletable (e : EngineState) (key : CStr) : Prop :=
  match e.db key with
  | some (.container (.list elems)) => int32 elems.length ≠ -1 ∨ 3 ≤ e.persistLevel
  | some (.container (.hashmap _ num)) => int32 num ≠ -1
  | some (.container (.set _ _)) => False
  | _ => True

/-- A deleted key has left the database, whatever has been queued. -/
theorem deleted_ne {v : Stored} (stored : e.db key = some v)
    (gone : e'.db = (e.setDb key none).db) :
    e' ≠ e := by
  intro same
  obtain rfl := same
  have gone := congrFun gone key
  rw [setDb_self, stored] at gone
  cases gone

theorem keyDelete_err_iff :
    (∀ e', e.xfiredbKeyDelete key = some (-xfiredbErr, e') → e' = e) ↔ e.Deletable key := by
  rw [xfiredbKeyDelete, Deletable]
  cases stored : e.db key with
  | none => exact iff_of_true (fun e' failed => by cases failed) trivial
  | some v =>
      cases v with
      | string s => exact iff_of_true (fun e' failed => by cases failed) trivial
      | container c =>
          cases c with
          | list elems =>
              dsimp only
              constructor
              · intro intact
                by_contra keeps
                obtain ⟨isError, persists⟩ := not_or.mp keeps
                rw [not_not] at isError
                have queued : (e.setDb key none).bioQueueShared
                  (Node.clearNotices (.list elems) key) = some _ :=
                  if_neg persists
                rw [queued, isError] at intact
                exact deleted_ne stored (bioQueueShared_db queued) (intact _ rfl)
              · intro other e' failed
                obtain ⟨e₁, queued, same⟩ := Option.map_eq_some_iff.mp failed
                have isError : int32 elems.length = -1 := congrArg Prod.fst same
                rcases other with noError | level
                · exact absurd isError noError
                · -- more than one entry, and nothing is persisted
                  have level' : 3 ≤ (e.setDb key none).persistLevel := level
                  have many : ¬ (Node.clearNotices (.list elems) key).length ≤ 1 := by
                    have size : (Node.clearNotices (.list elems) key).length = elems.length :=
                      List.length_map _
                    rw [size]
                    intro few
                    rw [int32_of_small (by omega) (by omega)] at isError
                    omega
                  rw [bioQueueShared, if_pos level', if_neg many] at queued
                  cases queued
          | hashmap nodes num =>
              constructor
              · intro intact isError
                dsimp only at intact
                rw [isError] at intact
                exact deleted_ne stored (bioQueueAll_db _ _) (intact _ rfl)
              · intro other e' failed
                exact absurd (congrArg Prod.fst (Option.some.inj failed)) other
          | set nodes num =>
              refine iff_of_false (fun intact => ?_) id
              exact deleted_ne stored rfl (intact _ rfl)

/-- The call leaves the store intact where it fails. -/
def Intact (e : EngineState) : ApiCall → Prop
  | .keyDelete key => e.Deletable key
  | _ => True

/-- A call that fails leaves the store as it is and queues nothing exactly if it does
not delete a key of a wrong type or size. -/
theorem call_err_iff (e : EngineState) (c : ApiCall) :
    (∀ e', e.call c = some (-xfiredbErr, e') → e' = e) ↔ e.Intact c := by
  cases c with
  | keyDelete key =>
      rw [Intact, ← keyDelete_err_iff]
      rfl
  | stringSet key str =>
      exact iff_of_true (fun e' failed => stringSet_err (Option.some.inj failed)) trivial
  | listPush key data left =>
      exact iff_of_true (fun e' failed => listPush_err (Option.some.inj failed)) trivial
  | listSet key idx data =>
      exact iff_of_true (fun e' failed => listSet_err (Option.some.inj failed)) trivial
  | listPop key idx =>
      refine iff_of_true (fun e' failed => ?_) trivial
      obtain ⟨⟨rv, idx', e''⟩, popped, same⟩ := Option.map_eq_some_iff.mp failed
      cases same
      exact listPop_err popped
  | hashmapRemove key skeys => exact iff_of_true (fun e' => hashmapRemove_err) trivial
  | hashmapSet key skey data => exact iff_of_true (fun e' => hashmapSet_err) trivial
  | stringGet key =>
      exact iff_of_true (fun e' failed => (congrArg Prod.snd (Option.some.inj failed)).symm) trivial
  | listLength key =>
      exact iff_of_true (fun e' failed => (congrArg Prod.snd (Option.some.inj failed)).symm) trivial
  | listGet key idx =>
      refine iff_of_true (fun e' failed => ?_) trivial
      obtain ⟨_, _, same⟩ := Option.map_eq_some_iff.mp failed
      exact (congrArg Prod.snd same).symm
  | hashmapGet key skeys =>
      refine iff_of_true (fun e' failed => ?_) trivial
      obtain ⟨_, _, same⟩ := Option.map_eq_some_iff.mp failed
      exact (congrArg Prod.snd same).symm

theorem nulFree_s : 0 ∉ lit "s" := by decide

/-- A database with one key, which holds a set of no elements. -/
def oneSet : EngineState :=
  setDb ⟨fun _ => none, 0, [], []⟩ ⟨lit "s", nulFree_s⟩ (some (.container (.set [] 0)))

/-- Deleting a key that holds a set fails, and the set is gone. -/
theorem keyDelete_set :
    ¬ ∀ e', oneSet.call (.keyDelete ⟨lit "s", nulFree_s⟩) = some (-xfiredbErr, e') →
      e' = oneSet := by
  have stored : oneSet.db ⟨lit "s", nulFree_s⟩ = some (.container (.set [] 0)) :=
    setDb_self _ _ _
  intro intact
  refine deleted_ne stored rfl (intact _ ?_)
  rw [call, xfiredbKeyDelete, stored]

end EngineState

end XFireDB
