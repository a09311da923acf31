import XFireDB.Lib.Prog
import XFireDB.KeyShard
import XFireDB.Skiplist
import XFireDB.Disk

/-!
# The storage engine under Ruby

The database, the container objects and the calls the commands make on them, as
`ext/xfiredb-serv` implements them.  The dictionary under the database is a map
here (`dict_run_refines_map`).  A container object outlives its place in the
database: a command that holds it may go on using it.

A call returns a value or raises, and the process may crash in a skiplist walk;
`Node.call` is then `none`.
-/

namespace XFireDB

open Lib

/-- The container classes. -/
inductive Kind
  | list
  | hashmap
  | set
deriving DecidableEq, Repr

/-- The data of a container.  `num` is the element counter of hashmaps and sets,
which is kept beside the skiplist.  It is a 32-bit integer, as is the length of a
list. -/
inductive Container
  | list (elems : List CStr)
  | hashmap (nodes : Skiplist CStr) (num : Int)
  | set (nodes : Skiplist Unit) (num : Int)
deriving DecidableEq

def Container.kind : Container → Kind
  | .list _ => .list
  | .hashmap _ _ => .hashmap
  | .set _ _ => .set

/-- `rb_list_alloc`, `rb_hashmap_alloc`, `rb_set_alloc`. -/
def Container.alloc : Kind → Container
  | .list => .list []
  | .hashmap => .hashmap [] 0
  | .set => .set [] 0

/-- A `struct db_entry_container` behind a Ruby object. -/
structure Obj where
  key : Option CStr
  intree : Bool
  c : Container

/-- What the database stores under a key. -/
inductive Entry
  | string (s : CStr)
  | object (id : Nat)
deriving DecidableEq

/-- The Ruby values that pass between commands and the engine. -/
inductive Val
  | nil
  | str (s : RStr)
  | obj (kind : Kind) (id : Nat)
deriving DecidableEq

/-- One node: the database, the container objects, the key shard and what has
been queued for the disk, oldest first. -/
structure Node where
  db : CStr → Option Entry
  objs : Nat → Option Obj
  fresh : Nat
  shard : KeyShard
  loadState : Bool
  persistLevel : Nat
  queue : List BioQ

/-- What a call gives: a value or an exception, and the node it leaves. -/
abbrev Outcome (β : Type) : Type := Except Raise β × Node

namespace Node

def setDb (n : Node) (key : CStr) (e : Option Entry) : Node :=
  { n with db := Function.update n.db key e }

def setObj (n : Node) (id : Nat) (o : Obj) : Node :=
  { n with objs := Function.update n.objs id (some o) }

/-- `xfiredb_notice_disk` and `bio_queue_add`. -/
def noticeDisk (n : Node) (q : BioQ) : Node :=
  if n.loadState ∧ n.persistLevel < 3 then { n with queue := n.queue ++ [q] } else n

/-- Several notices, one after another. -/
def notices (n : Node) (ops : List BioQ) : Node := ops.foldl noticeDisk n

/-- Notices are sent for containers that have a key. -/
def noticeAll (n : Node) (key : Option CStr) (f : CStr → List BioQ) : Node :=
  match key with
  | some k => n.notices (f k)
  | none => n

/-! ## Clearing and storing containers -/

/-- The notices of `raw_rb_list_clear`, `rb_hashmap_remove` and `rb_set_remove`. -/
def clearNotices (c : Container) (key : CStr) : List BioQ :=
  match c with
  | .list elems => elems.map fun data => ⟨key, some data, none, .listDel⟩
  | .hashmap nodes _ => nodes.map fun node => ⟨key, some node.key, none, .hmDel⟩
  | .set nodes _ => nodes.map fun node => ⟨key, some node.key, none, .setDel⟩

/-- The emptied container.  The iterators unlink every node, the counter of a
hashmap or set stays. -/
def cleared : Container → Container
  | .list _ => .list []
  | .hashmap _ num => .hashmap [] num
  | .set _ num => .set [] num

/-- `raw_rb_db_delete` of an entry that stood under `key`. -/
def rawRbDbDelete (n : Node) (key : CStr) : Entry → Node
  | .string _ => n.noticeDisk ⟨key, none, none, .stringDel⟩
  | .object id =>
    match n.objs id with
    | some o =>
      (n.noticeAll o.key (clearNotices o.c)).setObj id
        { o with intree := false, c := cleared o.c }
    | none => n

/-- The notices of `xfiredb_store_container`. -/
def storeNotices (c : Container) (key : CStr) : List BioQ :=
  match c with
  | .list elems => elems.map fun data => ⟨key, none, some data, .listAdd⟩
  | .hashmap nodes _ => nodes.map fun node => ⟨key, some node.key, some node.value, .hmAdd⟩
  | .set nodes _ => nodes.map fun node => ⟨key, some node.key, none, .setAdd⟩

/-! ## Database methods -/

/-- `rb_db_ref`. -/
def rbDbRef (n : Node) (key : RStr) : Outcome Val :=
  match stringValueCStr key with
  | .error e => (.error e, n)
  | .ok k =>
    match n.db k with
    | none => (.ok .nil, n)
    | some (.string s) => (.ok (.str s.toR), n)
    | some (.object id) =>
      match n.objs id with
      | some o => (.ok (.obj o.c.kind id), n)
      | none => (.ok .nil, n)

/-- The last part of `rb_db_store`, when the key is free. -/
def rbDbStoreFresh (n : Node) (key : CStr) : Val → Outcome Unit
  | .nil => (.error .typeError, n)
  | .str data =>
    match stringValueCStr data with
    | .error e => (.error e, n)
    | .ok d =>
      (.ok (), (n.setDb key (some (.string d))).noticeDisk ⟨key, none, some d, .stringAdd⟩)
  | .obj _ id =>
    match n.objs id with
    | some o =>
      (.ok (), ((n.setObj id { o with key := some key, intree := true }).setDb key
        (some (.object id))).noticeAll (some key) (storeNotices o.c))
    | none => (.error .typeError, n)

/-- `rb_db_store`.  A string over a string is an update of the stored string, and
the old entry has left the dictionary when `StringValueCStr` raises on the new
data. -/
def rbDbStore (n : Node) (key : RStr) (data : Val) : Outcome Unit :=
  match stringValueCStr key with
  | .error e => (.error e, n)
  | .ok k =>
    match n.db k with
    | none => n.rbDbStoreFresh k data
    | some entry =>
      let n := n.setDb k none
      match entry, data with
      | .string _, .str d =>
        match stringValueCStr d with
        | .error e => (.error e, n)
        | .ok d =>
          (.ok (), (n.noticeDisk ⟨k, none, some d, .stringUpdate⟩).setDb k (some (.string d)))
      | .object id, .obj kind id' =>
        if id = id' then n.rbDbStoreFresh k (.obj kind id')
        else (n.rawRbDbDelete k entry).rbDbStoreFresh k (.obj kind id')
      | entry, data => (n.rawRbDbDelete k entry).rbDbStoreFresh k data

/-- `rb_db_delete`. -/
def rbDbDelete (n : Node) (key : RStr) : Outcome Unit :=
  match stringValueCStr key with
  | .error e => (.error e, n)
  | .ok k =>
    match n.db k with
    | none => (.ok (), n)
    | some entry => (.ok (), (n.setDb k none).rawRbDbDelete k entry)

/-! ## Container methods -/

/-- Allocate a container object that is in no database. -/
def newObj (n : Node) (kind : Kind) : Outcome Nat :=
  (.ok n.fresh, { n with
    objs := Function.update n.objs n.fresh (some ⟨none, false, Container.alloc kind⟩)
    fresh := n.fresh + 1 })

/-- `NUM2INT`. -/
def num2int (i : Int) : Except Raise Int :=
  if -2 ^ 31 ≤ i ∧ i < 2 ^ 31 then .ok i else .error .rangeError

/-- `list_ref`: the position of an index, counted from the head. -/
def listRef (elems : List CStr) (idx : Int) : Option (Nat × CStr) :=
  if 0 ≤ idx then elems[idx.toNat]?.map fun data => (idx.toNat, data) else none

/-- Run a method of a list object. -/
def onList {β : Type} (n : Node) (id : Nat) (f : Obj → List CStr → Outcome β) : Outcome β :=
  match n.objs id with
  | some o =>
    match o.c with
    | .list elems => f o elems
    | _ => (.error .noMethodError, n)
  | none => (.error .noMethodError, n)

/-- `rb_list_push`. -/
def rbListPush (n : Node) (id : Nat) (data : RStr) : Outcome Unit :=
  n.onList id fun o elems =>
    match stringValueCStr data with
    | .error e => (.error e, n)
    | .ok d =>
      (.ok (), (n.noticeAll o.key fun key => [⟨key, none, some d, .listAdd⟩]).setObj id
        { o with c := .list (elems ++ [d]) })

/-- `rb_list_pop`. -/
def rbListPop (n : Node) (id : Nat) (i : Int) : Outcome (Option RStr) :=
  n.onList id fun o elems =>
    match num2int i with
    | .error e => (.error e, n)
    | .ok idx =>
      match listRef elems idx with
      | none => (.ok none, n)
      | some (pos, data) =>
        (.ok (some data.toR), (n.noticeAll o.key fun key =>
          [⟨key, some data, none, .listDel⟩]).setObj
          id { o with c := .list (elems.eraseIdx pos) })

/-- `rb_list_set`. -/
def rbListSet (n : Node) (id : Nat) (i : Int) (data : RStr) : Outcome Unit :=
  n.onList id fun o elems =>
    match num2int i with
    | .error e => (.error e, n)
    | .ok idx =>
      match listRef elems idx with
      | none => (.ok (), n)
      | some (pos, old) =>
        match stringValueCStr data with
        | .error e => (.error e, n)
        | .ok d =>
          (.ok (), (n.noticeAll o.key fun key => [⟨key, some old, some d, .listUpdate⟩]).setObj
            id { o with c := .list (elems.set pos d) })

/-- `rb_list_ref`. -/
def rbListRef (n : Node) (id : Nat) (i : Int) : Outcome (Option RStr) :=
  n.onList id fun _ elems =>
    match num2int i with
    | .error e => (.error e, n)
    | .ok idx => (.ok ((listRef elems idx).map fun found => found.2.toR), n)

/-- `rb_list_length`. -/
def rbListLength (n : Node) (id : Nat) : Outcome Int :=
  n.onList id fun _ elems => (.ok (int32 elems.length), n)

/-- Run a method of a hashmap object; the method may crash. -/
def onMap {β : Type} (n : Node) (id : Nat) (f : Obj → Skiplist CStr → Int → Option (Outcome β)) :
    Option (Outcome β) :=
  match n.objs id with
  | some o =>
    match o.c with
    | .hashmap nodes num => f o nodes num
    | _ => some (.error .noMethodError, n)
  | none => some (.error .noMethodError, n)

/-- Replace the value of the node with a key. -/
def setValue (key data : CStr) (nodes : Skiplist CStr) : Skiplist CStr :=
  nodes.map fun node => if node.key = key then { node with value := data } else node

/-- `rb_hashmap_store`. -/
def rbHashmapStore (n : Node) (id : Nat) (key data : RStr) : Option (Outcome Unit) :=
  n.onMap id fun o nodes num =>
    match stringValueCStr key, stringValueCStr data with
    | .error e, _ => some (.error e, n)
    | _, .error e => some (.error e, n)
    | .ok k, .ok d =>
      (nodes.search k).map fun
        | none =>
          (.ok (), (n.setObj id { o with
            c := .hashmap (nodes.insert k d) (int32 (num + 1)) }).noticeAll
            o.key fun key => [⟨key, some k, some d, .hmAdd⟩])
        | some _ =>
          (.ok (), (n.setObj id { o with c := .hashmap (setValue k d nodes) num }).noticeAll
            o.key fun key => [⟨key, some k, some d, .hmUpdate⟩])

/-- `rb_hashmap_ref`. -/
def rbHashmapRef (n : Node) (id : Nat) (key : RStr) : Option (Outcome (Option RStr)) :=
  n.onMap id fun _ nodes _ =>
    match stringValueCStr key with
    | .error e => some (.error e, n)
    | .ok k => (nodes.search k).map fun found => (.ok (found.map (·.value.toR)), n)

/-- `rb_hashmap_delete`. -/
def rbHashmapDelete (n : Node) (id : Nat) (key : RStr) : Option (Outcome (Option RStr)) :=
  n.onMap id fun o nodes num =>
    match stringValueCStr key with
    | .error e => some (.error e, n)
    | .ok k =>
      match nodes.search k, nodes.delete k with
      | some (some node), some (some rest) =>
        some (.ok (some node.value.toR),
          (n.setObj id { o with c := .hashmap rest (int32 (num - 1)) }).noticeAll o.key
            fun key => [⟨key, some node.key, none, .hmDel⟩])
      | some _, some none => some (.ok none, n)
      | _, _ => none

/-- `rb_hashmap_size`. -/
def rbHashmapSize (n : Node) (id : Nat) : Option (Outcome Int) :=
  n.onMap id fun _ _ num => some (.ok num, n)

/-- Run a method of a set object; the method may crash. -/
def onSet {β : Type} (n : Node) (id : Nat) (f : Obj → Skiplist Unit → Int → Option (Outcome β)) :
    Option (Outcome β) :=
  match n.objs id with
  | some o =>
    match o.c with
    | .set nodes num => f o nodes num
    | _ => some (.error .noMethodError, n)
  | none => some (.error .noMethodError, n)

/-- `rb_set_add`: whether the key was added. -/
def rbSetAdd (n : Node) (id : Nat) (key : RStr) : Option (Outcome Bool) :=
  n.onSet id fun o nodes num =>
    match stringValueCStr key with
    | .error e => some (.error e, n)
    | .ok k =>
      (nodes.search k).map fun
        | some _ => (.ok false, n)
        | none =>
          (.ok true, (n.setObj id { o with
            c := .set (nodes.insert k ()) (int32 (num + 1)) }).noticeAll
            o.key fun key => [⟨key, some k, none, .setAdd⟩])

/-- `rb_set_remove_key`: whether the key was removed. -/
def rbSetRemove (n : Node) (id : Nat) (key : RStr) : Option (Outcome Bool) :=
  n.onSet id fun o nodes num =>
    match stringValueCStr key with
    | .error e => some (.error e, n)
    | .ok k =>
      match nodes.search k, nodes.delete k with
      | some (some node), some (some rest) =>
        some (.ok true,
          (n.setObj id { o with c := .set rest (int32 (num - 1)) }).noticeAll o.key
            fun key => [⟨key, some node.key, none, .setDel⟩])
      | some _, some none => some (.ok false, n)
      | _, _ => none

/-- `rb_set_include`. -/
def rbSetInclude (n : Node) (id : Nat) (key : RStr) : Option (Outcome Bool) :=
  n.onSet id fun _ nodes _ =>
    match stringValueCStr key with
    | .error e => some (.error e, n)
    | .ok k => (nodes.search k).map fun found => (.ok found.isSome, n)

/-- `rb_set_size`. -/
def rbSetSize (n : Node) (id : Nat) : Option (Outcome Int) :=
  n.onSet id fun _ _ num => some (.ok num, n)

end Node

/-! ## Calls -/

/-- A reply: one string or an array of strings. -/
inductive Reply
  | text (s : RStr)
  | lines (l : List RStr)
deriving DecidableEq, Repr

/-- The calls of the commands: on the engine, on the node's key shard, and
`Command#forward`, which sends a query text to the node that holds a key. -/
inductive Call : Type → Type
  | dbRef (key : RStr) : Call Val
  | dbStore (key : RStr) (data : Val) : Call Unit
  | dbDelete (key : RStr) : Call Unit
  | newObj (kind : Kind) : Call Nat
  | listPush (id : Nat) (data : RStr) : Call Unit
  | listPop (id : Nat) (i : Int) : Call (Option RStr)
  | listSet (id : Nat) (i : Int) (data : RStr) : Call Unit
  | listRef (id : Nat) (i : Int) : Call (Option RStr)
  | listLength (id : Nat) : Call Int
  | mapStore (id : Nat) (key data : RStr) : Call Unit
  | mapRef (id : Nat) (key : RStr) : Call (Option RStr)
  | mapDelete (id : Nat) (key : RStr) : Call (Option RStr)
  | mapSize (id : Nat) : Call Int
  | setAdd (id : Nat) (key : RStr) : Call Bool
  | setRemove (id : Nat) (key : RStr) : Call Bool
  | setInclude (id : Nat) (key : RStr) : Call Bool
  | setSize (id : Nat) : Call Int
  | shardInclude (key : RStr) : Call Bool
  | addKey (key : RStr) : Call Unit
  | delKey (key : RStr) : Call Unit
  | forward (key query : RStr) : Call Reply

/-- One call on a node that is alone in its cluster.  There a key that is not
local is known nowhere, and `nodes["Key not known"]` is nil. -/
def Node.call : Prog.Handler Call Raise Node
  | _, n, .dbRef key => some (n.rbDbRef key)
  | _, n, .dbStore key data => some (n.rbDbStore key data)
  | _, n, .dbDelete key => some (n.rbDbDelete key)
  | _, n, .newObj kind => some (n.newObj kind)
  | _, n, .listPush id data => some (n.rbListPush id data)
  | _, n, .listPop id i => some (n.rbListPop id i)
  | _, n, .listSet id i data => some (n.rbListSet id i data)
  | _, n, .listRef id i => some (n.rbListRef id i)
  | _, n, .listLength id => some (n.rbListLength id)
  | _, n, .mapStore id key data => n.rbHashmapStore id key data
  | _, n, .mapRef id key => n.rbHashmapRef id key
  | _, n, .mapDelete id key => n.rbHashmapDelete id key
  | _, n, .mapSize id => n.rbHashmapSize id
  | _, n, .setAdd id key => n.rbSetAdd id key
  | _, n, .setRemove id key => n.rbSetRemove id key
  | _, n, .setInclude id key => n.rbSetInclude id key
  | _, n, .setSize id => n.rbSetSize id
  | _, n, .shardInclude key => some (n.shard.includes key, n)
  | _, n, .addKey key =>
    match n.shard.addKey key with
    | .ok shard => some (.ok (), { n with shard := shard })
    | .error e => some (.error e, n)
  | _, n, .delKey key => some (.ok (), { n with shard := n.shard.delKey key })
  | _, n, .forward _ _ => some (.error .noMethodError, n)

end XFireDB
