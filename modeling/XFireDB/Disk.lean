import XFireDB.Hash

/-!
# The table on disk

The rows of `xfiredb_data` in rowid order, and the statements `bio_worker`
executes for the entries of the bio queue.  An inserted row gets a rowid above
all others; a `LIMIT 1` selects the row with the lowest rowid.
-/

namespace XFireDB

/-- Operations of the bio queue. -/
inductive BioOp
  | stringAdd
  | stringUpdate
  | stringDel
  | listAdd
  | listDel
  | listUpdate
  | hmAdd
  | hmDel
  | hmUpdate
  | setAdd
  | setDel
deriving DecidableEq, Repr

/-- A `struct bio_q`: `arg` and `newdata` may be null. -/
structure BioQ where
  key : CStr
  arg : Option CStr
  newdata : Option CStr
  operation : BioOp
deriving DecidableEq

/-- The values of the `db_type` column. -/
inductive RowType
  | string
  | list
  | hashmap
  | set
deriving DecidableEq, Repr

structure Row where
  key : CStr
  secondary : CStr
  type : RowType
  value : CStr
deriving DecidableEq

/-- The text `null`, stored where a row has no secondary key or no value. -/
def nullText : CStr := ⟨[110, 117, 108, 108], by decide⟩

/-- What `%s` prints for a null pointer. -/
def printed : Option CStr → CStr
  | some s => s
  | none => ⟨[40, 110, 117, 108, 108, 41], by decide⟩

abbrev Table : Type := List Row

/-- Change the first row that satisfies a condition. -/
def modifyFirst (p : Row → Bool) (f : Row → Row) : Table → Table
  | [] => []
  | row :: rest => if p row then f row :: rest else row :: modifyFirst p f rest

def diskStoreString (key data : CStr) (rows : Table) : Table :=
  rows ++ [⟨key, nullText, .string, data⟩]

def diskUpdateString (key data : CStr) (rows : Table) : Table :=
  rows.map fun row =>
    if row.key = key ∧ row.type = .string then { row with value := data } else row

def diskDeleteString (key : CStr) (rows : Table) : Table :=
  rows.filter fun row => ¬ (row.type = .string ∧ row.key = key)

def diskStoreListEntry (key data : CStr) (rows : Table) : Table :=
  rows ++ [⟨key, nullText, .list, data⟩]

/-- The condition of the two list statements. -/
def isListRow (key data : CStr) (row : Row) : Bool :=
  row.key = key ∧ row.value = data ∧ row.type = .list

def diskUpdateList (key data newdata : CStr) (rows : Table) : Table :=
  modifyFirst (isListRow key data) (fun row => { row with value := newdata }) rows

def diskDeleteList (key data : CStr) (rows : Table) : Table :=
  rows.eraseP (isListRow key data)

def diskStoreHmNode (key nodekey data : CStr) (rows : Table) : Table :=
  rows ++ [⟨key, nodekey, .hashmap, data⟩]

/-- `disk_update_hm` does not look at `db_type`. -/
def diskUpdateHm (key nodekey data : CStr) (rows : Table) : Table :=
  rows.map fun row =>
    if row.key = key ∧ row.secondary = nodekey then { row with value := data } else row

def diskDeleteHashmapnode (key nodekey : CStr) (rows : Table) : Table :=
  rows.filter fun row => ¬ (row.type = .hashmap ∧ row.key = key ∧ row.secondary = nodekey)

def diskStoreSetKey (key skey : CStr) (rows : Table) : Table :=
  rows ++ [⟨key, skey, .set, nullText⟩]

def diskDeleteSetKey (key skey : CStr) (rows : Table) : Table :=
  rows.filter fun row => ¬ (row.type = .set ∧ row.key = key ∧ row.secondary = skey)

/-- The switch of `bio_worker`, where SQLite executes each statement on exactly the values
passed. -/
def bioApply (rows : Table) (q : BioQ) : Table :=
  let arg := printed q.arg
  let newdata := printed q.newdata
  match q.operation with
  | .stringAdd => diskStoreString q.key newdata rows
  | .stringUpdate => diskUpdateString q.key newdata rows
  | .stringDel => diskDeleteString q.key rows
  | .listAdd => diskStoreListEntry q.key newdata rows
  | .listDel => diskDeleteList q.key arg rows
  | .listUpdate => diskUpdateList q.key arg newdata rows
  | .hmAdd => diskStoreHmNode q.key arg newdata rows
  | .hmDel => diskDeleteHashmapnode q.key arg rows
  | .hmUpdate => diskUpdateHm q.key arg newdata rows
  | .setAdd => diskStoreSetKey q.key arg rows
  | .setDel => diskDeleteSetKey q.key arg rows

/-- The table after the worker has emptied the queue. -/
def bioWorker (rows : Table) (queue : List BioQ) : Table := queue.foldl bioApply rows

end XFireDB
