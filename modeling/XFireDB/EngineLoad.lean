import XFireDB.EngineApi
import XFireDB.LoadTable

/-!
# Loading the table into the C engine

`xfiredb_load` goes through the rows in rowid order and adds each to what its key holds
already.  Rows that mirror a database are loaded into a database with the same values.
-/

namespace XFireDB

/-- `hashmap_add`.  It counts a sub-key that is linked already again: `skiplist_insert`
gives no error there. -/
def Skiplist.hashmapAdd (nodes : Skiplist CStr) (num : Int) (skey data : CStr) :
    Skiplist CStr × Int :=
  (nodes.insert skey data, int32 (num + 1))

/-- `set_add`, which looks first whether the sub-key is there. -/
def Skiplist.setAdd (nodes : Skiplist Unit) (num : Int) (skey : CStr) :
    Option (Skiplist Unit × Int) :=
  (nodes.search skey).map fun
    | some _ => (nodes, num)
    | none => (nodes.insert skey (), int32 (num + 1))

/-- The container a row is added to: a new one, or the one `db_lookup` has found.  A
container of another type would be read as one of the row's type (`none`). -/
def containerFor (kind : Kind) : Option Stored → Option Container
  | none => some (Container.alloc kind)
  | some (.container c) => if c.kind = kind then some c else none
  | some (.string _) => none

/-- Add the element of a row. -/
def Container.addRow (row : Row) : Container → Option Container
  | .list elems => some (.list (elems ++ [row.value]))
  | .hashmap nodes num =>
    let (nodes, num) := nodes.hashmapAdd num row.secondary row.value
    some (.hashmap nodes num)
  | .set nodes num =>
    (nodes.setAdd num row.secondary).map fun (nodes, num) => .set nodes num

/-- The body of the loop of `xfiredb_load`, with what `db_lookup` has found. -/
def xfiredbLoadRow (available : Option Stored) (row : Row) : Option Stored :=
  match row.type with
  | .string => some (available.getD (.string row.value))
  | .list => ((containerFor .list available).bind (Container.addRow row)).map Stored.container
  | .hashmap => ((containerFor .hashmap available).bind (Container.addRow row)).map Stored.container
  | .set => ((containerFor .set available).bind (Container.addRow row)).map Stored.container

/-- `xfiredb_load`. -/
def xfiredbLoad (db : CStr → Option Stored) : Table → Option (CStr → Option Stored)
  | [] => some db
  | row :: rows =>
    match xfiredbLoadRow (db row.key) row with
    | some v => xfiredbLoad (Function.update db row.key (some v)) rows
    | none => none

/-! ## One row -/

/-- A sub-key that is not there is linked and counted. -/
theorem Skiplist.Clean.setAdd {nodes : Skiplist Unit} {num : Int} {h : CStr}
    (clean : nodes.Clean num) (clear : nodes.HashClear h) (absent : ∀ node ∈ nodes, node.key ≠ h) :
    nodes.setAdd num h = some (nodes.insert h (), int32 (num + 1)) := by
  have missing : (nodes.find? fun node => node.key = h) = none := by
    simpa using absent
  rw [Skiplist.setAdd, clean.sorted.search_eq clear, missing]
  rfl

/-- The type of the rows of a container. -/
def Kind.rowType : Kind → RowType
  | .list => .list
  | .hashmap => .hashmap
  | .set => .set

/-- The container for a row that fits mirrors the rows before it. -/
theorem Mirrors.containerFor {v : Option Stored} {before : Table} {row : Row} {kind : Kind}
    (mirrors : Mirrors row.key v before) (fits : RowFits before row) (full : Stored.Full v)
    (type : row.type = kind.rowType) :
    ∃ c, XFireDB.containerFor kind v = some c ∧ c.kind = kind ∧
      Mirrors row.key (some (.container c)) before := by
  cases v with
  | none =>
      rw [Mirrors] at mirrors
      subst mirrors
      refine ⟨Container.alloc kind, rfl, ?_, mirrors_alloc row.key kind⟩
      cases kind <;> rfl
  | some w =>
      have some : before ≠ [] := by
        intro same
        obtain rfl := same
        cases mirrors.eq_none full
      obtain ⟨r, rest, rfl⟩ := List.exists_cons_of_ne_nil some
      have sameType : w.rowType = kind.rowType := by
        rw [← mirrors.rowType r List.mem_cons_self, fits.types r List.mem_cons_self, type]
      cases w with
      | string s => cases kind <;> cases sameType
      | container c =>
          have sameKind : c.kind = kind := by
            cases c <;> cases kind <;> first | rfl | cases sameType
          exact ⟨c, if_pos sameKind, sameKind, mirrors⟩

/-- A row that fits is added to the container that mirrors the rows before it. -/
theorem Mirrors.addRow {before : Table} {row : Row} {c : Container}
    (mirrors : Mirrors row.key (some (.container c)) before) (fits : RowFits before row)
    (type : row.type = c.kind.rowType) :
    ∃ c', c.addRow row = some c' ∧
      Mirrors row.key (some (.container c')) (before ++ [row]) ∧ ¬ c'.IsEmpty := by
  cases c with
  | list elems =>
      have isList : row.type = .list := type
      have rows : bioWorker before [⟨row.key, none, some row.value, .listAdd⟩] =
        before ++ [row] := by
        simp [bioWorker, bioApply, diskStoreListEntry, printed, ← fits.list isList, ← isList]
      rw [← rows]
      exact ⟨_, rfl, mirrors.listAdd row.value, by simp [Container.IsEmpty]⟩
  | hashmap nodes num =>
      have isMap : row.type = .hashmap := type
      obtain ⟨clear, absent⟩ :=
        Node.hashClear_of_clearRows (fits.hashmap isMap) (fun _ => rfl) mirrors.1
      have rows : bioWorker before [⟨row.key, some row.secondary, some row.value, .hmAdd⟩] =
          before ++ [row] := by
        simp [bioWorker, bioApply, diskStoreHmNode, printed, ← isMap]
      rw [← rows]
      exact ⟨_, rfl, mirrors.hmAdd clear absent row.value, Skiplist.insert_ne_nil _ _ _⟩
  | set nodes num =>
      have isSet : row.type = .set := type
      obtain ⟨clearRows, value⟩ := fits.set isSet
      obtain ⟨clear, absent⟩ := Node.hashClear_of_clearRows clearRows (fun _ => rfl) mirrors.1
      have rows : bioWorker before [⟨row.key, some row.secondary, none, .setAdd⟩] =
        before ++ [row] := by
        simp [bioWorker, bioApply, diskStoreSetKey, printed, ← isSet, ← value]
      rw [Container.addRow, mirrors.2.setAdd clear absent, ← rows]
      exact ⟨_, rfl, mirrors.setAdd clear absent, Skiplist.insert_ne_nil _ _ _⟩

/-- A row that fits is loaded and becomes part of what is mirrored. -/
theorem Mirrors.loadRow {v : Option Stored} {before : Table} {row : Row}
    (mirrors : Mirrors row.key v before) (fits : RowFits before row) (full : Stored.Full v) :
    ∃ w, xfiredbLoadRow v row = some w ∧ Mirrors row.key (some w) (before ++ [row]) ∧
      Stored.Full (some w) := by
  have intoContainer : ∀ kind : Kind, row.type = kind.rowType →
      ∃ w, ((XFireDB.containerFor kind v).bind (Container.addRow row)).map Stored.container =
          some w ∧
        Mirrors row.key (some w) (before ++ [row]) ∧ Stored.Full (some w) := by
    intro kind type
    obtain ⟨c, found, rfl, holds⟩ := mirrors.containerFor fits full type
    obtain ⟨c', added, mirrors', nonempty⟩ := holds.addRow fits type
    refine ⟨.container c', by rw [found, Option.bind_some, added, Option.map_some], mirrors', ?_⟩
    intro _ found
    cases found
    exact nonempty
  unfold xfiredbLoadRow
  cases type : row.type with
  | string =>
      obtain ⟨rfl, secondary⟩ := fits.string type
      obtain rfl := mirrors.eq_none full
      refine ⟨.string row.value, rfl, ?_, by simp [Stored.Full]⟩
      rw [Mirrors, List.nil_append, ← secondary, ← type]
  | list => exact intoContainer .list type
  | hashmap => exact intoContainer .hashmap type
  | set => exact intoContainer .set type

/-! ## All rows -/

/-- The database holds what the rows say, and no empty container. -/
structure MirrorsAll (db : CStr → Option Stored) (rows : Table) : Prop where
  mirror : ∀ k, Mirrors k (db k) (rowsOf k rows)
  full : ∀ k, Stored.Full (db k)

theorem mirrorsAll_empty : MirrorsAll (fun _ => none) [] :=
  ⟨fun _ => rfl, fun _ => by simp [Stored.Full]⟩

theorem MirrorsAll.loadRow {db : CStr → Option Stored} {rows : Table} {row : Row}
    (mirrored : MirrorsAll db rows) (fits : RowFits (rowsOf row.key rows) row) :
    ∃ v, xfiredbLoadRow (db row.key) row = some v ∧
      MirrorsAll (Function.update db row.key (some v)) (rows ++ [row]) := by
  obtain ⟨v, loaded, mirrors, full⟩ :=
    (mirrored.mirror row.key).loadRow fits (mirrored.full row.key)
  have local_ : ∀ k, rowsOf k (rows ++ [row]) =
      if row.key = k then rowsOf k rows ++ [row] else rowsOf k rows :=
    fun k => localTo_append (rfl : row.key = row.key) k rows
  refine ⟨v, loaded, ?_, ?_⟩
  · intro k
    rw [local_]
    rcases eq_or_ne k row.key with rfl | other
    · rw [Function.update_self, if_pos rfl]
      exact mirrors
    · rw [Function.update_of_ne other, if_neg other.symm]
      exact mirrored.mirror k
  · intro k
    rcases eq_or_ne k row.key with rfl | other
    · rw [Function.update_self]
      exact full
    · rw [Function.update_of_ne other]
      exact mirrored.full k

/-- The rows that are left can be loaded after those that came first, if together they
mirror anything. -/
theorem MirrorsAll.load {db : CStr → Option Stored} {rows : Table} (mirrored : MirrorsAll db rows)
    (after : Table) (valid : ∀ k, ∃ v, Mirrors k v (rowsOf k (rows ++ after))) :
    ∃ db', xfiredbLoad db after = some db' ∧ MirrorsAll db' (rows ++ after) := by
  induction after generalizing db rows with
  | nil => exact ⟨db, rfl, by rwa [List.append_nil]⟩
  | cons row after ih =>
      obtain ⟨v, loaded, mirrored'⟩ := mirrored.loadRow (rowFits_of_mirrored valid)
      have regroup : rows ++ row :: after = (rows ++ [row]) ++ after := by simp
      rw [regroup] at valid ⊢
      obtain ⟨db', loadedRest, all⟩ := ih mirrored' valid
      exact ⟨db', by rw [xfiredbLoad, loaded]; exact loadedRest, all⟩

/-- The table of a database is loaded into a database with the same values. -/
theorem MirrorsAll.loads {db : CStr → Option Stored} {rows : Table}
    (mirrored : MirrorsAll db rows) :
    ∃ db', xfiredbLoad (fun _ => none) rows = some db' ∧
      ∀ k, (db' k).map Stored.value = (db k).map Stored.value := by
  obtain ⟨db', loaded, mirrored'⟩ := mirrorsAll_empty.load rows fun k => ⟨_, mirrored.mirror k⟩
  refine ⟨db', loaded, fun k => ?_⟩
  rw [(mirrored'.mirror k).value_eq (mirrored'.full k),
    (mirrored.mirror k).value_eq (mirrored.full k)]
  rfl

end XFireDB
