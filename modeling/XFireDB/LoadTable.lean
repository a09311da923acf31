import XFireDB.PersistCommands
import XFireDB.Lib.Keyed

/-!
# Loading the table

`Engine#start` reads the rows in rowid order into an empty database, with the
notices switched off.  `Node.view` is what a client can see of a node; a node
and the database loaded from rows that mirror it have the same view.
-/

namespace XFireDB

open Lib Node Command

/-! ## `Engine#start` -/

/-- `@db[key] ||= Class.new`. -/
def orNew (key : RStr) (kind : Kind) : Script Unit := do
  match ← engine (.dbRef key) with
  | .nil => do
    let id ← engine (.newObj kind)
    engine (.dbStore key (.obj kind id))
  | _ => pure ()

/-- `load_string`. -/
def loadString (key data : RStr) : Script Unit := engine (.dbStore key (.str data))

/-- `load_list_entry`. -/
def loadListEntry (key data : RStr) : Script Unit := do
  orNew key .list
  match ← engine (.dbRef key) with
  | .obj .list id => engine (.listPush id data)
  | _ => pure ()

/-- `load_map_entry`. -/
def loadMapEntry (key hash data : RStr) : Script Unit := do
  orNew key .hashmap
  match ← engine (.dbRef key) with
  | .obj .hashmap id => engine (.mapStore id hash data)
  | _ => pure ()

/-- `load_set_entry`. -/
def loadSetEntry (key skey : RStr) : Script Unit := do
  orNew key .set
  match ← engine (.dbRef key) with
  | .obj .set id => do
    let _ ← engine (.setAdd id skey)
    pure ()
  | _ => pure ()

/-- `load_entry`. -/
def loadEntry (row : Row) : Script Unit :=
  match row.type with
  | .string => loadString row.key.toR row.value.toR
  | .list => loadListEntry row.key.toR row.value.toR
  | .hashmap => loadMapEntry row.key.toR row.secondary.toR row.value.toR
  | .set => loadSetEntry row.key.toR row.secondary.toR

/-- Load rows one after another; an exception or a crash ends the start. -/
def loadRows : Node → Table → Option Node
  | n, [] => some n
  | n, row :: rows =>
    match (loadEntry row).run Node.call n with
    | some (.ok (), n') => loadRows n' rows
    | _ => none

/-- A node with nothing in it. -/
def Node.empty (shard : KeyShard) (persistLevel : Nat) (loadState : Bool) : Node where
  db := fun _ => none
  objs := fun _ => none
  fresh := 0
  shard := shard
  loadState := loadState
  persistLevel := persistLevel
  queue := []

/-- `Engine#start` on a table. -/
def engineStart (shard : KeyShard) (persistLevel : Nat) (rows : Table) : Option Node :=
  (loadRows (Node.empty shard persistLevel false) rows).map fun n => { n with loadState := true }

/-! ## What a client can see -/

/-- The value of a key: hashmaps by their bindings, sets by their members. -/
inductive Value
  | string (s : CStr)
  | list (elems : List CStr)
  | hashmap (bindings : CStr → Option CStr)
  | set (members : CStr → Bool)

/-- The elements of a list value. -/
def Value.elems : Value → List CStr
  | .list elems => elems
  | _ => []

def Stored.value : Stored → Value
  | .string s => .string s
  | .container (.list elems) => .list elems
  | .container (.hashmap nodes _) =>
    .hashmap fun h => (nodes.find? fun node => node.key = h).map SkiplistNode.value
  | .container (.set nodes _) => .set fun h => (nodes.find? fun node => node.key = h).isSome

/-- The key-value view of a node. -/
def Node.view (n : Node) (k : CStr) : Option Value := (n.content k).map Stored.value

/-- The value that the rows of one key stand for. -/
def valueOfRows : Table → Option Value
  | [] => none
  | row :: rows =>
    some (match row.type with
      | .string => .string row.value
      | .list => .list ((row :: rows).map Row.value)
      | .hashmap => .hashmap fun h =>
        ((row :: rows).find? fun r => r.secondary = h).map Row.value
      | .set => .set fun h => ((row :: rows).find? fun r => r.secondary = h).isSome)

theorem Stored.Full.ne_nil {k : CStr} {c : Container} {rows : Table}
    (full : Stored.Full (some (.container c))) (mirrors : Mirrors k (some (.container c)) rows) :
    rows ≠ [] := by
  intro empty
  refine full c rfl ?_
  subst empty
  cases c with
  | list elems => exact List.map_eq_nil_iff.mp mirrors.symm
  | hashmap nodes num => exact List.map_eq_nil_iff.mp (List.nil_perm.mp mirrors.1)
  | set nodes num => exact List.map_eq_nil_iff.mp (List.nil_perm.mp mirrors.1)

/-- A lookup by secondary key finds the same in rows and in the nodes they
mirror. -/
theorem find?_rows {β γ : Type} {nodes : Skiplist β} (sorted : nodes.Sorted)
    {toRow : SkiplistNode β → Row} (secondary : ∀ node, (toRow node).secondary = node.key)
    {rows : Table} (perm : rows.Perm (nodes.map toRow)) (h : CStr) (f : Row → γ) :
    (rows.find? fun r => r.secondary = h).map f =
      (nodes.find? fun node => node.key = h).map fun node => f (toRow node) := by
  have keys : (nodes.map toRow).map Row.secondary = nodes.map SkiplistNode.key := by
    rw [List.map_map]
    exact List.map_congr_left fun node _ => secondary node
  have distinct : (rows.map Row.secondary).Nodup := by
    rw [(perm.map Row.secondary).nodup_iff, keys]
    exact sorted.nodup_keys
  have moved : rows.find? (fun r => r.secondary = h) =
      (nodes.map toRow).find? fun r => r.secondary = h := lookupKey_perm perm distinct h
  rw [moved, List.find?_map, Option.map_map]
  have samePredicate : ((fun r : Row => decide (r.secondary = h)) ∘ toRow) =
      fun node : SkiplistNode β => decide (node.key = h) := by
    funext node
    simp [secondary]
  rw [samePredicate]
  rfl

/-- The rows of a key determine its value. -/
theorem Mirrors.value_eq {k : CStr} {v : Option Stored} {rows : Table} (mirrors : Mirrors k v rows)
    (full : Stored.Full v) : v.map Stored.value = valueOfRows rows := by
  match v with
  | none =>
      rw [Mirrors] at mirrors
      subst mirrors
      rfl
  | some (.string s) =>
      rw [Mirrors] at mirrors
      subst mirrors
      rfl
  | some (.container (.list elems)) =>
      have nonempty := full.ne_nil mirrors
      rw [Mirrors] at mirrors
      subst mirrors
      cases elems with
      | nil => exact absurd rfl nonempty
      | cons e elems => simp [valueOfRows, listRow, Stored.value, Function.comp_def]
  | some (.container (.hashmap nodes num)) =>
      have nonempty := full.ne_nil mirrors
      obtain ⟨perm, clean⟩ := mirrors
      cases rows with
      | nil => exact absurd rfl nonempty
      | cons row rows =>
          obtain ⟨node, _, rowIs⟩ := List.mem_map.mp (perm.mem_iff.mp List.mem_cons_self)
          have found := fun h => find?_rows clean.sorted (fun _ => rfl) perm h Row.value
          have type : row.type = .hashmap := by rw [← rowIs, hmRow]
          simp only [valueOfRows, type, found, Option.map_some, Stored.value, hmRow]
  | some (.container (.set nodes num)) =>
      have nonempty := full.ne_nil mirrors
      obtain ⟨perm, clean⟩ := mirrors
      cases rows with
      | nil => exact absurd rfl nonempty
      | cons row rows =>
          obtain ⟨node, _, rowIs⟩ := List.mem_map.mp (perm.mem_iff.mp List.mem_cons_self)
          have found := fun h => congrArg Option.isSome
            (find?_rows clean.sorted (fun _ => rfl) perm h id)
          have type : row.type = .set := by rw [← rowIs, setRow]
          simp only [Option.map_id_fun, id, Option.isSome_map] at found
          simp only [valueOfRows, type, found, Option.map_some, Stored.value]

/-- Two nodes with the same rows look the same. -/
theorem view_eq_of_tracks {n n' : Node} {rows : Table} (tracks : n.Tracks rows)
    (full : ∀ k, Stored.Full (n.content k)) (tracks' : n'.Tracks rows)
    (full' : ∀ k, Stored.Full (n'.content k)) : n'.view = n.view := by
  funext k
  rw [Node.view, Node.view, (tracks'.mirror k).value_eq (full' k),
    (tracks.mirror k).value_eq (full k)]

/-! ## Rows that can be loaded -/

theorem Mirrors.eq_none {k : CStr} {v : Option Stored} (mirrors : Mirrors k v [])
    (full : Stored.Full v) : v = none := by
  match v with
  | none => rfl
  | some (.string s) => cases mirrors
  | some (.container c) => exact absurd rfl (full.ne_nil mirrors)

/-- The type of the rows of a stored value. -/
def Stored.rowType : Stored → RowType
  | .string _ => .string
  | .container (.list _) => .list
  | .container (.hashmap _ _) => .hashmap
  | .container (.set _ _) => .set

theorem Stored.eq_string {w : Stored} (type : w.rowType = .string) : ∃ s, w = .string s := by
  rcases w with s | (_ | _ | _)
  · exact ⟨s, rfl⟩
  all_goals cases type

theorem Stored.eq_list {w : Stored} (type : w.rowType = .list) :
    ∃ elems, w = .container (.list elems) := by
  rcases w with _ | (elems | _ | _)
  · cases type
  · exact ⟨elems, rfl⟩
  all_goals cases type

theorem Stored.eq_hashmap {w : Stored} (type : w.rowType = .hashmap) :
    ∃ nodes num, w = .container (.hashmap nodes num) := by
  rcases w with _ | (_ | ⟨nodes, num⟩ | _)
  · cases type
  · cases type
  · exact ⟨nodes, num, rfl⟩
  · cases type

theorem Stored.eq_set {w : Stored} (type : w.rowType = .set) :
    ∃ nodes num, w = .container (.set nodes num) := by
  rcases w with _ | (_ | _ | ⟨nodes, num⟩)
  · cases type
  · cases type
  · cases type
  · exact ⟨nodes, num, rfl⟩

theorem Mirrors.rowType {k : CStr} {v : Stored} {rows : Table} (mirrors : Mirrors k (some v) rows) :
    ∀ row ∈ rows, row.type = v.rowType := by
  intro row member
  match v with
  | .string s =>
      rw [Mirrors] at mirrors
      subst mirrors
      obtain rfl := List.mem_singleton.mp member
      rfl
  | .container (.list elems) =>
      rw [Mirrors] at mirrors
      subst mirrors
      obtain ⟨e, _, rfl⟩ := List.mem_map.mp member
      rfl
  | .container (.hashmap nodes num) =>
      obtain ⟨e, _, rfl⟩ := List.mem_map.mp (mirrors.1.mem_iff.mp member)
      rfl
  | .container (.set nodes num) =>
      obtain ⟨e, _, rfl⟩ := List.mem_map.mp (mirrors.1.mem_iff.mp member)
      rfl

/-- The secondary keys of rows have hashes that a skiplist can tell apart. -/
def ClearRows (before : Table) (row : Row) : Prop :=
  skiplistHash row.secondary < skiplistMaxSize ∧
    ∀ r ∈ before, skiplistHash r.secondary ≠ skiplistHash row.secondary

/-- A row of a key can be loaded after earlier rows of the key. -/
structure RowFits (before : Table) (row : Row) : Prop where
  types : ∀ r ∈ before, r.type = row.type
  string : row.type = .string → before = [] ∧ row.secondary = nullText
  list : row.type = .list → row.secondary = nullText
  hashmap : row.type = .hashmap → ClearRows before row
  set : row.type = .set → ClearRows before row ∧ row.value = nullText

theorem clearRows_of_perm {β : Type} {nodes : Skiplist β} {num : Int} (clean : nodes.Clean num)
    {toRow : SkiplistNode β → Row} (secondary : ∀ node, (toRow node).secondary = node.key)
    {before after : Table} {row : Row} (perm : (before ++ row :: after).Perm (nodes.map toRow)) :
    ClearRows before row := by
  have distinct : (before ++ row :: after).Pairwise fun a b =>
      skiplistHash a.secondary ≠ skiplistHash b.secondary := by
    refine (perm.pairwise_iff (fun differ => differ.symm)).mpr (List.pairwise_map.mpr ?_)
    refine List.Pairwise.imp ?_ clean.sorted
    intro a b smaller
    rw [secondary, secondary]
    exact ne_of_lt smaller
  refine ⟨?_, ?_⟩
  · obtain ⟨node, member, rowIs⟩ := List.mem_map.mp (perm.mem_iff.mp
      (List.mem_append_right before List.mem_cons_self))
    rw [← rowIs, secondary]
    exact clean.below node member
  · intro r member
    exact (List.pairwise_append.mp distinct).2.2 r member row List.mem_cons_self

/-- The rows of a value can be loaded in their order. -/
theorem Mirrors.rowFits {k : CStr} {v : Option Stored} {before after : Table} {row : Row}
    (mirrors : Mirrors k v (before ++ row :: after)) : RowFits before row := by
  have here : row ∈ before ++ row :: after := List.mem_append_right before List.mem_cons_self
  cases v with
  | none => exact absurd mirrors (by simp [Mirrors])
  | some w =>
      have types := mirrors.rowType
      refine ⟨?_, ?_, ?_, ?_, ?_⟩
      · intro r member
        rw [types r (List.mem_append_left _ member), types row here]
      all_goals
        intro type
        rw [types row here] at type
      · obtain ⟨s, rfl⟩ := Stored.eq_string type
        rw [Mirrors, List.append_eq_singleton_iff] at mirrors
        rcases mirrors with ⟨empty, single⟩ | ⟨_, impossible⟩
        · rw [List.cons.injEq] at single
          exact ⟨empty, by rw [single.1]⟩
        · cases impossible
      · obtain ⟨elems, rfl⟩ := Stored.eq_list type
        rw [Mirrors] at mirrors
        rw [mirrors] at here
        obtain ⟨e, _, rfl⟩ := List.mem_map.mp here
        rfl
      · obtain ⟨nodes, num, rfl⟩ := Stored.eq_hashmap type
        exact clearRows_of_perm mirrors.2 (fun _ => rfl) mirrors.1
      · obtain ⟨nodes, num, rfl⟩ := Stored.eq_set type
        obtain ⟨e, _, rfl⟩ := List.mem_map.mp (mirrors.1.mem_iff.mp here)
        exact ⟨clearRows_of_perm mirrors.2 (fun _ => rfl) mirrors.1, rfl⟩

/-- The next row of a table whose keys all mirror something fits. -/
theorem rowFits_of_mirrored {rows after : Table} {row : Row}
    (mirrored : ∀ k, ∃ v, Mirrors k v (rowsOf k (rows ++ row :: after))) :
    RowFits (rowsOf row.key rows) row := by
  obtain ⟨v, mirrors⟩ := mirrored row.key
  have split : rowsOf row.key (rows ++ row :: after) =
      rowsOf row.key rows ++ row :: rowsOf row.key after := by
    simp [rowsOf, List.filter_append]
  rw [split] at mirrors
  exact mirrors.rowFits

/-! ## Loading a row -/

namespace Node

/-- Some rows have been loaded. -/
structure Loaded (n : Node) (rows : Table) : Prop where
  tracks : n.Tracks rows
  full : ∀ k, Stored.Full (n.content k)
  silent : n.loadState = false

/-- A row of key `k` is being loaded; the key may hold an empty container. -/
structure Loading (n : Node) (k : CStr) (rows : Table) : Prop where
  tracks : n.Tracks rows
  full : ∀ k', k' ≠ k → Stored.Full (n.content k')
  silent : n.loadState = false

variable {n : Node} {k : CStr} {rows : Table}

theorem Loaded.loading (loaded : n.Loaded rows) (k : CStr) : n.Loading k rows :=
  ⟨loaded.tracks, fun k' _ => loaded.full k', loaded.silent⟩

theorem Loading.changes {n' : Node} {v : Option Stored} {ops : List BioQ}
    (loading : n.Loading k rows) (changes : Changes n n' k v ops)
    (mirrors : Mirrors k v (bioWorker (rowsOf k rows) ops))
    (through : MirrorsThrough k (rowsOf k rows) ops) (full : Stored.Full v) :
    n'.Loaded (bioWorker rows ops) where
  tracks := loading.tracks.changes changes mirrors through
  full := by
    intro k'
    rw [changes.content]
    by_cases same : k' = k
    · subst same
      rw [Function.update_self]
      exact full
    · rw [Function.update_of_ne same]
      exact loading.full k' same
  silent := by rw [changes.loadState, loading.silent]

/-- `@db[key] ||= Class.new` leaves an object of the class under the key. -/
theorem Loaded.run_orNew (loaded : n.Loaded rows) {kind : Kind}
    (here : ∀ v, n.content k = some v → ∃ c, v = .container c ∧ c.kind = kind) :
    ∃ n₁ id o, (orNew k.toR kind).run Node.call n = some (.ok (), n₁) ∧ n₁.Loading k rows ∧
      n₁.Holds k id o ∧ o.c.kind = kind := by
  have known := stringValueCStr_toR k
  rcases loaded.tracks.wf.content_cases k with ⟨missing, nothing⟩ | ⟨s, _, content⟩ | ⟨id, o, holds⟩
  · obtain ⟨n₁, allocated, wf, unplaced, content, queue, loadState, persistLevel⟩ :=
      loaded.tracks.wf.newObj kind
    obtain ⟨n₂, stored, changes, holds⟩ := wf.rbDbStore_new known unplaced
    have silent₁ : n₁.loadState = false := by rw [loadState, loaded.silent]
    have silent₂ : n₂.loadState = false := by rw [changes.loadState, silent₁]
    have tracks₁ : n₁.Tracks rows := by
      have noNotice : ¬ n₁.Persists := by
        intro persists
        rw [persists.1] at silent₁
        cases silent₁
      exact
        ⟨wf, by rw [content]; exact loaded.tracks.mirror, fun persists => absurd persists noNotice,
        fun persists => absurd persists noNotice⟩
    have noRows : rowsOf k rows = [] := by
      have mirrors := loaded.tracks.mirror k
      rw [nothing] at mirrors
      exact mirrors
    rw [content, nothing] at changes
    have tracks₂ : n₂.Tracks rows := by
      refine tracks₁.changes changes ?_ (through_deleteNotices noRows)
      rw [noRows]
      exact mirrors_alloc k kind
    refine ⟨n₂, _, _, ?_, ⟨tracks₂, ?_, silent₂⟩, holds, by cases kind <;> rfl⟩
    · refine (Prog.run_bind_ok
        (Prog.run_lift_ok (congrArg some (rbDbRef_none known missing)))).trans ?_
      refine (Prog.run_bind_ok (Prog.run_lift_ok (congrArg some allocated))).trans ?_
      exact Prog.run_lift_ok (congrArg some stored)
    · intro k' other
      rw [changes.content, Function.update_of_ne other, content]
      exact loaded.full k'
  · obtain ⟨c, isContainer, _⟩ := here _ content
    cases isContainer
  · obtain ⟨c, isContainer, isKind⟩ := here _ holds.content
    cases isContainer
    refine ⟨n, id, o, ?_, loaded.loading k, holds, isKind⟩
    exact (Prog.run_bind_ok (Prog.run_lift_ok
      (congrArg some (rbDbRef_object known holds)))).trans rfl

/-- Loading a row of a container: the class is made sure of, then `method` adds
the row's element. -/
theorem Loaded.run_container (loaded : n.Loaded rows) {row : Row}
    (fits : RowFits (rowsOf row.key rows) row) (kind : Kind)
    (ofKind : ∀ v : Stored, v.rowType = row.type → ∃ c, v = .container c ∧ c.kind = kind)
    (rest : Val → Script Unit) (q : BioQ) (added : bioWorker rows [q] = rows ++ [row])
    (method : ∀ n₁ id o, n₁.Loading row.key rows → n₁.Holds row.key id o → o.c.kind = kind →
      ∃ n₂ c, (rest (.obj kind id)).run Node.call n₁ = some (.ok (), n₂) ∧
        Changes n₁ n₂ row.key (some (.container c)) [q] ∧
        Mirrors row.key (some (.container c)) (bioWorker (rowsOf row.key rows) [q]) ∧ ¬ c.IsEmpty) :
    ∃ n₂, (do
      orNew row.key.toR kind
      let found ← engine (.dbRef row.key.toR)
      rest found : Script Unit).run Node.call n = some (.ok (), n₂) ∧
      n₂.Loaded (rows ++ [row]) := by
  have mirrors := loaded.tracks.mirror row.key
  have here : ∀ v, n.content row.key = some v → ∃ c, v = .container c ∧ c.kind = kind := by
    intro v content
    rw [content] at mirrors
    refine ofKind v ?_
    cases earlier : rowsOf row.key rows with
    | nil =>
        rw [earlier, ← content] at mirrors
        rw [mirrors.eq_none (loaded.full row.key)] at content
        cases content
    | cons r others =>
        have member : r ∈ rowsOf row.key rows := by
          rw [earlier]
          exact List.mem_cons_self
        rw [← mirrors.rowType r member, fits.types r member]
  obtain ⟨n₁, id, o, made, loading, holds, isKind⟩ := loaded.run_orNew here
  obtain ⟨n₂, c, ran, changes, mirrors', nonempty⟩ := method n₁ id o loading holds isKind
  refine ⟨n₂, ?_, ?_⟩
  · have found := rbDbRef_object (stringValueCStr_toR row.key) holds
    rw [isKind] at found
    refine (Prog.run_bind_ok made).trans ?_
    exact (Prog.run_bind_ok (Prog.run_lift_ok (congrArg some found))).trans ran
  · rw [← added]
    refine loading.changes changes mirrors' (mirrors.through_one mirrors') ?_
    intro c' same
    obtain rfl : c = c' := by simpa using same
    exact nonempty

theorem Loaded.loadString (loaded : n.Loaded rows) {row : Row}
    (fits : RowFits (rowsOf row.key rows) row) (type : row.type = .string) :
    ∃ n', (XFireDB.loadString row.key.toR row.value.toR).run Node.call n = some (.ok (), n') ∧
      n'.Loaded (rows ++ [row]) := by
  obtain ⟨noRows, secondary⟩ := fits.string type
  have mirrors := loaded.tracks.mirror row.key
  have nothing : n.content row.key = none := by
    rw [noRows] at mirrors
    exact mirrors.eq_none (loaded.full row.key)
  obtain ⟨n', stored, changes⟩ := loaded.tracks.wf.rbDbStore_string
    (stringValueCStr_toR row.key) (stringValueCStr_toR row.value)
  refine ⟨n', Prog.run_lift_ok (congrArg some stored), ?_⟩
  have after := (loaded.loading row.key).changes changes (mirrors_setNotices mirrors row.value)
    (through_setNotices mirrors row.value) (by simp [Stored.Full])
  have added : bioWorker rows (setNotices row.key row.value (n.content row.key)) =
    rows ++ [row] := by
    rw [nothing]
    simp [setNotices, deleteNotices, bioWorker, bioApply, diskStoreString, printed,
      ← secondary, ← type]
  rwa [added] at after

theorem Loaded.loadListEntry (loaded : n.Loaded rows) {row : Row}
    (fits : RowFits (rowsOf row.key rows) row) (type : row.type = .list) :
    ∃ n', (XFireDB.loadListEntry row.key.toR row.value.toR).run Node.call n = some (.ok (), n') ∧
      n'.Loaded (rows ++ [row]) := by
  refine loaded.run_container fits .list ?_ _ ⟨row.key, none, some row.value, .listAdd⟩ ?_ ?_
  · intro v isList
    rw [type] at isList
    obtain ⟨elems, rfl⟩ := Stored.eq_list isList
    exact ⟨_, rfl, rfl⟩
  · simp [bioWorker, bioApply, diskStoreListEntry, printed, ← fits.list type, ← type]
  · intro n₁ id o loading holds isKind
    cases stored : o.c with
    | list elems =>
        obtain ⟨n₂, pushed, changes, _⟩ :=
          loading.tracks.wf.rbListPush holds stored (stringValueCStr_toR row.value)
        refine ⟨n₂, _, Prog.run_lift_ok (congrArg some pushed), changes, ?_,
          by simp [Container.IsEmpty]⟩
        have mirrors := loading.tracks.mirror row.key
        rw [holds.content, stored] at mirrors
        exact mirrors.listAdd row.value
    | hashmap nodes num => rw [stored] at isKind; cases isKind
    | set nodes num => rw [stored] at isKind; cases isKind

/-- The nodes of a container whose rows came before do not collide with a row
that fits. -/
theorem hashClear_of_clearRows {β : Type} {nodes : Skiplist β} {before : Table} {row : Row}
    (clear : ClearRows before row) {toRow : SkiplistNode β → Row}
    (secondary : ∀ node, (toRow node).secondary = node.key)
    (perm : before.Perm (nodes.map toRow)) :
    nodes.HashClear row.secondary ∧ ∀ node ∈ nodes, node.key ≠ row.secondary := by
  have differ : ∀ node ∈ nodes, skiplistHash node.key ≠ skiplistHash row.secondary := by
    intro node member
    rw [← secondary]
    exact clear.2 _ (perm.mem_iff.mpr (List.mem_map_of_mem member))
  refine ⟨⟨clear.1, fun node member same => absurd same (differ node member)⟩, ?_⟩
  intro node member same
  exact differ node member (congrArg skiplistHash same)

theorem search_absent {β : Type} {nodes : Skiplist β} {num : Int} {h : CStr}
    (clean : nodes.Clean num) (clear : nodes.HashClear h) (absent : ∀ node ∈ nodes, node.key ≠ h) :
    nodes.search h = some none := by
  rw [clean.sorted.search_eq clear]
  simpa using absent

theorem Loaded.loadMapEntry (loaded : n.Loaded rows) {row : Row}
    (fits : RowFits (rowsOf row.key rows) row) (type : row.type = .hashmap) :
    ∃ n', (XFireDB.loadMapEntry row.key.toR row.secondary.toR row.value.toR).run Node.call n =
      some (.ok (), n') ∧ n'.Loaded (rows ++ [row]) := by
  refine loaded.run_container fits .hashmap ?_ _
    ⟨row.key, some row.secondary, some row.value, .hmAdd⟩ ?_ ?_
  · intro v isMap
    rw [type] at isMap
    obtain ⟨nodes, num, rfl⟩ := Stored.eq_hashmap isMap
    exact ⟨_, rfl, rfl⟩
  · simp [bioWorker, bioApply, diskStoreHmNode, printed, ← type]
  · intro n₁ id o loading holds isKind
    cases stored : o.c with
    | hashmap nodes num =>
        have mirrors := loading.tracks.mirror row.key
        rw [holds.content, stored] at mirrors
        obtain ⟨clear, absent⟩ :=
          hashClear_of_clearRows (fits.hashmap type) (fun _ => rfl) mirrors.1
        obtain ⟨n₂, added, changes, _⟩ := loading.tracks.wf.rbHashmapStore_absent holds stored
          (stringValueCStr_toR row.secondary) (stringValueCStr_toR row.value)
          (search_absent mirrors.2 clear absent)
        exact ⟨n₂, _, Prog.run_lift_ok added, changes, mirrors.hmAdd clear absent row.value,
          Skiplist.insert_ne_nil _ _ _⟩
    | list elems => rw [stored] at isKind; cases isKind
    | set nodes num => rw [stored] at isKind; cases isKind

theorem Loaded.loadSetEntry (loaded : n.Loaded rows) {row : Row}
    (fits : RowFits (rowsOf row.key rows) row) (type : row.type = .set) :
    ∃ n', (XFireDB.loadSetEntry row.key.toR row.secondary.toR).run Node.call n =
      some (.ok (), n') ∧ n'.Loaded (rows ++ [row]) := by
  obtain ⟨clearRows, value⟩ := fits.set type
  refine loaded.run_container fits .set ?_ _
    ⟨row.key, some row.secondary, none, .setAdd⟩ ?_ ?_
  · intro v isSet
    rw [type] at isSet
    obtain ⟨nodes, num, rfl⟩ := Stored.eq_set isSet
    exact ⟨_, rfl, rfl⟩
  · simp [bioWorker, bioApply, diskStoreSetKey, printed, ← type, ← value]
  · intro n₁ id o loading holds isKind
    cases stored : o.c with
    | set nodes num =>
        have mirrors := loading.tracks.mirror row.key
        rw [holds.content, stored] at mirrors
        obtain ⟨clear, absent⟩ := hashClear_of_clearRows clearRows (fun _ => rfl) mirrors.1
        obtain ⟨n₂, added, changes, _⟩ := loading.tracks.wf.rbSetAdd_absent holds stored
          (stringValueCStr_toR row.secondary) (search_absent mirrors.2 clear absent)
        refine ⟨n₂, _, ?_, changes, mirrors.setAdd clear absent,
          Skiplist.insert_ne_nil _ _ _⟩
        exact (Prog.run_bind_ok (Prog.run_lift_ok added)).trans rfl
    | list elems => rw [stored] at isKind; cases isKind
    | hashmap nodes num => rw [stored] at isKind; cases isKind

/-- One row: a row that fits is loaded and becomes part of what is mirrored. -/
theorem Loaded.loadEntry (loaded : n.Loaded rows) {row : Row}
    (fits : RowFits (rowsOf row.key rows) row) :
    ∃ n', (XFireDB.loadEntry row).run Node.call n = some (.ok (), n') ∧
      n'.Loaded (rows ++ [row]) := by
  unfold XFireDB.loadEntry
  cases type : row.type with
  | string => exact loaded.loadString fits type
  | list => exact loaded.loadListEntry fits type
  | hashmap => exact loaded.loadMapEntry fits type
  | set => exact loaded.loadSetEntry fits type

/-- All rows: what is left of a table whose keys all mirror something can be
loaded after the rows that came first. -/
theorem Loaded.loadRows (loaded : n.Loaded rows) (after : Table)
    (mirrored : ∀ k, ∃ v, Mirrors k v (rowsOf k (rows ++ after))) :
    ∃ n', XFireDB.loadRows n after = some n' ∧ n'.Loaded (rows ++ after) := by
  induction after generalizing n rows with
  | nil => exact ⟨n, rfl, by rwa [List.append_nil]⟩
  | cons row after ih =>
      obtain ⟨n₁, ran, loaded₁⟩ := loaded.loadEntry (rowFits_of_mirrored mirrored)
      have regroup : rows ++ row :: after = (rows ++ [row]) ++ after := by simp
      rw [regroup] at mirrored ⊢
      obtain ⟨n', loadedRest, after⟩ := ih loaded₁ mirrored
      exact ⟨n', by simp only [XFireDB.loadRows, ran, loadedRest], after⟩

theorem loaded_empty (shard : KeyShard) (persistLevel : Nat) :
    (Node.empty shard persistLevel false).Loaded [] where
  tracks :=
    ⟨⟨by simp [Node.empty], by simp [Node.empty]⟩, fun _ => rfl, by simp [Persists, Node.empty],
    by simp [Persists, Node.empty]⟩
  full := by
    intro k
    simp [Stored.Full, content, Node.empty]
  silent := rfl

/-- Starting the engine on the worker's table rebuilds what a sound node
holds. -/
theorem Sound.engineStart (sound : n.Sound) (shard : KeyShard) (persistLevel : Nat) :
    ∃ n', XFireDB.engineStart shard persistLevel (bioWorker [] n.queue) = some n' ∧
      n'.view = n.view := by
  obtain ⟨rows, tracks⟩ := sound.tracks
  rw [tracks.synced sound.persists]
  obtain ⟨n', ran, loaded⟩ := (loaded_empty shard persistLevel).loadRows rows
    (fun k => ⟨_, tracks.mirror k⟩)
  refine
    ⟨{ n' with loadState := true }, by simp only [XFireDB.engineStart, ran, Option.map_some], ?_⟩
  have same := view_eq_of_tracks tracks sound.full loaded.tracks loaded.full
  exact same

end Node

end XFireDB
