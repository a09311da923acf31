import XFireDB.Engine

/-!
# Rows that mirror what a key holds

`Mirrors k v rows` says that `rows` are the rows of what key `k` holds: a string
is one row, a list its rows in order, a hashmap or set one row for each node, in
any order.  Each statement of the bio worker touches the rows of one key only,
so the statements are followed key by key.
-/

namespace XFireDB

/-! ## Statements touch one key -/

/-- The rows of a key, in rowid order. -/
def rowsOf (k : CStr) (rows : Table) : Table := rows.filter fun row => row.key = k

/-- The statement changes the rows of one key and does so by looking at these
rows only. -/
def LocalTo (key : CStr) (f : Table → Table) : Prop :=
  ∀ k rows, rowsOf k (f rows) = if key = k then f (rowsOf k rows) else rowsOf k rows

theorem localTo_append {key : CStr} {row : Row} (rowKey : row.key = key) :
    LocalTo key fun rows => rows ++ [row] := by
  intro k rows
  by_cases same : key = k
  · simp [rowsOf, List.filter_append, rowKey, same]
  · simp [rowsOf, List.filter_append, rowKey, same]

theorem localTo_map {key : CStr} {f : Row → Row} (keeps : ∀ row, (f row).key = row.key)
    (elsewhere : ∀ row, row.key ≠ key → f row = row) : LocalTo key (List.map f) := by
  intro k rows
  have commute : rowsOf k (rows.map f) = (rowsOf k rows).map f := by
    rw [rowsOf, rowsOf, List.filter_map]
    congr 2
    funext row
    simp [keeps row]
  by_cases same : key = k
  · rw [commute, if_pos same]
  · rw [commute, if_neg same]
    refine (List.map_congr_left ?_).trans (List.map_id _)
    intro row member
    have rowKey : row.key = k := by simpa [rowsOf] using (List.mem_filter.mp member).2
    exact elsewhere row fun h => same (h.symm.trans rowKey)

theorem localTo_filter {key : CStr} {p : Row → Bool}
    (elsewhere : ∀ row, row.key ≠ key → p row = true) : LocalTo key (List.filter p) := by
  intro k rows
  have commute : rowsOf k (rows.filter p) = (rowsOf k rows).filter p := by
    rw [rowsOf, rowsOf, List.filter_filter, List.filter_filter]
    congr 1
    funext row
    exact Bool.and_comm _ _
  by_cases same : key = k
  · rw [commute, if_pos same]
  · rw [commute, if_neg same, List.filter_eq_self]
    intro row member
    have rowKey : row.key = k := by simpa [rowsOf] using (List.mem_filter.mp member).2
    exact elsewhere row fun h => same (h.symm.trans rowKey)

theorem rowsOf_cons (k : CStr) (row : Row) (rows : Table) :
    rowsOf k (row :: rows) = if row.key = k then row :: rowsOf k rows else rowsOf k rows := by
  simp [rowsOf, List.filter_cons]

theorem localTo_eraseP {key : CStr} {p : Row → Bool} (here : ∀ row, p row = true → row.key = key) :
    LocalTo key (List.eraseP p) := by
  intro k rows
  induction rows with
  | nil => simp [rowsOf]
  | cons row rows ih =>
      by_cases hit : p row = true
      · rw [List.eraseP_cons_of_pos hit, rowsOf_cons, here row hit]
        by_cases same : key = k
        · rw [if_pos same, if_pos same, List.eraseP_cons_of_pos hit]
        · rw [if_neg same, if_neg same]
      · rw [List.eraseP_cons_of_neg hit, rowsOf_cons, rowsOf_cons, ih]
        by_cases same : key = k
        · by_cases mine : row.key = k
          · rw [if_pos same, if_pos mine, if_pos mine, if_pos same, List.eraseP_cons_of_neg hit]
          · rw [if_pos same, if_neg mine, if_neg mine, if_pos same]
        · rw [if_neg same, if_neg same]

theorem localTo_modifyFirst {key : CStr} {p : Row → Bool} {f : Row → Row}
    (here : ∀ row, p row = true → row.key = key) (keeps : ∀ row, (f row).key = row.key) :
    LocalTo key (modifyFirst p f) := by
  intro k rows
  induction rows with
  | nil => simp [rowsOf, modifyFirst]
  | cons row rows ih =>
      by_cases hit : p row = true
      · rw [modifyFirst, if_pos hit, rowsOf_cons, rowsOf_cons, keeps, here row hit]
        by_cases same : key = k
        · rw [if_pos same, if_pos same, if_pos same, modifyFirst, if_pos hit]
        · rw [if_neg same, if_neg same, if_neg same]
      · rw [modifyFirst, if_neg hit, rowsOf_cons, rowsOf_cons, ih]
        by_cases same : key = k
        · by_cases mine : row.key = k
          · rw [if_pos same, if_pos mine, if_pos mine, if_pos same, modifyFirst, if_neg hit]
          · rw [if_pos same, if_neg mine, if_neg mine, if_pos same]
        · rw [if_neg same, if_neg same]

/-- Every statement of the worker is local to the key of its queue entry. -/
theorem localTo_bioApply (q : BioQ) : LocalTo q.key fun rows => bioApply rows q := by
  obtain ⟨key, arg, newdata, operation⟩ := q
  cases operation with
  | stringAdd => exact localTo_append rfl
  | stringUpdate =>
      refine localTo_map ?_ ?_
      · intro row
        split <;> rfl
      · intro row other
        rw [if_neg fun both => other both.1]
  | stringDel =>
      refine localTo_filter ?_
      intro row other
      simp [other]
  | listAdd => exact localTo_append rfl
  | listDel =>
      refine localTo_eraseP ?_
      intro row hit
      exact (of_decide_eq_true hit).1
  | listUpdate =>
      refine localTo_modifyFirst ?_ fun row => rfl
      intro row hit
      exact (of_decide_eq_true hit).1
  | hmAdd => exact localTo_append rfl
  | hmDel =>
      refine localTo_filter ?_
      intro row other
      simp [other]
  | hmUpdate =>
      refine localTo_map ?_ ?_
      · intro row
        split <;> rfl
      · intro row other
        rw [if_neg fun both => other both.1]
  | setAdd => exact localTo_append rfl
  | setDel =>
      refine localTo_filter ?_
      intro row other
      simp [other]

/-- Statements for one key, executed one after another. -/
theorem rowsOf_bioWorker {key : CStr} {ops : List BioQ} (forKey : ∀ q ∈ ops, q.key = key) (k : CStr)
    (rows : Table) :
    rowsOf k (bioWorker rows ops) =
      if key = k then bioWorker (rowsOf k rows) ops else rowsOf k rows := by
  unfold bioWorker
  induction ops generalizing rows with
  | nil => simp
  | cons q ops ih =>
      have qKey := forKey q List.mem_cons_self
      rw [List.foldl_cons, List.foldl_cons,
        ih fun q' member => forKey q' (List.mem_cons_of_mem q member), localTo_bioApply q, qKey]
      by_cases same : key = k
      · simp only [if_pos same]
      · simp only [if_neg same]

/-! ## The rows of a stored value -/

/-- What a key holds. -/
inductive Stored
  | string (s : CStr)
  | container (c : Container)
deriving DecidableEq

def listRow (k data : CStr) : Row := ⟨k, nullText, .list, data⟩

def hmRow (k : CStr) (node : SkiplistNode CStr) : Row := ⟨k, node.key, .hashmap, node.value⟩

def setRow (k : CStr) (node : SkiplistNode Unit) : Row := ⟨k, node.key, .set, nullText⟩

/-- A chain as hashmaps and sets keep it while no hashes collide: ordered, below
the header, and counted by `num`. -/
structure Skiplist.Clean {β : Type} (nodes : Skiplist β) (num : Int) : Prop where
  sorted : nodes.Sorted
  below : ∀ node ∈ nodes, skiplistHash node.key < skiplistMaxSize
  counted : num = int32 nodes.length

/-- The rows are those of what the key holds. -/
def Mirrors (k : CStr) : Option Stored → Table → Prop
  | none, rows => rows = []
  | some (.string s), rows => rows = [⟨k, nullText, .string, s⟩]
  | some (.container (.list elems)), rows => rows = elems.map (listRow k)
  | some (.container (.hashmap nodes num)), rows =>
    rows.Perm (nodes.map (hmRow k)) ∧ nodes.Clean num
  | some (.container (.set nodes num)), rows =>
    rows.Perm (nodes.map (setRow k)) ∧ nodes.Clean num

@[simp] theorem printed_some (s : CStr) : printed (some s) = s := rfl

/-! ## Strings -/

theorem mirrors_stringAdd (k d : CStr) :
    Mirrors k (some (.string d)) (bioWorker [] [⟨k, none, some d, .stringAdd⟩]) := rfl

theorem Mirrors.stringUpdate {k s : CStr} {rows : Table}
    (mirrors : Mirrors k (some (.string s)) rows) (d : CStr) :
    Mirrors k (some (.string d)) (bioWorker rows [⟨k, none, some d, .stringUpdate⟩]) := by
  rw [Mirrors] at mirrors
  subst mirrors
  simp [bioWorker, bioApply, diskUpdateString, Mirrors]

theorem Mirrors.stringDel {k s : CStr} {rows : Table}
    (mirrors : Mirrors k (some (.string s)) rows) :
    Mirrors k none (bioWorker rows [⟨k, none, none, .stringDel⟩]) := by
  rw [Mirrors] at mirrors
  subst mirrors
  simp [bioWorker, bioApply, diskDeleteString, Mirrors]

/-! ## Lists -/

theorem Mirrors.listAdd {k : CStr} {elems : List CStr} {rows : Table}
    (mirrors : Mirrors k (some (.container (.list elems))) rows) (d : CStr) :
    Mirrors k (some (.container (.list (elems ++ [d]))))
      (bioWorker rows [⟨k, none, some d, .listAdd⟩]) := by
  rw [Mirrors] at mirrors
  subst mirrors
  simp [bioWorker, bioApply, diskStoreListEntry, Mirrors, listRow]

theorem eraseP_listRow (k data : CStr) (elems : List CStr) :
    (elems.map (listRow k)).eraseP (isListRow k data) = (elems.erase data).map (listRow k) := by
  induction elems with
  | nil => rfl
  | cons d elems ih =>
      rw [List.map_cons]
      by_cases same : d = data
      · subst same
        rw [List.eraseP_cons_of_pos (by simp [isListRow, listRow]), List.erase_cons_head]
      · rw [List.eraseP_cons_of_neg (by simp [isListRow, listRow, same]), ih,
          List.erase_cons_tail (by simpa using same), List.map_cons]

theorem modifyFirst_listRow (k data d : CStr) (elems : List CStr) :
    modifyFirst (isListRow k data) (fun row => { row with value := d }) (elems.map (listRow k)) =
      (elems.set (elems.idxOf data) d).map (listRow k) := by
  induction elems with
  | nil => rfl
  | cons e elems ih =>
      rw [List.map_cons]
      by_cases same : e = data
      · subst same
        rw [modifyFirst, if_pos (by simp [isListRow, listRow]), List.idxOf_cons_self,
          List.set_cons_zero, List.map_cons]
        rfl
      · rw [modifyFirst, if_neg (by simp [isListRow, listRow, same]), ih,
          List.idxOf_cons_ne _ same, List.set_cons_succ, List.map_cons]

/-- The deleted row is the first with the value: the list stays in step exactly
when taking out the popped position gives the same list. -/
theorem Mirrors.listDel_iff {k : CStr} {elems : List CStr} {rows : Table}
    (mirrors : Mirrors k (some (.container (.list elems))) rows) (pos : Nat) (data : CStr) :
    Mirrors k (some (.container (.list (elems.eraseIdx pos))))
        (bioWorker rows [⟨k, some data, none, .listDel⟩]) ↔
      elems.erase data = elems.eraseIdx pos := by
  rw [Mirrors] at mirrors
  subst mirrors
  have injective : Function.Injective (listRow k) := fun a b same => (Row.mk.inj same).2.2.2
  simp only [bioWorker, List.foldl_cons, List.foldl_nil, bioApply, diskDeleteList, printed_some,
    eraseP_listRow, Mirrors]
  exact (List.map_injective_iff.mpr injective).eq_iff

theorem Mirrors.listUpdate_iff {k : CStr} {elems : List CStr} {rows : Table}
    (mirrors : Mirrors k (some (.container (.list elems))) rows) (pos : Nat) (data d : CStr) :
    Mirrors k (some (.container (.list (elems.set pos d))))
        (bioWorker rows [⟨k, some data, some d, .listUpdate⟩]) ↔
      elems.set (elems.idxOf data) d = elems.set pos d := by
  rw [Mirrors] at mirrors
  subst mirrors
  have injective : Function.Injective (listRow k) := fun a b same => (Row.mk.inj same).2.2.2
  simp only [bioWorker, List.foldl_cons, List.foldl_nil, bioApply, diskUpdateList, printed_some,
    modifyFirst_listRow, Mirrors]
  exact (List.map_injective_iff.mpr injective).eq_iff

theorem bioWorker_listClear (k : CStr) (elems : List CStr) :
    bioWorker (elems.map (listRow k)) (elems.map fun data => ⟨k, some data, none, .listDel⟩) =
      [] := by
  unfold bioWorker
  induction elems with
  | nil => rfl
  | cons d elems ih =>
      rw [List.map_cons, List.map_cons, List.foldl_cons]
      have first : bioApply (listRow k d :: elems.map (listRow k)) ⟨k, some d, none, .listDel⟩ =
          elems.map (listRow k) := by
        rw [bioApply]
        exact List.eraseP_cons_of_pos (by simp [isListRow, listRow])
      rw [first, ih]

/-! ## Hashmaps and sets -/

/-- Nodes with the same keys and hashes in the same order. -/
theorem Skiplist.Clean.setValue {nodes : Skiplist CStr} {num : Int} (clean : nodes.Clean num)
    (key data : CStr) : Skiplist.Clean (Node.setValue key data nodes) num := by
  have keys : ∀ node : SkiplistNode CStr,
      (if node.key = key then { node with value := data } else node).key = node.key := by
    intro node
    split <;> rfl
  refine ⟨?_, ?_, ?_⟩
  · rw [Skiplist.Sorted, Skiplist.SortedWith, Node.setValue, List.pairwise_map]
    have sorted : nodes.Pairwise fun a b => skiplistHash a.key < skiplistHash b.key := clean.sorted
    simpa only [keys] using sorted
  · intro node member
    obtain ⟨old, inNodes, rfl⟩ := List.mem_map.mp member
    rw [keys]
    exact clean.below old inNodes
  · rw [Node.setValue, List.length_map]
    exact clean.counted

section Linked

variable {β : Type} {nodes : Skiplist β} {num : Int} {h : CStr}

/-- A new key may be linked. -/
theorem Skiplist.Clean.insert (clean : nodes.Clean num) (clear : nodes.HashClear h)
    (absent : ∀ node ∈ nodes, node.key ≠ h) (v : β) :
    (nodes.insert h v).Clean (int32 (num + 1)) ∧ (nodes.insert h v).Perm (⟨h, v⟩ :: nodes) := by
  obtain ⟨sorted, perm⟩ := clean.sorted.insert clear absent v
  refine ⟨⟨sorted, ?_, ?_⟩, perm⟩
  · intro node member
    rcases List.mem_cons.mp (perm.mem_iff.mp member) with rfl | old
    · exact clear.1
    · exact clean.below node old
  · rw [perm.length_eq, List.length_cons, clean.counted, int32_succ]

/-- A linked key may be unlinked. -/
theorem Skiplist.Clean.of_perm_cons {node : SkiplistNode β} {rest : Skiplist β}
    (clean : nodes.Clean num) (perm : nodes.Perm (node :: rest)) (sorted : rest.Sorted) :
    rest.Clean (int32 (num - 1)) := by
  refine ⟨sorted, ?_, ?_⟩
  · intro m member
    exact clean.below m (perm.mem_iff.mpr (List.mem_cons_of_mem node member))
  · rw [clean.counted, perm.length_eq, List.length_cons, int32_pred]

end Linked

theorem Mirrors.hmAdd {k h : CStr} {nodes : Skiplist CStr} {num : Int} {rows : Table}
    (mirrors : Mirrors k (some (.container (.hashmap nodes num))) rows)
    (clear : nodes.HashClear h) (absent : ∀ node ∈ nodes, node.key ≠ h) (d : CStr) :
    Mirrors k (some (.container (.hashmap (nodes.insert h d) (int32 (num + 1)))))
      (bioWorker rows [⟨k, some h, some d, .hmAdd⟩]) := by
  obtain ⟨perm, clean⟩ := mirrors
  obtain ⟨cleanNew, linked⟩ := clean.insert clear absent d
  refine ⟨?_, cleanNew⟩
  show (rows ++ [hmRow k ⟨h, d⟩]).Perm _
  calc rows ++ [hmRow k ⟨h, d⟩]
      _ |>.Perm (hmRow k ⟨h, d⟩ :: rows) := List.perm_append_singleton _ _
      _ |>.Perm (hmRow k ⟨h, d⟩ :: nodes.map (hmRow k)) := perm.cons _
      _ |>.Perm ((nodes.insert h d).map (hmRow k)) := (linked.map (hmRow k)).symm

theorem Mirrors.hmUpdate {k : CStr} {nodes : Skiplist CStr} {num : Int} {rows : Table}
    (mirrors : Mirrors k (some (.container (.hashmap nodes num))) rows) (h d : CStr) :
    Mirrors k (some (.container (.hashmap (Node.setValue h d nodes) num)))
      (bioWorker rows [⟨k, some h, some d, .hmUpdate⟩]) := by
  obtain ⟨perm, clean⟩ := mirrors
  refine ⟨?_, clean.setValue h d⟩
  have updated : (nodes.map (hmRow k)).map (fun row =>
      if row.key = k ∧ row.secondary = h then { row with value := d } else row) =
      (Node.setValue h d nodes).map (hmRow k) := by
    rw [Node.setValue, List.map_map, List.map_map]
    refine List.map_congr_left ?_
    intro node _
    by_cases same : node.key = h
    · simp [hmRow, same]
    · simp [hmRow, same]
  rw [← updated]
  exact perm.map _

theorem Mirrors.hmDel {k : CStr} {nodes rest : Skiplist CStr} {num : Int} {rows : Table}
    {node : SkiplistNode CStr} (mirrors : Mirrors k (some (.container (.hashmap nodes num))) rows)
    (unlinked : nodes.Perm (node :: rest)) (sorted : rest.Sorted) :
    Mirrors k (some (.container (.hashmap rest (int32 (num - 1)))))
      (bioWorker rows [⟨k, some node.key, none, .hmDel⟩]) := by
  obtain ⟨perm, clean⟩ := mirrors
  refine ⟨?_, clean.of_perm_cons unlinked sorted⟩
  have all := perm.trans (unlinked.map (hmRow k))
  refine (all.filter _).trans (List.Perm.of_eq ?_)
  rw [List.map_cons, List.filter_cons_of_neg (by simp [hmRow]), List.filter_eq_self]
  intro row member
  obtain ⟨m, inRest, rfl⟩ := List.mem_map.mp member
  simp [hmRow, clean.sorted.ne_key_of_mem unlinked inRest]

theorem Mirrors.setAdd {k h : CStr} {nodes : Skiplist Unit} {num : Int} {rows : Table}
    (mirrors : Mirrors k (some (.container (.set nodes num))) rows)
    (clear : nodes.HashClear h) (absent : ∀ node ∈ nodes, node.key ≠ h) :
    Mirrors k (some (.container (.set (nodes.insert h ()) (int32 (num + 1)))))
      (bioWorker rows [⟨k, some h, none, .setAdd⟩]) := by
  obtain ⟨perm, clean⟩ := mirrors
  obtain ⟨cleanNew, linked⟩ := clean.insert clear absent ()
  refine ⟨?_, cleanNew⟩
  show (rows ++ [setRow k ⟨h, ()⟩]).Perm _
  calc rows ++ [setRow k ⟨h, ()⟩]
      _ |>.Perm (setRow k ⟨h, ()⟩ :: rows) := List.perm_append_singleton _ _
      _ |>.Perm (setRow k ⟨h, ()⟩ :: nodes.map (setRow k)) := perm.cons _
      _ |>.Perm ((nodes.insert h ()).map (setRow k)) := (linked.map (setRow k)).symm

theorem Mirrors.setDel {k : CStr} {nodes rest : Skiplist Unit} {num : Int} {rows : Table}
    {node : SkiplistNode Unit} (mirrors : Mirrors k (some (.container (.set nodes num))) rows)
    (unlinked : nodes.Perm (node :: rest)) (sorted : rest.Sorted) :
    Mirrors k (some (.container (.set rest (int32 (num - 1)))))
      (bioWorker rows [⟨k, some node.key, none, .setDel⟩]) := by
  obtain ⟨perm, clean⟩ := mirrors
  refine ⟨?_, clean.of_perm_cons unlinked sorted⟩
  have all := perm.trans (unlinked.map (setRow k))
  refine (all.filter _).trans (List.Perm.of_eq ?_)
  rw [List.map_cons, List.filter_cons_of_neg (by simp [setRow]), List.filter_eq_self]
  intro row member
  obtain ⟨m, inRest, rfl⟩ := List.mem_map.mp member
  simp [setRow, clean.sorted.ne_key_of_mem unlinked inRest]

/-! ## Clearing and creating -/

/-- Deleting statements that together hit every row leave none. -/
theorem bioWorker_eq_nil {ops : List BioQ} (gone : BioQ → Row → Prop)
    (deletes : ∀ q ∈ ops, ∀ rows, ∀ row ∈ bioApply rows q, row ∈ rows ∧ ¬ gone q row)
    {rows : Table} (all : ∀ row ∈ rows, ∃ q ∈ ops, gone q row) : bioWorker rows ops = [] := by
  have left : ∀ row ∈ bioWorker rows ops, row ∈ rows ∧ ∀ q ∈ ops, ¬ gone q row := by
    clear all
    unfold bioWorker
    induction ops generalizing rows with
    | nil => exact fun row member => ⟨member, by simp⟩
    | cons q ops ih =>
        intro row member
        obtain ⟨inRows, notLater⟩ :=
          ih (fun q' inOps => deletes q' (List.mem_cons_of_mem q inOps)) row member
        obtain ⟨inRows, notHere⟩ := deletes q List.mem_cons_self rows row inRows
        refine ⟨inRows, ?_⟩
        intro q' inOps
        rcases List.mem_cons.mp inOps with rfl | later
        · exact notHere
        · exact notLater q' later
  refine List.eq_nil_iff_forall_not_mem.mpr ?_
  intro row member
  obtain ⟨inRows, kept⟩ := left row member
  obtain ⟨q, inOps, hit⟩ := all row inRows
  exact kept q inOps hit

/-- Clearing a container deletes all its rows. -/
theorem Mirrors.clear {k : CStr} {c : Container} {rows : Table}
    (mirrors : Mirrors k (some (.container c)) rows) :
    Mirrors k none (bioWorker rows (Node.clearNotices c k)) := by
  cases c with
  | list elems =>
      rw [Mirrors] at mirrors
      rw [mirrors]
      exact bioWorker_listClear k elems
  | hashmap nodes num =>
      refine bioWorker_eq_nil
        (fun q row => row.type = .hashmap ∧ row.key = q.key ∧ row.secondary = printed q.arg) ?_ ?_
      · intro q inOps rows row member
        obtain ⟨node, _, rfl⟩ := List.mem_map.mp inOps
        exact ⟨(List.mem_filter.mp member).1, of_decide_eq_true (List.mem_filter.mp member).2⟩
      · intro row member
        obtain ⟨node, inNodes, rfl⟩ := List.mem_map.mp (mirrors.1.mem_iff.mp member)
        exact ⟨_, List.mem_map.mpr ⟨node, inNodes, rfl⟩, rfl, rfl, rfl⟩
  | set nodes num =>
      refine bioWorker_eq_nil
        (fun q row => row.type = .set ∧ row.key = q.key ∧ row.secondary = printed q.arg) ?_ ?_
      · intro q inOps rows row member
        obtain ⟨node, _, rfl⟩ := List.mem_map.mp inOps
        exact ⟨(List.mem_filter.mp member).1, of_decide_eq_true (List.mem_filter.mp member).2⟩
      · intro row member
        obtain ⟨node, inNodes, rfl⟩ := List.mem_map.mp (mirrors.1.mem_iff.mp member)
        exact ⟨_, List.mem_map.mpr ⟨node, inNodes, rfl⟩, rfl, rfl, rfl⟩

theorem Skiplist.Clean.nil {β : Type} : Skiplist.Clean ([] : Skiplist β) 0 :=
  ⟨List.Pairwise.nil, by simp, by simp⟩

/-- A new container has no rows. -/
theorem mirrors_alloc (k : CStr) (kind : Kind) :
    Mirrors k (some (.container (Container.alloc kind))) [] := by
  cases kind with
  | list => rfl
  | hashmap => exact ⟨List.Perm.nil, Skiplist.Clean.nil⟩
  | set => exact ⟨List.Perm.nil, Skiplist.Clean.nil⟩

/-! ## Beginnings of a list of statements -/

/-- The rows of every key mirror something the key could hold. -/
def Mirrored (rows : Table) : Prop := ∀ k, ∃ v, Mirrors k v (rowsOf k rows)

/-- However many of the statements are executed, the rows of the key mirror
something. -/
def MirrorsThrough (k : CStr) (rows : Table) (ops : List BioQ) : Prop :=
  ∀ j, ∃ v, Mirrors k v (bioWorker rows (ops.take j))

theorem bioWorker_append (rows : Table) (ops ops' : List BioQ) :
    bioWorker rows (ops ++ ops') = bioWorker (bioWorker rows ops) ops' :=
  List.foldl_append

theorem Mirrors.through_nil {k : CStr} {v : Option Stored} {rows : Table}
    (mirrors : Mirrors k v rows) :
    MirrorsThrough k rows [] := by
  intro j
  rw [List.take_nil]
  exact ⟨v, mirrors⟩

theorem Mirrors.through_cons {k : CStr} {v : Option Stored} {rows : Table} {q : BioQ}
    {ops : List BioQ} (mirrors : Mirrors k v rows) (rest : MirrorsThrough k (bioApply rows q) ops) :
    MirrorsThrough k rows (q :: ops) := by
  intro j
  cases j with
  | zero => exact ⟨v, mirrors⟩
  | succ j => exact rest j

theorem Mirrors.through_one {k : CStr} {v v' : Option Stored} {rows : Table} {q : BioQ}
    (mirrors : Mirrors k v rows) (after : Mirrors k v' (bioWorker rows [q])) :
    MirrorsThrough k rows [q] :=
  mirrors.through_cons after.through_nil

theorem MirrorsThrough.append {k : CStr} {rows : Table} {ops ops' : List BioQ}
    (first : MirrorsThrough k rows ops) (rest : MirrorsThrough k (bioWorker rows ops) ops') :
    MirrorsThrough k rows (ops ++ ops') := by
  intro j
  rw [List.take_append]
  rcases le_total j ops.length with inFirst | past
  · rw [Nat.sub_eq_zero_of_le inFirst, List.take_zero, List.append_nil]
    exact first j
  · rw [List.take_of_length_le past, bioWorker_append]
    exact rest (j - ops.length)

/-- Statements each of which keeps the class of what is mirrored. -/
theorem MirrorsThrough.of_each {P : Option Stored → Prop} {k : CStr} {ops : List BioQ}
    (each : ∀ q ∈ ops, ∀ v rows, P v → Mirrors k v rows →
      ∃ v', P v' ∧ Mirrors k v' (bioApply rows q))
    {v : Option Stored} {rows : Table} (here : P v) (mirrors : Mirrors k v rows) :
    MirrorsThrough k rows ops := by
  induction ops generalizing v rows with
  | nil => exact mirrors.through_nil
  | cons q ops ih =>
      obtain ⟨v', here', mirrors'⟩ := each q List.mem_cons_self v rows here mirrors
      apply mirrors.through_cons
      exact ih (fun q' later => each q' (List.mem_cons_of_mem q later)) here' mirrors'

theorem Skiplist.Clean.filter {β : Type} {nodes : Skiplist β} {num : Int} (clean : nodes.Clean num)
    (p : SkiplistNode β → Bool) :
    Skiplist.Clean (nodes.filter p) (int32 (nodes.filter p).length) where
  sorted := clean.sorted.filter p
  below := fun node member => clean.below node (List.mem_of_mem_filter member)
  counted := rfl

/-- The rows of a hashmap without a key are those of the smaller hashmap. -/
theorem Mirrors.hmDel_filter {k : CStr} {nodes : Skiplist CStr} {num : Int} {rows : Table}
    (mirrors : Mirrors k (some (.container (.hashmap nodes num))) rows) (h : CStr) :
    Mirrors k (some (.container (.hashmap (nodes.filter fun node => node.key ≠ h)
        (int32 (nodes.filter fun node => node.key ≠ h).length))))
      (bioApply rows ⟨k, some h, none, .hmDel⟩) := by
  refine ⟨?_, mirrors.2.filter _⟩
  show (rows.filter _).Perm _
  apply (mirrors.1.filter _).trans
  rw [List.filter_map]
  apply List.Perm.of_eq
  apply congrArg (List.map (hmRow k))
  apply List.filter_congr
  intro node _
  exact decide_eq_decide.mpr (by simp [hmRow])

theorem Mirrors.setDel_filter {k : CStr} {nodes : Skiplist Unit} {num : Int} {rows : Table}
    (mirrors : Mirrors k (some (.container (.set nodes num))) rows) (h : CStr) :
    Mirrors k (some (.container (.set (nodes.filter fun node => node.key ≠ h)
        (int32 (nodes.filter fun node => node.key ≠ h).length))))
      (bioApply rows ⟨k, some h, none, .setDel⟩) := by
  refine ⟨?_, mirrors.2.filter _⟩
  show (rows.filter _).Perm _
  apply (mirrors.1.filter _).trans
  rw [List.filter_map]
  apply List.Perm.of_eq
  apply congrArg (List.map (setRow k))
  apply List.filter_congr
  intro node _
  exact decide_eq_decide.mpr (by simp [setRow])

/-- A clear that is cut off leaves a smaller container. -/
theorem Mirrors.through_clear {k : CStr} {c : Container} {rows : Table}
    (mirrors : Mirrors k (some (.container c)) rows) :
    MirrorsThrough k rows (Node.clearNotices c k) := by
  cases c with
  | list elems =>
      apply MirrorsThrough.of_each (P := fun v => ∃ elems, v = some (.container (.list elems)))
        ?_ ⟨elems, rfl⟩ mirrors
      intro q inOps v rows here mirrors
      obtain ⟨data, _, rfl⟩ := List.mem_map.mp inOps
      obtain ⟨elems, rfl⟩ := here
      refine ⟨_, ⟨elems.erase data, rfl⟩, ?_⟩
      rw [show rows = elems.map (listRow k) from mirrors]
      exact eraseP_listRow k data elems
  | hashmap nodes num =>
      apply MirrorsThrough.of_each
        (P := fun v => ∃ nodes num, v = some (.container (.hashmap nodes num)))
        ?_ ⟨nodes, num, rfl⟩ mirrors
      intro q inOps v rows here mirrors
      obtain ⟨node, _, rfl⟩ := List.mem_map.mp inOps
      obtain ⟨nodes, num, rfl⟩ := here
      exact ⟨_, ⟨_, _, rfl⟩, mirrors.hmDel_filter node.key⟩
  | set nodes num =>
      apply MirrorsThrough.of_each
        (P := fun v => ∃ nodes num, v = some (.container (.set nodes num)))
        ?_ ⟨nodes, num, rfl⟩ mirrors
      intro q inOps v rows here mirrors
      obtain ⟨node, _, rfl⟩ := List.mem_map.mp inOps
      obtain ⟨nodes, num, rfl⟩ := here
      exact ⟨_, ⟨_, _, rfl⟩, mirrors.setDel_filter node.key⟩

end XFireDB
