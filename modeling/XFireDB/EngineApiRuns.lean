import XFireDB.EngineLoad

/-!
# Runs of the C interface

Every write queues a statement for the disk.  The statements mirror the write unless an
entry is pushed on the left, or appended because its index is missing, or is not the
first of its value in a list, or a container is too large for its counter, or a key is
deleted with a list of several entries.
-/

namespace XFireDB

/-- The calls that write. -/
def ApiCall.writes : ApiCall → Bool
  | .stringSet _ _ => true
  | .listPush _ _ _ => true
  | .listSet _ _ _ => true
  | .listPop _ _ => true
  | .hashmapSet _ _ _ => true
  | .hashmapRemove _ _ => true
  | .keyDelete _ => true
  | _ => false

/-- The strings of a call. -/
def ApiCall.strings : ApiCall → List CStr
  | .stringGet key => [key]
  | .stringSet key str => [key, str]
  | .listLength key => [key]
  | .listPop key _ => [key]
  | .listGet key _ => [key]
  | .listSet key _ data => [key, data]
  | .listPush key data _ => [key, data]
  | .hashmapGet key skeys => key :: skeys
  | .hashmapRemove key skeys => key :: skeys
  | .hashmapSet key skey data => [key, skey, data]
  | .keyDelete key => [key]

/-- The engine copies the strings of the call whole. -/
def ApiCall.Short (c : ApiCall) : Prop := ∀ s ∈ c.strings, s.Short

instance ApiCall.decidableShort (c : ApiCall) : Decidable c.Short :=
  inferInstanceAs (Decidable (∀ s ∈ c.strings, s.Short))

/-! ## Calls whose statements mirror them -/

/-- What is left of a container is not taken for nothing. -/
def Counted {α : Type} (left : List α) : Prop := left = [] ∨ 0 < int32 left.length

/-- Popping takes out only entries whose rows are the first with their values. -/
def PopsFirst : List CStr → List CStr → Int → List Int → Prop
  | kept, [], _, _ => Counted kept
  | _, _ :: _, _, [] => False
  | kept, x :: rest, i, k :: idx =>
    let k := EngineState.fromEnd (listLength (kept ++ x :: rest)) k
    if k = i then
      (kept ++ x :: rest).erase x = kept ++ rest ∧
        (if idx = [] then Counted (kept ++ rest) else PopsFirst kept rest (int32 (i + 1)) idx)
    else PopsFirst (kept ++ [x]) rest (int32 (i + 1)) (k :: idx)

/-- The entry with the index is reached, and its row is the first with its value. -/
def SetsFirst (elems : List CStr) (idx : Int) (data : CStr) : Prop :=
  ∃ (pos : Nat) (old : CStr), idx = pos ∧ elems[pos]? = some old ∧
    (pos = 0 ∨ pos < listLength elems) ∧
    elems.set (elems.idxOf old) data = elems.set pos data

/-- The sub-keys collide with no others, and what is left is not taken for nothing. -/
def Removable : Skiplist CStr → List CStr → Prop
  | nodes, [] => nodes = [] ∨ int32 nodes.length ≠ 0
  | nodes, skey :: skeys =>
    nodes.HashClear skey ∧ Removable (nodes.filter fun node => node.key ≠ skey) skeys

namespace EngineState

/-- The statements of the call mirror it. -/
def Rowwise (e : EngineState) : ApiCall → Prop
  | .listPush key data left => left = true → ∀ elems, e.db key = some (.container (.list elems)) →
      ∀ x ∈ elems, x = data
  | .listSet key idx data => ∀ elems, e.db key = some (.container (.list elems)) →
      listLength elems = 0 ∨ SetsFirst elems idx data
  | .listPop key idx => ∀ elems, e.db key = some (.container (.list elems)) →
      PopsFirst [] elems 0 idx
  | .hashmapSet key skey _ => match e.db key with
    | none => skiplistHash skey < skiplistMaxSize
    | some (.container (.hashmap nodes _)) => nodes.HashClear skey
    | some _ => True
  | .hashmapRemove key skeys => ∀ nodes num, e.db key = some (.container (.hashmap nodes num)) →
      Removable nodes skeys
  | .keyDelete key => ∀ elems, e.db key = some (.container (.list elems)) → elems.length ≤ 1
  | _ => True

/-- Calls one after another; a crash ends the run. -/
def run (e : EngineState) : List ApiCall → Option EngineState
  | [] => some e
  | c :: calls =>
    match e.call c with
    | some (_, e) => run e calls
    | none => none

/-- The statements of every call of a run mirror it, and its strings are copied whole. -/
def RunRowwise (e : EngineState) : List ApiCall → Prop
  | [] => True
  | c :: calls =>
    c.Short ∧ e.Rowwise c ∧ ∀ rv e', e.call c = some (rv, e') → RunRowwise e' calls

/-- The engine before the first call. -/
def start (persistLevel : Nat) : EngineState := ⟨fun _ => none, persistLevel, [], []⟩

/-! ## What is kept -/

/-- The table mirrors the database, each queued entry has a key of its own, and there are
no sets. -/
structure Mirrored (e : EngineState) : Prop where
  level : e.persistLevel < 3
  blocks : e.keyBlocks = List.range e.queue.length
  rows : MirrorsAll e.db (bioWorker [] e.queue)
  noSet : ∀ k nodes num, e.db k ≠ some (.container (.set nodes num))

variable {e e' : EngineState} {key : CStr}

theorem mirrored_start {persistLevel : Nat} (small : persistLevel < 3) :
    (start persistLevel).Mirrored :=
  ⟨small, rfl, mirrorsAll_empty, fun _ _ _ => by simp [start]⟩

/-- The worker empties the queue exactly if no two entries share a key, and none of the
keys has been freed. -/
theorem bioDrain_eq_some_iff {rows rows' : Table} {freed : List Nat} {queue : List BioQ}
    {blocks : List Nat} (len : queue.length = blocks.length) :
    bioDrain rows freed (queue.zip blocks) = some rows' ↔
      (blocks.Nodup ∧ ∀ block ∈ blocks, block ∉ freed) ∧ bioWorker rows queue = rows' := by
  induction queue generalizing rows freed blocks with
  | nil =>
      obtain rfl := List.length_eq_zero_iff.mp len.symm
      simp [bioDrain, bioWorker]
  | cons q queue ih =>
      cases blocks with
      | nil => cases len
      | cons block blocks =>
          have rest : bioWorker rows (q :: queue) = bioWorker (bioApply rows q) queue := rfl
          rw [List.zip_cons_cons, bioDrain, rest, List.nodup_cons, List.forall_mem_cons]
          split
          · rename_i again
            refine iff_of_false (fun none => by cases none) ?_
            intro found
            obtain ⟨⟨-, fresh, -⟩, -⟩ := found
            exact fresh again
          · rename_i fresh
            rw [ih (Nat.succ.inj len)]
            refine and_congr_left fun _ => ?_
            simp only [List.mem_cons, not_or, fresh, not_false_eq_true, true_and]
            constructor
            · intro found
              obtain ⟨nodup, other⟩ := found
              exact ⟨⟨fun member => (other block member).1 rfl, nodup⟩,
                fun b member => (other b member).2⟩
            · intro found
              obtain ⟨⟨new, nodup⟩, other⟩ := found
              exact ⟨nodup, fun b member => ⟨fun same => new (same ▸ member), other b member⟩⟩

theorem Mirrored.drained (mirrored : e.Mirrored) : e.drained = some (bioWorker [] e.queue) := by
  have len : e.queue.length = e.keyBlocks.length := by rw [mirrored.blocks, List.length_range]
  refine (bioDrain_eq_some_iff len).mpr ⟨⟨?_, fun _ _ => List.not_mem_nil⟩, rfl⟩
  rw [mirrored.blocks]
  exact List.nodup_range

/-- One key has been written, and statements for it have been queued. -/
structure Wrote (e : EngineState) (key : CStr) (v : Option Stored) (ops : List BioQ)
    (e' : EngineState) : Prop where
  level : e'.persistLevel = e.persistLevel
  db : e'.db = Function.update e.db key v
  queue : e'.queue = e.queue ++ ops
  blocks : e'.keyBlocks = e.keyBlocks ++ List.range' e.keyBlocks.length ops.length
  forKey : ∀ q ∈ ops, q.key = key

theorem bioQueueAdd_of_lt (level : e.persistLevel < 3) (q : BioQ) :
    e.bioQueueAdd q =
      { e with queue := e.queue ++ [q], keyBlocks := e.keyBlocks ++ [e.keyBlocks.length] } :=
  if_neg (Nat.not_le.mpr level)

theorem bioQueueAll_of_lt (level : e.persistLevel < 3) (ops : List BioQ) :
    e.bioQueueAll ops =
      { e with
        queue := e.queue ++ ops
        keyBlocks := e.keyBlocks ++ List.range' e.keyBlocks.length ops.length } := by
  induction ops generalizing e with
  | nil => simp [bioQueueAll]
  | cons q ops ih =>
      have first := bioQueueAdd_of_lt level q
      have later := @ih (e.bioQueueAdd q) (by rw [first]; exact level)
      rw [bioQueueAll, List.foldl_cons, ← bioQueueAll, later, first]
      simp [List.range'_succ]

/-- One entry has a key of its own even where several would share it. -/
theorem bioQueueShared_of_le (level : e.persistLevel < 3) {ops : List BioQ} (few : ops.length ≤ 1) :
    e.bioQueueShared ops = some (e.bioQueueAll ops) := by
  rw [bioQueueShared, if_neg (Nat.not_le.mpr level), bioQueueAll_of_lt level]
  cases ops with
  | nil => rfl
  | cons q ops =>
      obtain rfl := List.length_eq_zero_iff.mp (Nat.le_zero.mp (Nat.le_of_succ_le_succ few))
      rfl

/-- Writing keeps the table in step if its statements do. -/
theorem Mirrored.wrote (mirrored : e.Mirrored) {v : Option Stored} {ops : List BioQ}
    (wrote : e.Wrote key v ops e')
    (mirrors : ∀ rows, Mirrors key (e.db key) rows → Mirrors key v (bioWorker rows ops))
    (full : Stored.Full v) (noSet : ∀ nodes num, v ≠ some (.container (.set nodes num))) :
    e'.Mirrored := by
  have worked : bioWorker [] e'.queue = bioWorker (bioWorker [] e.queue) ops := by
    rw [wrote.queue, bioWorker, List.foldl_append]
    rfl
  have blocks : e'.keyBlocks = List.range e'.queue.length := by
    rw [wrote.blocks, mirrored.blocks, wrote.queue, List.length_append, List.length_range,
      List.range_eq_range', List.range_eq_range', ← List.range'_append_1, Nat.zero_add]
  refine ⟨by rw [wrote.level]; exact mirrored.level, blocks, ⟨?_, ?_⟩, ?_⟩
  · intro k
    rw [worked, rowsOf_bioWorker wrote.forKey, wrote.db]
    rcases eq_or_ne k key with rfl | other
    · rw [Function.update_self, if_pos rfl]
      exact mirrors _ (mirrored.rows.mirror k)
    · rw [Function.update_of_ne other, if_neg other.symm]
      exact mirrored.rows.mirror k
  · intro k
    rw [wrote.db]
    rcases eq_or_ne k key with rfl | other
    · rw [Function.update_self]
      exact full
    · rw [Function.update_of_ne other]
      exact mirrored.rows.full k
  · intro k
    rw [wrote.db]
    rcases eq_or_ne k key with rfl | other
    · rw [Function.update_self]
      exact noSet
    · rw [Function.update_of_ne other]
      exact mirrored.noSet k

theorem wrote_all (level : e.persistLevel < 3) (key : CStr) (v : Option Stored) {ops : List BioQ}
    (forKey : ∀ q ∈ ops, q.key = key) :
    e.Wrote key v ops ((e.setDb key v).bioQueueAll ops) := by
  have levelSet : (e.setDb key v).persistLevel < 3 := level
  rw [bioQueueAll_of_lt levelSet]
  exact ⟨rfl, rfl, rfl, rfl, forKey⟩

theorem wrote_add (level : e.persistLevel < 3) (key : CStr) (v : Option Stored) {q : BioQ}
    (forKey : q.key = key) : e.Wrote key v [q] ((e.setDb key v).bioQueueAdd q) :=
  wrote_all level key v (by simpa using forKey)

theorem setDb_bioQueueAdd (e : EngineState) (key : CStr) (v : Option Stored) (q : BioQ) :
    (e.bioQueueAdd q).setDb key v = (e.setDb key v).bioQueueAdd q := by
  unfold bioQueueAdd setDb
  split <;> rfl

/-! ## Strings -/

theorem Mirrored.stringSet (mirrored : e.Mirrored) (key str : CStr) :
    (e.xfiredbStringSet key str).2.Mirrored := by
  have full : Stored.Full (some (.string str)) := by simp [Stored.Full]
  have noSet : ∀ nodes num, some (Stored.string str) ≠ some (.container (.set nodes num)) := by simp
  unfold xfiredbStringSet
  split
  · exact mirrored
  · rename_i s stored
    refine mirrored.wrote (wrote_add mirrored.level key _ rfl) ?_ full noSet
    intro rows mirrors
    rw [stored] at mirrors
    exact mirrors.stringUpdate str
  · rename_i stored
    refine mirrored.wrote (wrote_add mirrored.level key _ rfl) ?_ full noSet
    intro rows mirrors
    rw [stored, Mirrors] at mirrors
    subst mirrors
    exact mirrors_stringAdd key str

/-! ## Lists -/

theorem full_list {elems : List CStr} (nonempty : elems ≠ []) :
    Stored.Full (some (.container (.list elems))) := by
  intro c found
  cases found
  exact nonempty

/-- An entry at the end of a list, or in a new list. -/
theorem Mirrored.append (mirrored : e.Mirrored) {elems : List CStr}
    (stored : ∀ rows, Mirrors key (e.db key) rows →
      Mirrors key (some (.container (.list elems))) rows)
    (data : CStr) :
    ((e.setDb key (some (.container (.list (elems ++ [data]))))).bioQueueAdd
      ⟨key, none, some data, .listAdd⟩).Mirrored := by
  refine mirrored.wrote (wrote_add mirrored.level key _ rfl) ?_ (full_list (by simp)) (by simp)
  intro rows mirrors
  exact (stored rows mirrors).listAdd data

theorem mirrors_newList (key : CStr) {rows : Table} (mirrors : Mirrors key none rows) :
    Mirrors key (some (.container (.list []))) rows := by
  rw [Mirrors] at mirrors
  subst mirrors
  exact mirrors_alloc key .list

/-- Both ends of a list of equal entries are the same end. -/
theorem cons_eq_append {data : CStr} {elems : List CStr} (equal : ∀ x ∈ elems, x = data) :
    data :: elems = elems ++ [data] := by
  rw [List.eq_replicate_of_mem equal, ← List.replicate_succ', ← List.replicate_succ]

theorem pushOnto_rowwise {data : CStr} {left : Bool} {elems : List CStr}
    (equal : left = true → ∀ x ∈ elems, x = data) (key : CStr) :
    e.pushOnto key data left elems =
      (e.setDb key (some (.container (.list (elems ++ [data]))))).bioQueueAdd
        ⟨key, none, some data, .listAdd⟩ := by
  rw [pushOnto, setDb_bioQueueAdd]
  cases left with
  | false => rfl
  | true => rw [if_pos rfl, cons_eq_append (equal rfl)]

theorem Mirrored.listPush (mirrored : e.Mirrored) {key data : CStr} {left : Bool}
    (rowwise : e.Rowwise (.listPush key data left)) :
    (e.xfiredbListPush key data left).2.Mirrored := by
  unfold xfiredbListPush
  split
  · rename_i stored
    have none : left = true → ∀ x ∈ ([] : List CStr), x = data := by simp
    rw [pushOnto_rowwise none]
    refine mirrored.append ?_ data
    intro rows mirrors
    rw [stored] at mirrors
    exact mirrors_newList key mirrors
  · rename_i elems stored
    rw [pushOnto_rowwise fun isLeft => rowwise isLeft elems stored]
    refine mirrored.append ?_ data
    intro rows mirrors
    rwa [stored] at mirrors
  · exact mirrored

/-- The loop reaches the head of the list, and every entry before its count. -/
theorem listSetLoop_eq {len : Int} (bound : len < 2 ^ 31) {pos : Nat} {old : CStr} (data : CStr)
    {kept rest : List CStr} (found : (kept ++ rest)[pos]? = some old) (ahead : kept.length ≤ pos)
    (reached : pos = kept.length ∨ pos < len) :
    listSetLoop len pos data kept rest kept.length =
      .update old ((kept ++ rest).set pos data) := by
  induction rest generalizing kept with
  | nil =>
      rw [List.append_nil, List.getElem?_eq_none ahead] at found
      cases found
  | cons x rest ih =>
      rcases eq_or_ne pos kept.length with rfl | further
      · rw [List.getElem?_append_right le_rfl, Nat.sub_self, List.getElem?_cons_zero] at found
        cases found
        rw [listSetLoop, if_pos rfl, List.set_append_right _ _ le_rfl, Nat.sub_self,
          List.set_cons_zero]
      · have next : (kept ++ [x]).length = kept.length + 1 := by simp
        have short : (pos : Int) < len := by omega
        have step : int32 (kept.length + 1) = (kept ++ [x]).length := by
          rw [int32_of_small (by omega) (by omega), next]
          rfl
        have regroup : kept ++ x :: rest = (kept ++ [x]) ++ rest := by simp
        rw [listSetLoop, if_neg (by omega), step, if_neg (by omega), regroup]
        rw [regroup] at found
        exact ih found (by omega) (Or.inr short)

theorem Mirrored.listSet (mirrored : e.Mirrored) {key data : CStr} {idx : Int}
    (rowwise : e.Rowwise (.listSet key idx data)) :
    (e.xfiredbListSet key idx data).2.Mirrored := by
  unfold xfiredbListSet
  split
  · exact mirrored.listPush fun isLeft => by cases isLeft
  · rename_i elems stored
    split
    · refine mirrored.append ?_ data
      intro rows mirrors
      rwa [stored] at mirrors
    · rename_i counted
      rcases rowwise elems stored with none | ⟨pos, old, rfl, found, reached, first⟩
      · exact absurd none counted
      · have looped : listSetLoop (listLength elems) pos data [] elems 0 =
            .update old (elems.set pos data) :=
          listSetLoop_eq (int32_lt elems.length) data found (Nat.zero_le pos) reached
        rw [looped]
        dsimp only
        rw [setDb_bioQueueAdd]
        refine mirrored.wrote (wrote_add mirrored.level key _ rfl) ?_ (full_list ?_) (by simp)
        · intro rows mirrors
          rw [stored] at mirrors
          exact (mirrors.listUpdate_iff pos old data).mpr first
        · intro empty
          rw [List.set_eq_nil_iff] at empty
          rw [empty] at found
          cases found
  · exact mirrored

/-- Popping entries whose rows are first keeps the rows in step with the list. -/
theorem listPopLoop_mirrors {kept rest : List CStr} {i : Int} {idx : List Int}
    (first : PopsFirst kept rest i idx) (key : CStr) :
    ∃ left popped idx', listPopLoop kept rest i idx = some (left, popped, idx') ∧ Counted left ∧
      ∀ rows, Mirrors key (some (.container (.list (kept ++ rest)))) rows →
        Mirrors key (some (.container (.list left))) (bioWorker rows (popNotices key popped)) := by
  induction rest generalizing kept i idx with
  | nil =>
      refine ⟨kept, [], idx, by rw [listPopLoop], first, ?_⟩
      intro rows mirrors
      rwa [List.append_nil] at mirrors
  | cons x rest ih =>
      cases idx with
      | nil => exact first.elim
      | cons k idx =>
          rw [PopsFirst] at first
          rw [listPopLoop]
          -- the row of the popped entry goes
          have popRow : (kept ++ x :: rest).erase x = kept ++ rest → ∀ rows,
              Mirrors key (some (.container (.list (kept ++ x :: rest)))) rows →
              Mirrors key (some (.container (.list (kept ++ rest))))
                (bioWorker rows [⟨key, some x, none, .listDel⟩]) := by
            intro isFirst rows mirrors
            have position : (kept ++ x :: rest).eraseIdx kept.length = kept ++ rest := by
              rw [List.eraseIdx_append_of_length_le le_rfl, Nat.sub_self, List.eraseIdx_cons_zero]
            rw [← position]
            exact (mirrors.listDel_iff kept.length x).mpr (isFirst.trans position.symm)
          split at first
          · rename_i hit
            obtain ⟨isFirst, later⟩ := first
            rw [if_pos hit]
            split at later
            · rename_i last
              rw [if_pos last]
              exact ⟨_, _, _, rfl, later, popRow isFirst⟩
            · rename_i more
              obtain ⟨left, popped, idx', looped, counted, mirrors⟩ := ih later
              rw [if_neg more, looped]
              refine ⟨left, x :: popped, _, rfl, counted, ?_⟩
              intro rows before
              exact mirrors _ (popRow isFirst rows before)
          · rename_i miss
            rw [if_neg miss]
            obtain ⟨left, popped, idx', looped, counted, mirrors⟩ := ih first
            refine ⟨left, popped, idx', looped, counted, ?_⟩
            intro rows before
            rw [List.append_assoc, List.singleton_append] at mirrors
            exact mirrors rows before

theorem Mirrored.listPop (mirrored : e.Mirrored) {key : CStr} {idx : List Int}
    (rowwise : e.Rowwise (.listPop key idx)) :
    ∃ rv idx' e', e.xfiredbListPop key idx = some (rv, idx', e') ∧ e'.Mirrored := by
  unfold xfiredbListPop
  split
  · exact ⟨_, _, e, rfl, mirrored⟩
  · rename_i elems stored
    obtain ⟨left, popped, idx', looped, counted, mirrors⟩ :=
      listPopLoop_mirrors (rowwise elems stored) key
    refine ⟨popped.length, idx', _, by rw [looped]; rfl, ?_⟩
    have forKey : ∀ q ∈ popNotices key popped, q.key = key := by
      intro q member
      obtain ⟨data, _, rfl⟩ := List.mem_map.mp member
      rfl
    have inStep : ∀ rows, Mirrors key (e.db key) rows →
        Mirrors key (some (.container (.list left))) (bioWorker rows (popNotices key popped)) := by
      intro rows before
      rw [stored] at before
      exact mirrors rows before
    rcases counted with rfl | more
    · have nothing : listLength [] ≤ 0 := by decide
      rw [if_pos nothing]
      exact mirrored.wrote (wrote_all mirrored.level key none forKey) inStep (by simp [Stored.Full])
        (by simp)
    · have positive : ¬ listLength left ≤ 0 := Int.not_le.mpr more
      rw [if_neg positive]
      refine mirrored.wrote (wrote_all mirrored.level key _ forKey) inStep (full_list ?_) (by simp)
      intro same
      obtain rfl := same
      cases more
  · exact ⟨_, _, e, rfl, mirrored⟩

/-! ## Hashmaps -/

theorem full_hashmap {nodes : Skiplist CStr} {num : Int} (nonempty : nodes ≠ []) :
    Stored.Full (some (.container (.hashmap nodes num))) := by
  intro c found
  cases found
  exact nonempty

theorem Mirrored.setIn (mirrored : e.Mirrored) {nodes : Skiplist CStr} {num : Int}
    (stored : ∀ rows, Mirrors key (e.db key) rows →
      Mirrors key (some (.container (.hashmap nodes num))) rows)
    {skey : CStr} (clear : nodes.HashClear skey) (data : CStr) :
    ∃ e', e.setIn key skey data nodes num = some e' ∧ e'.Mirrored := by
  have clean : nodes.Clean num := (stored _ (mirrored.rows.mirror key)).2
  rw [EngineState.setIn, clean.sorted.search_eq clear, Option.map_some]
  refine ⟨_, rfl, ?_⟩
  cases found : nodes.find? fun node => node.key = skey with
  | none =>
      have absent : ∀ node ∈ nodes, node.key ≠ skey := by simpa using List.find?_eq_none.mp found
      dsimp only
      rw [setDb_bioQueueAdd]
      refine mirrored.wrote (wrote_add mirrored.level key _ rfl) ?_
        (full_hashmap (Skiplist.insert_ne_nil _ _ _)) (by simp)
      intro rows mirrors
      exact (stored rows mirrors).hmAdd clear absent data
  | some node =>
      dsimp only
      rw [setDb_bioQueueAdd]
      refine mirrored.wrote (wrote_add mirrored.level key _ rfl) ?_ (full_hashmap ?_) (by simp)
      · intro rows mirrors
        exact (stored rows mirrors).hmUpdate skey data
      · intro empty
        rw [List.map_eq_nil_iff.mp empty] at found
        cases found

theorem Mirrored.hashmapSet (mirrored : e.Mirrored) {key skey data : CStr}
    (rowwise : e.Rowwise (.hashmapSet key skey data)) :
    ∃ rv e', e.xfiredbHashmapSet key skey data = some (rv, e') ∧ e'.Mirrored := by
  rw [Rowwise] at rowwise
  unfold xfiredbHashmapSet
  split
  · rename_i stored
    rw [stored] at rowwise
    have clear : Skiplist.HashClear ([] : Skiplist CStr) skey := ⟨rowwise, by simp⟩
    have new : ∀ rows, Mirrors key (e.db key) rows →
        Mirrors key (some (.container (.hashmap [] 0))) rows := by
      intro rows mirrors
      rw [stored, Mirrors] at mirrors
      subst mirrors
      exact mirrors_alloc key .hashmap
    obtain ⟨e', set, mirrored'⟩ := mirrored.setIn new clear data
    exact ⟨_, e', by rw [set]; rfl, mirrored'⟩
  · rename_i nodes num stored
    rw [stored] at rowwise
    have same : ∀ rows, Mirrors key (e.db key) rows →
        Mirrors key (some (.container (.hashmap nodes num))) rows := by
      intro rows mirrors
      rwa [stored] at mirrors
    obtain ⟨e', set, mirrored'⟩ := mirrored.setIn same rowwise data
    exact ⟨_, e', by rw [set]; rfl, mirrored'⟩
  · exact ⟨_, e, rfl, mirrored⟩

/-- Without a collision the node of the sub-key is unlinked, if there is one. -/
theorem delete_eq_filter {nodes : Skiplist CStr} (sorted : nodes.Sorted) {skey : CStr}
    (clear : nodes.HashClear skey) :
    (∃ node, node.key = skey ∧ nodes.search skey = some (some node) ∧
      nodes.delete skey = some (some (nodes.filter fun node => node.key ≠ skey)) ∧
      nodes.Perm (node :: nodes.filter fun node => node.key ≠ skey)) ∨
    nodes.search skey = some none ∧ nodes.delete skey = some none ∧
      (nodes.filter fun node => node.key ≠ skey) = nodes := by
  rw [sorted.search_eq clear]
  rcases sorted.delete clear with
    ⟨node, rest, found, deleted, perm, sortedRest⟩ | ⟨missing, deleted⟩
  · left
    obtain rfl : node.key = skey := by simpa using List.find?_some found
    rw [sorted.filter_ne_key perm sortedRest, found, deleted]
    exact ⟨node, rfl, rfl, rfl, perm⟩
  · right
    refine ⟨by rw [missing], deleted, List.filter_eq_self.mpr ?_⟩
    simpa using List.find?_eq_none.mp missing

/-- Removing sub-keys without collisions keeps the rows in step with the hashmap. -/
theorem hashmapRemoveLoop_mirrors {nodes : Skiplist CStr} {num : Int} {skeys : List CStr}
    (clean : nodes.Clean num) (removable : Removable nodes skeys) (key : CStr) :
    ∃ left num' removed, hashmapRemoveLoop nodes num skeys = some (left, num', removed) ∧
      (left = [] ∨ int32 left.length ≠ 0) ∧
      ∀ rows, Mirrors key (some (.container (.hashmap nodes num))) rows →
        Mirrors key (some (.container (.hashmap left num')))
          (bioWorker rows (removed.map fun skey => ⟨key, some skey, none, .hmDel⟩)) := by
  induction skeys generalizing nodes num with
  | nil => exact ⟨nodes, num, [], rfl, removable, fun rows mirrors => mirrors⟩
  | cons skey skeys ih =>
      obtain ⟨clear, later⟩ := removable
      rw [hashmapRemoveLoop]
      rcases delete_eq_filter clean.sorted clear with
        ⟨node, rfl, found, deleted, perm⟩ | ⟨missing, absent, same⟩
      · have sorted : Skiplist.Sorted (nodes.filter fun m => m.key ≠ node.key) :=
          List.Pairwise.filter _ clean.sorted
        obtain ⟨left, num', removed, looped, counted, mirrors⟩ :=
          ih (clean.of_perm_cons perm sorted) later
        rw [found, deleted]
        dsimp only
        rw [looped]
        refine ⟨left, num', node.key :: removed, rfl, counted, ?_⟩
        intro rows before
        exact mirrors _ (before.hmDel perm sorted)
      · rw [missing, absent]
        rw [same] at later
        exact ih clean later

theorem Mirrored.hashmapRemove (mirrored : e.Mirrored) {key : CStr} {skeys : List CStr}
    (rowwise : e.Rowwise (.hashmapRemove key skeys)) :
    ∃ rv e', e.xfiredbHashmapRemove key skeys = some (rv, e') ∧ e'.Mirrored := by
  unfold xfiredbHashmapRemove
  split
  · rename_i nodes num stored
    have clean : nodes.Clean num := by
      have mirrors := mirrored.rows.mirror key
      rw [stored] at mirrors
      exact mirrors.2
    obtain ⟨left, num', removed, looped, counted, mirrors⟩ :=
      hashmapRemoveLoop_mirrors clean (rowwise nodes num stored) key
    refine ⟨removed.length, _, by rw [looped]; rfl, ?_⟩
    have forKey : ∀ q ∈ removed.map fun skey => (⟨key, some skey, none, .hmDel⟩ : BioQ),
      q.key = key := by
      intro q member
      obtain ⟨skey, _, rfl⟩ := List.mem_map.mp member
      rfl
    have inStep : ∀ rows, Mirrors key (e.db key) rows →
        Mirrors key (some (.container (.hashmap left num')))
          (bioWorker rows (removed.map fun skey => ⟨key, some skey, none, .hmDel⟩)) := by
      intro rows before
      rw [stored] at before
      exact mirrors rows before
    have count : int32 num' = int32 left.length := by
      rw [(inStep _ (mirrored.rows.mirror key)).2.counted]
      simpa using int32_add_int32 left.length 0
    rcases counted with rfl | more
    · rw [if_pos (by rw [count]; rfl)]
      refine mirrored.wrote (wrote_all mirrored.level key none forKey) ?_
        (by simp [Stored.Full]) (by simp)
      intro rows before
      exact List.perm_nil.mp (inStep rows before).1
    · rw [if_neg (by rw [count]; exact more)]
      refine mirrored.wrote (wrote_all mirrored.level key _ forKey) inStep
        (full_hashmap ?_) (by simp)
      intro same
      obtain rfl := same
      exact more rfl
  · exact ⟨_, e, rfl, mirrored⟩

/-! ## Keys -/

theorem clearNotices_forKey (c : Container) (key : CStr) :
    ∀ q ∈ Node.clearNotices c key, q.key = key := by
  intro q member
  cases c with
  | list elems =>
      obtain ⟨_, _, rfl⟩ := List.mem_map.mp member
      rfl
  | hashmap nodes num =>
      obtain ⟨_, _, rfl⟩ := List.mem_map.mp member
      rfl
  | set nodes num =>
      obtain ⟨_, _, rfl⟩ := List.mem_map.mp member
      rfl

theorem Mirrored.keyDelete (mirrored : e.Mirrored) {key : CStr}
    (rowwise : e.Rowwise (.keyDelete key)) :
    ∃ rv e', e.xfiredbKeyDelete key = some (rv, e') ∧ e'.Mirrored := by
  have full : Stored.Full none := by simp [Stored.Full]
  have cleared : ∀ {c : Container}, e.db key = some (.container c) →
      ((e.setDb key none).bioQueueAll (Node.clearNotices c key)).Mirrored := by
    intro c stored
    refine mirrored.wrote (wrote_all mirrored.level key none (clearNotices_forKey c key)) ?_ full
      (by simp)
    intro rows mirrors
    rw [stored] at mirrors
    exact mirrors.clear
  unfold xfiredbKeyDelete
  split
  · exact ⟨_, e, rfl, mirrored⟩
  · rename_i s stored
    refine ⟨_, _, rfl, mirrored.wrote (wrote_add mirrored.level key none rfl) ?_ full (by simp)⟩
    intro rows mirrors
    rw [stored] at mirrors
    exact mirrors.stringDel
  · rename_i elems stored
    have few : (Node.clearNotices (.list elems) key).length ≤ 1 := by
      rw [Node.clearNotices, List.length_map]
      exact rowwise elems stored
    have level : (e.setDb key none).persistLevel < 3 := mirrored.level
    rw [bioQueueShared_of_le level few, Option.map_some]
    exact ⟨_, _, rfl, cleared stored⟩
  · rename_i stored
    exact ⟨_, _, rfl, cleared stored⟩
  · rename_i nodes num stored
    exact absurd stored (mirrored.noSet key nodes num)

/-! ## Runs -/

/-- A call whose statements mirror it returns, and keeps the table in step. -/
theorem Mirrored.call (mirrored : e.Mirrored) {c : ApiCall} (writes : c.writes = true)
    (rowwise : e.Rowwise c) : ∃ rv e', e.call c = some (rv, e') ∧ e'.Mirrored := by
  cases c with
  | stringSet key str => exact ⟨_, _, rfl, mirrored.stringSet key str⟩
  | listPush key data left => exact ⟨_, _, rfl, mirrored.listPush rowwise⟩
  | listSet key idx data => exact ⟨_, _, rfl, mirrored.listSet rowwise⟩
  | listPop key idx =>
      obtain ⟨rv, idx', e', popped, mirrored'⟩ := mirrored.listPop rowwise
      exact ⟨rv, e', by rw [EngineState.call, popped]; rfl, mirrored'⟩
  | hashmapSet key skey data => exact mirrored.hashmapSet rowwise
  | hashmapRemove key skeys => exact mirrored.hashmapRemove rowwise
  | keyDelete key => exact mirrored.keyDelete rowwise
  | stringGet _ => cases writes
  | listLength _ => cases writes
  | listGet _ _ => cases writes
  | hashmapGet _ _ => cases writes

theorem Mirrored.run (mirrored : e.Mirrored) {calls : List ApiCall}
    (writes : ∀ c ∈ calls, c.writes = true) (rowwise : e.RunRowwise calls) :
    ∃ e', e.run calls = some e' ∧ e'.Mirrored := by
  induction calls generalizing e with
  | nil => exact ⟨e, rfl, mirrored⟩
  | cons c calls ih =>
      obtain ⟨-, here, later⟩ := rowwise
      obtain ⟨rv, e₁, called, mirrored₁⟩ := mirrored.call (writes c List.mem_cons_self) here
      obtain ⟨e', ran, mirrored'⟩ := ih mirrored₁
        (fun c' member => writes c' (List.mem_cons_of_mem c member)) (later rv e₁ called)
      exact ⟨e', by rw [EngineState.run, called]; exact ran, mirrored'⟩

/-- The table of a run whose statements mirror it is loaded into the same database. -/
theorem run_loads {persistLevel : Nat} (small : persistLevel < 3) {calls : List ApiCall}
    (writes : ∀ c ∈ calls, c.writes = true) (rowwise : (start persistLevel).RunRowwise calls) :
    ∃ e rows db, (start persistLevel).run calls = some e ∧ e.drained = some rows ∧
      xfiredbLoad (fun _ => none) rows = some db ∧
      ∀ k, (db k).map Stored.value = (e.db k).map Stored.value := by
  obtain ⟨e, ran, mirrored⟩ := (mirrored_start small).run writes rowwise
  obtain ⟨db, loaded, same⟩ := mirrored.rows.loads
  exact ⟨e, _, db, ran, mirrored.drained, loaded, same⟩

theorem nulFree_k : 0 ∉ lit "k" := by decide
theorem nulFree_a : 0 ∉ lit "a" := by decide
theorem nulFree_b : 0 ∉ lit "b" := by decide

/-- Two entries on the right of a new list. -/
def rightPushes : List ApiCall :=
  [.listPush ⟨lit "k", nulFree_k⟩ ⟨lit "a", nulFree_a⟩ false,
    .listPush ⟨lit "k", nulFree_k⟩ ⟨lit "b", nulFree_b⟩ false]

theorem run_loads_rightPushes :
    ∃ e rows db, (start 0).run rightPushes = some e ∧ e.drained = some rows ∧
      xfiredbLoad (fun _ => none) rows = some db ∧
      ∀ k, (db k).map Stored.value = (e.db k).map Stored.value :=
  run_loads (by decide) (by decide)
    ⟨by decide, nofun, fun _ _ _ => ⟨by decide, nofun, fun _ _ _ => trivial⟩⟩

/-- An entry on the right of a new list, and one on the left. -/
def leftPushes : List ApiCall :=
  [.listPush ⟨lit "k", nulFree_k⟩ ⟨lit "a", nulFree_a⟩ false,
    .listPush ⟨lit "k", nulFree_k⟩ ⟨lit "b", nulFree_b⟩ true]

/-- The entry pushed on the left is loaded on the right. -/
theorem leftPushes_loaded_reversed :
    ¬ ∃ e rows db, (start 0).run leftPushes = some e ∧ e.drained = some rows ∧
      xfiredbLoad (fun _ => none) rows = some db ∧
      ∀ k, (db k).map Stored.value = (e.db k).map Stored.value := by
  intro found
  obtain ⟨e, rows, db, ran, drained, loaded, same⟩ := found
  cases ran
  cases drained
  cases loaded
  have reversed : some (Value.list [⟨lit "a", nulFree_a⟩, ⟨lit "b", nulFree_b⟩]) =
      some (Value.list [⟨lit "b", nulFree_b⟩, ⟨lit "a", nulFree_a⟩]) := same ⟨lit "k", nulFree_k⟩
  cases reversed

end EngineState

end XFireDB
