import XFireDB.FootprintRuns
import XFireDB.Tracking

/-!
# Nodes stay well formed

No two keys share a container object: a command stores the objects it makes, and
it stores them under its own key.  So every command leaves a well-formed node
well formed.
-/

namespace XFireDB

open Lib

/-- The call does not store an object that another key holds. -/
def Call.StoresAlone (n : Node) : {β : Type} → Call β → Prop
  | _, .dbStore key (.obj _ id) =>
    ∀ k, stringValueCStr key = .ok k → ∀ k', n.db k' = some (.object id) → k' = k
  | _, _ => True

namespace Node

variable {n t : Node} {id : Nat}

theorem Wf.noticeDisk (wf : n.Wf) (q : BioQ) : (n.noticeDisk q).Wf := wf.notices [q]

theorem Wf.noticeAll (wf : n.Wf) (key : Option CStr) (f : CStr → List BioQ) :
    (n.noticeAll key f).Wf := by
  cases key with
  | none => exact wf
  | some k => exact wf.notices (f k)

theorem noticeAll_objs (n : Node) (key : Option CStr) (f : CStr → List BioQ) :
    (n.noticeAll key f).objs = n.objs := by
  cases key with
  | none => rfl
  | some k => exact notices_objs n (f k)

theorem noticeAll_db (n : Node) (key : Option CStr) (f : CStr → List BioQ) :
    (n.noticeAll key f).db = n.db := by
  cases key with
  | none => rfl
  | some k => exact notices_db n (f k)

/-! ## Storing -/

/-- An object that no other key holds comes under a key. -/
theorem Wf.place (wf : n.Wf) {o o' : Obj} (found : n.objs id = some o) {k : CStr}
    (alone : ∀ k', n.db k' = some (.object id) → k' = k) (key : o'.key = some k) :
    ((n.setObj id o').setDb k (some (.object id))).Wf where
  held := by
    intro k' id' entry
    by_cases same : k' = k
    · subst same
      obtain rfl : id = id' := by simpa [Node.setDb, Node.setObj] using entry
      exact ⟨o', by simp [Node.setDb, Node.setObj], key⟩
    · have entry' : n.db k' = some (.object id') := by
        simpa [Node.setDb, Node.setObj, same] using entry
      have other : id' ≠ id := by
        intro same
        obtain rfl := same
        exact same (alone k' entry')
      obtain ⟨o₁, found₁, key₁⟩ := wf.held k' id' entry'
      exact ⟨o₁, by simpa [Node.setDb, Node.setObj, other] using found₁, key₁⟩
  allocated := by
    intro id' o₁ found₁
    by_cases same : id' = id
    · subst same
      exact wf.allocated id' o found
    · exact wf.allocated id' o₁ (by simpa [Node.setDb, Node.setObj, same] using found₁)

theorem Wf.rbDbStoreFresh (wf : n.Wf) {k : CStr} {data : Val}
    (alone : ∀ kind id, data = .obj kind id → ∀ k', n.db k' = some (.object id) → k' = k) :
    (n.rbDbStoreFresh k data).2.Wf := by
  cases data with
  | nil => exact wf
  | str data =>
      rw [Node.rbDbStoreFresh]
      split
      · exact wf
      · exact (wf.setDb (by simp)).noticeDisk _
  | obj kind id =>
      rw [Node.rbDbStoreFresh]
      cases found : n.objs id with
      | none => exact wf
      | some o =>
          have named : ({ o with key := some k, intree := true } : Obj).key = some k := rfl
          have placed := wf.place found (alone kind id rfl) named
          exact placed.noticeAll (some k) (storeNotices o.c)

/-- Taking an entry out leaves no more holders of an object. -/
theorem db_of_delete {k k' : CStr} {entry : Entry}
    (found : ((n.setDb k none).rawRbDbDelete k entry).db k' = some (.object id)) :
    n.db k' = some (.object id) := by
  have same : ((n.setDb k none).rawRbDbDelete k entry).db = (n.setDb k none).db := by
    cases entry with
    | string s => exact notices_db _ [_]
    | object id' =>
        rw [Node.rawRbDbDelete]
        split
        · exact noticeAll_db _ _ _
        · rfl
  rw [same] at found
  by_cases here : k' = k
  · subst here
    simp [Node.setDb] at found
  · simpa [Node.setDb, here] using found

theorem Wf.rbDbStore (wf : n.Wf) {key : RStr} {data : Val}
    (alone : (Call.dbStore key data).StoresAlone n) : (n.rbDbStore key data).2.Wf := by
  unfold Node.rbDbStore
  cases known : stringValueCStr key with
  | error e => exact wf
  | ok k =>
      have only : ∀ kind id, data = .obj kind id → ∀ k', n.db k' = some (.object id) → k' = k := by
        intro kind id same
        obtain rfl := same
        exact alone k known
      simp only
      cases entry : n.db k with
      | none => exact wf.rbDbStoreFresh only
      | some old =>
          simp only
          have emptied : (n.setDb k none).Wf := wf.setDb (by simp)
          have replaced : (((n.setDb k none).rawRbDbDelete k old).rbDbStoreFresh k data).2.Wf := by
            refine (wf.changes_delete entry).wf.rbDbStoreFresh ?_
            intro kind id isObject k' found
            exact only kind id isObject k' (db_of_delete found)
          rcases old with s | id
          · rcases data with - | d | ⟨kind, id⟩
            · exact replaced
            · simp only
              split
              · exact emptied
              · exact (emptied.noticeDisk _).setDb (by simp)
            · exact replaced
          · rcases data with - | d | ⟨kind, id'⟩
            · exact replaced
            · exact replaced
            · simp only
              split
              · refine emptied.rbDbStoreFresh ?_
                intro kind' id₁ isObject k' found
                refine only kind' id₁ isObject k' ?_
                by_cases here : k' = k
                · subst here
                  simp [Node.setDb] at found
                · simpa [Node.setDb, here] using found
              · exact replaced

theorem Wf.rbDbDelete_wf (wf : n.Wf) (key : RStr) : (n.rbDbDelete key).2.Wf := by
  cases known : stringValueCStr key with
  | error e =>
      rw [Node.rbDbDelete, known]
      exact wf
  | ok k =>
      obtain ⟨n', ran, changes⟩ := wf.rbDbDelete known
      rw [ran]
      exact changes.wf

/-! ## Methods -/

/-- New data in an object, and its notices before or after. -/
theorem Wf.setData (wf : n.Wf) {o : Obj} (found : n.objs id = some o) (c : Container)
    (key : Option CStr) (f : CStr → List BioQ) :
    ((n.noticeAll key f).setObj id { o with c := c }).Wf ∧
      ((n.setObj id { o with c := c }).noticeAll key f).Wf := by
  have sameKey : ({ o with c := c } : Obj).key = o.key := rfl
  refine ⟨(wf.noticeAll key f).setObj ?_ sameKey, (wf.setObj found sameKey).noticeAll key f⟩
  rw [noticeAll_objs]
  exact found

theorem Wf.onList {β : Type} (wf : n.Wf) {f : Obj → List CStr → Outcome β}
    (each : ∀ o elems, n.objs id = some o → (f o elems).2.Wf) : (n.onList id f).2.Wf := by
  unfold Node.onList
  cases found : n.objs id with
  | none => exact wf
  | some o =>
      simp only
      split
      · exact each o _ found
      · exact wf

theorem Wf.onMap {β : Type} (wf : n.Wf) {f : Obj → Skiplist CStr → Int → Option (Outcome β)}
    (each : ∀ o nodes num r t, n.objs id = some o → f o nodes num = some (r, t) → t.Wf)
    {r : Except Raise β} (ran : n.onMap id f = some (r, t)) : t.Wf := by
  unfold Node.onMap at ran
  cases found : n.objs id with
  | none =>
      simp only [found] at ran
      cases ran
      exact wf
  | some o =>
      simp only [found] at ran
      split at ran
      · exact each o _ _ r t found ran
      · cases ran
        exact wf

theorem Wf.onSet {β : Type} (wf : n.Wf) {f : Obj → Skiplist Unit → Int → Option (Outcome β)}
    (each : ∀ o nodes num r t, n.objs id = some o → f o nodes num = some (r, t) → t.Wf)
    {r : Except Raise β} (ran : n.onSet id f = some (r, t)) : t.Wf := by
  unfold Node.onSet at ran
  cases found : n.objs id with
  | none =>
      simp only [found] at ran
      cases ran
      exact wf
  | some o =>
      simp only [found] at ran
      split at ran
      · exact each o _ _ r t found ran
      · cases ran
        exact wf

theorem Wf.rbListPush_wf (wf : n.Wf) (data : RStr) : (n.rbListPush id data).2.Wf := by
  refine wf.onList ?_
  intro o elems found
  split
  · exact wf
  · exact (wf.setData found _ _ _).1

theorem Wf.rbListPop (wf : n.Wf) (i : Int) : (n.rbListPop id i).2.Wf := by
  refine wf.onList ?_
  intro o elems found
  split
  · exact wf
  · split
    · exact wf
    · exact (wf.setData found _ _ _).1

theorem Wf.rbListSet (wf : n.Wf) (i : Int) (data : RStr) : (n.rbListSet id i data).2.Wf := by
  refine wf.onList ?_
  intro o elems found
  split
  · exact wf
  · split
    · exact wf
    · split
      · exact wf
      · exact (wf.setData found _ _ _).1

theorem Wf.rbHashmapStore (wf : n.Wf) {key data : RStr} {r : Except Raise Unit}
    (ran : n.rbHashmapStore id key data = some (r, t)) : t.Wf := by
  refine wf.onMap ?_ ran
  intro o nodes num r t found stored
  split at stored
  · cases stored
    exact wf
  · cases stored
    exact wf
  · obtain ⟨old, _, same⟩ := Option.map_eq_some_iff.mp stored
    cases old with
    | none =>
        cases same
        exact (wf.setData found _ _ _).2
    | some node =>
        cases same
        exact (wf.setData found _ _ _).2

theorem Wf.rbHashmapDelete (wf : n.Wf) {key : RStr} {r : Except Raise (Option RStr)}
    (ran : n.rbHashmapDelete id key = some (r, t)) : t.Wf := by
  refine wf.onMap ?_ ran
  intro o nodes num r t found deleted
  split at deleted
  · cases deleted
    exact wf
  · split at deleted
    · cases deleted
      exact (wf.setData found _ _ _).2
    · cases deleted
      exact wf
    · cases deleted

theorem Wf.rbSetAdd (wf : n.Wf) {key : RStr} {r : Except Raise Bool}
    (ran : n.rbSetAdd id key = some (r, t)) : t.Wf := by
  refine wf.onSet ?_ ran
  intro o nodes num r t found added
  split at added
  · cases added
    exact wf
  · obtain ⟨old, _, same⟩ := Option.map_eq_some_iff.mp added
    cases old with
    | none =>
        cases same
        exact (wf.setData found _ _ _).2
    | some node =>
        cases same
        exact wf

theorem Wf.rbSetRemove (wf : n.Wf) {key : RStr} {r : Except Raise Bool}
    (ran : n.rbSetRemove id key = some (r, t)) : t.Wf := by
  refine wf.onSet ?_ ran
  intro o nodes num r t found removed
  split at removed
  · cases removed
    exact wf
  · split at removed
    · cases removed
      exact (wf.setData found _ _ _).2
    · cases removed
      exact wf
    · cases removed

/-! ## Calls and scripts -/

theorem wf_of_outcome {β : Type} {x : Outcome β} (wf : x.2.Wf) {r : Except Raise β}
    (handled : some x = some (r, t)) : t.Wf := by
  rw [Option.some.inj handled] at wf
  exact wf

/-- A call that stores no object of another key. -/
theorem Wf.call (wf : n.Wf) {β : Type} {c : Call β} (alone : c.StoresAlone n) {r : Except Raise β}
    (handled : Node.call n c = some (r, t)) : t.Wf := by
  by_cases reads : c.Reads
  · rw [Node.call_reads reads handled]
    exact wf
  · cases c with
    | dbStore key data => exact wf_of_outcome (wf.rbDbStore alone) handled
    | dbDelete key => exact wf_of_outcome (wf.rbDbDelete_wf key) handled
    | newObj kind =>
        obtain ⟨n', ran, after, _⟩ := wf.newObj kind
        exact wf_of_outcome (by rw [ran]; exact after) handled
    | listPush id data => exact wf_of_outcome (wf.rbListPush_wf data) handled
    | listPop id i => exact wf_of_outcome (wf.rbListPop i) handled
    | listSet id i data => exact wf_of_outcome (wf.rbListSet i data) handled
    | mapStore id key data => exact wf.rbHashmapStore handled
    | mapDelete id key => exact wf.rbHashmapDelete handled
    | setAdd id key => exact wf.rbSetAdd handled
    | setRemove id key => exact wf.rbSetRemove handled
    | addKey key =>
        simp only [Node.call] at handled
        split at handled
        · cases handled
          exact ⟨wf.held, wf.allocated⟩
        · cases handled
          exact wf
    | delKey key =>
        cases handled
        exact ⟨wf.held, wf.allocated⟩
    | _ => exact absurd trivial reads

/-- The part of a node that some keys reach, with the objects still to be made. -/
def part (n : Node) (P : CStr → Prop) : Region where
  keys := P
  ids id := (∃ k, P k ∧ n.db k = some (.object id)) ∨ n.fresh ≤ id

variable {P : CStr → Prop}

theorem tied_part (n : Node) (P : CStr → Prop) : (n.part P).Tied n n n :=
  ⟨⟨fun _ _ => rfl, fun _ _ => rfl, rfl, fun k _ mine entry => Or.inl ⟨k, mine, entry⟩,
    fun _ _ => rfl, fun _ _ => rfl, rfl⟩, rfl, le_rfl⟩

/-- An object of another key is not in the part. -/
theorem Wf.not_part (wf : n.Wf) {k : CStr} (other : ¬ P k) (entry : n.db k = some (.object id)) :
    ¬ (n.part P).ids id := by
  obtain ⟨o, found, key⟩ := wf.held k id entry
  intro either
  rcases either with ⟨k', mine, entry'⟩ | new
  · obtain ⟨o', found', key'⟩ := wf.held k' id entry'
    obtain rfl := Option.some.inj (found.symm.trans found')
    obtain rfl := Option.some.inj (key.symm.trans key')
    exact other mine
  · exact absurd (wf.allocated id o found) (Nat.not_lt.mpr new)

/-- A command that stays with one key stores no object of another. -/
theorem Wf.storesAlone (wf : n.Wf) (single : ∀ k k', P k → P k' → k = k')
    (tied : (n.part P).Tied n t t) {β : Type} {c : Call β} (inside : (n.part P).Inside c) :
    c.StoresAlone t := by
  cases c with
  | dbStore key data =>
      cases data with
      | obj kind id =>
          intro k known k' entry
          have mine := inside.1 k known
          have within := inside.2 kind id rfl
          by_cases same : P k'
          · exact single k' k same mine
          · rw [tied.dbOut k' same] at entry
            exact absurd within (wf.not_part same entry)
      | _ => trivial
  | _ => trivial

end Node

end XFireDB
