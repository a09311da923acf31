import XFireDB.DictRuns

/-!
# Insertions and lookups in several threads

`__dict_add` links a zeroed entry and gives the lock back; `raw_dict_add` then
assigns the value and the length.  `dict_lookup` reads both from the entry that
`__dict_lookup` has found, without the lock.

The steps are the sections under the lock and the single assignments and reads.
-/

namespace XFireDB

open Lib

/-! ## Entries through a pointer -/

/-- `*e` for a pointer to the entry of a key, in whichever table it is now. -/
def Dict.entry (d : Dict) (key : CStr) : Option DictEntry := lookupKey DictEntry.key d.entries key

def DictMap.assign (m : DictMap) (key : CStr) (f : DictEntry → DictEntry) : DictMap :=
  { m with array := m.array.map fun a => a.map fun chain =>
      chain.map fun e => if e.key = key then f e else e }

/-- An assignment to `*e`. -/
def Dict.assign (d : Dict) (key : CStr) (f : DictEntry → DictEntry) : Dict :=
  { d with primary := d.primary.assign key f, rehash := d.rehash.assign key f }

theorem DictMap.assign_entries (m : DictMap) (key : CStr) (f : DictEntry → DictEntry) :
    (m.assign key f).entries = m.entries.map fun e => if e.key = key then f e else e := by
  cases array : m.array with
  | none => simp [DictMap.entries, DictMap.assign, array]
  | some a => simp [DictMap.entries, DictMap.assign, array, List.map_flatten]

theorem Dict.assign_entries (d : Dict) (key : CStr) (f : DictEntry → DictEntry) :
    (d.assign key f).entries = d.entries.map fun e => if e.key = key then f e else e := by
  rw [Dict.entries, Dict.entries, List.map_append, ← DictMap.assign_entries,
    ← DictMap.assign_entries]
  rfl

section Assign

variable {d : Dict} {key : CStr} {f : DictEntry → DictEntry}

theorem assigned_key (keeps : ∀ e, (f e).key = e.key) (e : DictEntry) :
    (if e.key = key then f e else e).key = e.key := by
  split
  · exact keeps e
  · rfl

theorem DictMap.Table.assign {m : DictMap} {a : List (List DictEntry)} (t : m.Table a)
    (keeps : ∀ e, (f e).key = e.key) :
    (m.assign key f).Table
      (a.map fun chain => chain.map fun e => if e.key = key then f e else e) where
  array_eq := by
    rw [DictMap.assign, t.array_eq, Option.map_some]
  size_eq := by
    rw [List.length_map]
    exact t.size_eq
  size_pow := t.size_pow
  mask_eq := t.mask_eq
  home i chain here e member := by
    rw [List.getElem?_map, Option.map_eq_some_iff] at here
    obtain ⟨old, there, rfl⟩ := here
    obtain ⟨x, inside, rfl⟩ := List.mem_map.mp member
    rw [assigned_key keeps]
    exact t.home i old there x inside
  length_eq := by
    rw [← List.map_flatten, List.length_map]
    exact t.length_eq

theorem Dict.Inv.assign (inv : d.Inv) (keeps : ∀ e, (f e).key = e.key) :
    (d.assign key f).Inv where
  distinct := by
    have same : (DictEntry.key ∘ fun e => if e.key = key then f e else e) = DictEntry.key :=
      funext fun e => assigned_key keeps e
    rw [Dict.assign_entries, List.map_map, same]
    exact inv.distinct
  busy on := by
    obtain ⟨a, b, run⟩ := inv.busy on
    refine ⟨_, _, run.primary.assign keeps, run.rehash.assign keeps, run.idx_nonneg, run.idx_le, ?_⟩
    intro i early
    rw [List.getElem?_map, run.moved i early]
    rfl
  idle off := by
    obtain ⟨empty, reset | ⟨a, t⟩⟩ := inv.idle off
    · refine ⟨?_, Or.inl ?_⟩
      · rw [Dict.assign, empty]
        rfl
      · rw [Dict.assign, reset]
        rfl
    · refine ⟨?_, Or.inr ⟨_, t.assign keeps⟩⟩
      rw [Dict.assign, empty]
      rfl

theorem Dict.entry_assign (keeps : ∀ e, (f e).key = e.key) (k : CStr) :
    (d.assign key f).entry k = (d.entry k).map fun e => if k = key then f e else e := by
  rw [Dict.entry, Dict.assign_entries, lookupKey_map (assigned_key keeps)]
  apply Option.map_congr
  intro e found
  rw [key_of_lookupKey found]

end Assign

theorem Dict.Inv.entry_of_perm {d d' : Dict} (inv : d'.Inv) (perm : d'.entries.Perm d.entries) :
    d'.entry = d.entry := by
  funext k
  exact lookupKey_perm perm inv.distinct k

theorem Dict.Inv.entry_of_linked {d d' : Dict} {e : DictEntry} (inv : d'.Inv)
    (perm : d'.entries.Perm (e :: d.entries)) (k : CStr) :
    d'.entry k = if e.key = k then some e else d.entry k := by
  rw [Dict.entry, lookupKey_perm perm inv.distinct, lookupKey_cons]
  rfl

theorem Dict.entry_eq_none {d : Dict} {key : CStr} : d.entry key = none ↔ ¬ d.Has key := by
  rw [Dict.entry, lookupKey_eq_none, Dict.Has]
  push Not
  rfl

/-! ## Threads -/

inductive DictTask
  | add (key : CStr) (data : DictArg) (t : DictType) (size : Nat)
  | lookup (key : CStr)

/-- What an insertion was given, and which of its two assignments are done. -/
structure Insertion where
  value : UInt64
  size : Nat
  valueSet : Bool
  lengthSet : Bool

/-- A lookup that has returned `-XFIREDB_OK`.  It is `timely` if each of the two fields
was assigned when it was read, or is zero anyway. -/
structure Lookup where
  key : CStr
  data : UInt64
  size : Nat
  timely : Bool
deriving DecidableEq

/-- What a thread does next. -/
inductive DictThread
  | idle
  | entering (task : DictTask)
  | stepping (task : DictTask)
  | locking (task : DictTask)
  | setVal (key : CStr) (value : UInt64) (size : Nat)
  | setLength (key : CStr) (size : Nat)
  | readValue (key : CStr)
  | readLength (key : CStr) (data : UInt64) (timely : Bool)

/-- The dictionary, the threads, the insertions so far and the lookups that have
found something. -/
structure DictSystem (τ : Type) where
  dict : Dict
  thread : τ → DictThread
  inserted : CStr → Option Insertion
  lookups : List Lookup

inductive DictSystem.Event (τ : Type)
  | start (t : τ) (task : DictTask)
  | run (t : τ)
  | worker (num : Nat)

namespace DictSystem

variable {τ : Type} [DecidableEq τ]

def start : DictSystem τ := ⟨dictAlloc, fun _ => .idle, fun _ => none, []⟩

def set (s : DictSystem τ) (t : τ) (thread : DictThread) : DictSystem τ :=
  { s with thread := Function.update s.thread t thread }

def mark (s : DictSystem τ) (key : CStr) (i : Insertion) : DictSystem τ :=
  { s with inserted := Function.update s.inserted key (some i) }

/-- A step of a thread, or a batch of the worker. -/
def step (g : DictGlobals) (s : DictSystem τ) : Event τ → Option (DictSystem τ)
  | .start t task =>
    match s.thread t with
    | .idle => some (s.set t (.entering task))
    | _ => none
  | .run t =>
    match s.thread t with
    | .idle => none
    | .entering task => some (s.set t (if s.dict.rehashing then .stepping task else .locking task))
    | .stepping task =>
      (dictRehashStep s.dict).map fun d => { s.set t (.locking task) with dict := d }
    | .locking (.add key data ty size) =>
      if s.dict.heapHolds (.add key data ty) then
        match dictLinkLocked g s.dict key with
        | none => none
        | some (d, none) => some { s.set t .idle with dict := d }
        | some (d, some _) =>
          some { (s.set t (.setVal key (dictVal data ty) size)).mark key
            ⟨dictVal data ty, size, false, false⟩ with dict := d }
      else none
    | .locking (.lookup key) =>
      match dictFindLocked s.dict key with
      | none => none
      | some (d, none) => some { s.set t .idle with dict := d }
      | some (d, some _) => some { s.set t (.readValue key) with dict := d }
    | .setVal key value size =>
      match s.inserted key with
      | none => none
      | some i =>
        some { (s.set t (.setLength key size)).mark key { i with valueSet := true } with
          dict := s.dict.assign key fun e => { e with value } }
    | .setLength key size =>
      match s.inserted key with
      | none => none
      | some i =>
        some { (s.set t .idle).mark key { i with lengthSet := true } with
          dict := s.dict.assign key fun e => { e with length := size } }
    | .readValue key =>
      match s.dict.entry key, s.inserted key with
      | some e, some i => some (s.set t (.readLength key e.value (i.valueSet || i.value = 0)))
      | _, _ => none
    | .readLength key data timely =>
      match s.dict.entry key, s.inserted key with
      | some e, some i =>
        some { s.set t .idle with
          lookups := ⟨key, data, e.length, timely && (i.lengthSet || i.size = 0)⟩ :: s.lookups }
      | _, _ => none
  | .worker num => (dictRehash s.dict num).map fun d => { s with dict := d.1 }

/-- The lookup has yielded what the insertion of its key was given. -/
def Right (s : DictSystem τ) (r : Lookup) : Prop :=
  ∃ i, s.inserted r.key = some i ∧ r.data = i.value ∧ r.size = i.size

@[simp] theorem set_dict (s : DictSystem τ) (t : τ) (th : DictThread) :
    (s.set t th).dict = s.dict := rfl

@[simp] theorem set_inserted (s : DictSystem τ) (t : τ) (th : DictThread) :
    (s.set t th).inserted = s.inserted := rfl

@[simp] theorem set_lookups (s : DictSystem τ) (t : τ) (th : DictThread) :
    (s.set t th).lookups = s.lookups := rfl

theorem set_thread (s : DictSystem τ) (t : τ) (th : DictThread) (u : τ) :
    (s.set t th).thread u = if u = t then th else s.thread u :=
  Function.update_apply _ _ _ _

omit [DecidableEq τ] in
theorem mark_inserted (s : DictSystem τ) (key : CStr) (i : Insertion) (k : CStr) :
    (s.mark key i).inserted k = if k = key then some i else s.inserted k :=
  Function.update_apply _ _ _ _

end DictSystem

/-! ## What holds between the steps -/

/-- The entry holds what has been assigned so far. -/
structure Insertion.Fills (i : Insertion) (e : DictEntry) : Prop where
  value_eq : e.value = if i.valueSet then i.value else 0
  length_eq : e.length = if i.lengthSet then i.size else 0

/-- The key whose entry this thread is still assigning. -/
def DictThread.writes : DictThread → Option CStr
  | .setVal key _ _ => some key
  | .setLength key _ => some key
  | _ => none

/-- The insertion the thread is at, or what it has read of one. -/
def DictThread.Fits (inserted : CStr → Option Insertion) : DictThread → Prop
  | .setVal key value size => inserted key = some ⟨value, size, false, false⟩
  | .setLength key size => ∃ value, inserted key = some ⟨value, size, true, false⟩
  | .readLength key data timely => ∃ i, inserted key = some i ∧ (data = i.value ↔ timely = true)
  | _ => True

/-- The lookup is right exactly if it was timely. -/
def Lookup.Fits (inserted : CStr → Option Insertion) (r : Lookup) : Prop :=
  ∃ i, inserted r.key = some i ∧ ((r.data = i.value ∧ r.size = i.size) ↔ r.timely = true)

/-- An insertion is added, or one of its assignments is made. -/
def Advances (inserted : CStr → Option Insertion) (key : CStr) (i : Insertion) : Prop :=
  ∀ j, inserted key = some j → j.value = i.value ∧ j.size = i.size

section Advance

variable {inserted inserted' : CStr → Option Insertion} {key : CStr} {i : Insertion}

/-- What was given to an insertion stays. -/
theorem Advances.kept (advances : Advances inserted key i)
    (marked : ∀ k, inserted' k = if k = key then some i else inserted k) {k : CStr}
    {j : Insertion} (there : inserted k = some j) :
    ∃ j', inserted' k = some j' ∧ j'.value = j.value ∧ j'.size = j.size := by
  rw [marked]
  split
  · rename_i same
    obtain ⟨value, size⟩ := advances j (same ▸ there)
    exact ⟨i, rfl, value.symm, size.symm⟩
  · exact ⟨j, there, rfl, rfl⟩

theorem DictThread.Fits.mark {th : DictThread} (fits : th.Fits inserted)
    (advances : Advances inserted key i)
    (marked : ∀ k, inserted' k = if k = key then some i else inserted k)
    (other : th.writes ≠ some key) : th.Fits inserted' := by
  cases th with
  | idle => trivial
  | entering task => trivial
  | stepping task => trivial
  | locking task => trivial
  | readValue k => trivial
  | setVal k value size =>
      have apart : k ≠ key := fun same => other (congrArg some same)
      rw [DictThread.Fits, marked, if_neg apart]
      exact fits
  | setLength k size =>
      have apart : k ≠ key := fun same => other (congrArg some same)
      rw [DictThread.Fits, marked, if_neg apart]
      exact fits
  | readLength k data timely =>
      obtain ⟨j, there, exact_⟩ := fits
      obtain ⟨j', there', value, _⟩ := advances.kept marked there
      exact ⟨j', there', by rwa [value]⟩

theorem Lookup.Fits.mark {r : Lookup} (fits : r.Fits inserted)
    (advances : Advances inserted key i)
    (marked : ∀ k, inserted' k = if k = key then some i else inserted k) : r.Fits inserted' := by
  obtain ⟨j, there, exact_⟩ := fits
  obtain ⟨j', there', value, size⟩ := advances.kept marked there
  exact ⟨j', there', by rwa [value, size]⟩

end Advance

namespace DictSystem

variable {τ : Type} [DecidableEq τ] {g : DictGlobals} {s s' : DictSystem τ} {t : τ}

/-- Every entry holds what its insertion has assigned so far, at most one thread
assigns to an entry, and every lookup is right exactly if it was timely. -/
structure Sound (s : DictSystem τ) : Prop where
  inv : s.dict.Inv
  linked : ∀ key, Option.Rel Insertion.Fills (s.inserted key) (s.dict.entry key)
  threads : ∀ t, (s.thread t).Fits s.inserted
  alone : ∀ {t u key}, (s.thread t).writes = some key → (s.thread u).writes = some key → t = u
  lookups : ∀ r ∈ s.lookups, r.Fits s.inserted

omit [DecidableEq τ] in
theorem Sound.start : (start : DictSystem τ).Sound where
  inv := dictAlloc_inv
  linked key := by
    have empty : dictAlloc.entry key = none := by
      simp [Dict.entry, dictAlloc, Dict.entries, lookupKey]
    dsimp only [DictSystem.start]
    rw [empty]
    exact .none
  threads t := trivial
  alone h := by cases h
  lookups r member := by cases member

/-- A thread goes on and leaves all else alone. -/
theorem Sound.set (sound : s.Sound) {th : DictThread} (fits : th.Fits s.inserted)
    (ends : th.writes = none) : (s.set t th).Sound where
  inv := sound.inv
  linked := sound.linked
  threads u := by
    rw [set_thread]
    split
    · exact fits
    · exact sound.threads u
  alone {a b key} first second := by
    rw [set_thread] at first second
    split at first
    · rw [ends] at first
      cases first
    · split at second
      · rw [ends] at second
        cases second
      · exact sound.alone first second
  lookups := sound.lookups

theorem Sound.returns (sound : s.Sound) (t : τ) : (s.set t .idle).Sound := sound.set trivial rfl

theorem Sound.locks (sound : s.Sound) (t : τ) (task : DictTask) :
    (s.set t (.locking task)).Sound :=
  sound.set trivial rfl

omit [DecidableEq τ] in
theorem Sound.fits (sound : s.Sound) {th : DictThread} (here : s.thread t = th) :
    th.Fits s.inserted :=
  here ▸ sound.threads t

omit [DecidableEq τ] in
/-- A rehash moves entries from table to table. -/
theorem Sound.with_dict (sound : s.Sound) {d : Dict} (inv : d.Inv)
    (perm : d.entries.Perm s.dict.entries) : Sound { s with dict := d } where
  inv := inv
  linked := by
    dsimp only
    rw [inv.entry_of_perm perm]
    exact sound.linked
  threads := sound.threads
  alone := sound.alone
  lookups := sound.lookups

omit [DecidableEq τ] in
theorem Sound.with_lookup (sound : s.Sound) {r : Lookup} (fits : r.Fits s.inserted) :
    Sound { s with lookups := r :: s.lookups } where
  inv := sound.inv
  linked := sound.linked
  threads := sound.threads
  alone := sound.alone
  lookups x member := by
    rcases List.mem_cons.mp member with rfl | old
    · exact fits
    · exact sound.lookups x old

/-- The thread that writes the entry of a key, or is the first to, goes on. -/
theorem Sound.write (sound : s.Sound) {th : DictThread} {key : CStr} {i : Insertion} {d : Dict}
    (inv : d.Inv) (advances : Advances s.inserted key i)
    (mine : ∀ u, (s.thread u).writes = some key → u = t)
    (next : th.writes = some key ∨ th.writes = none)
    (fits : th.Fits ((s.set t th).mark key i).inserted)
    (linked : ∀ k, Option.Rel Insertion.Fills (((s.set t th).mark key i).inserted k) (d.entry k)) :
    Sound { (s.set t th).mark key i with dict := d } where
  inv := inv
  linked := linked
  threads u := by
    change ((s.set t th).thread u).Fits _
    rw [set_thread]
    split
    · exact fits
    · rename_i other
      exact (sound.threads u).mark advances (mark_inserted _ key i) fun h => other (mine u h)
  alone {a b k} first second := by
    change ((s.set t th).thread a).writes = some k at first
    change ((s.set t th).thread b).writes = some k at second
    rw [set_thread] at first second
    have outside {u : τ} (other : u ≠ t) (writing : (s.thread u).writes = some k)
        (here : th.writes = some k) : False := by
      rcases next with same | ends
      · obtain rfl : key = k := Option.some.inj (same.symm.trans here)
        exact other (mine u writing)
      · rw [ends] at here
        cases here
    split at first
    · rename_i isA
      split at second
      · rename_i isB
        exact isA.trans isB.symm
      · rename_i other
        exact (outside other second first).elim
    · rename_i other
      split at second
      · exact (outside other first second).elim
      · exact sound.alone first second
  lookups r member := (sound.lookups r member).mark advances (mark_inserted _ key i)

omit [DecidableEq τ] in
theorem Sound.mine (sound : s.Sound) {key : CStr} (writing : (s.thread t).writes = some key)
    (u : τ) (also : (s.thread u).writes = some key) : u = t :=
  sound.alone also writing

omit [DecidableEq τ] in
/-- An entry that has been inserted is in a table. -/
theorem Sound.entry_of_inserted (sound : s.Sound) {key : CStr} {i : Insertion}
    (there : s.inserted key = some i) : ∃ e, s.dict.entry key = some e ∧ i.Fills e := by
  have here := sound.linked key
  rw [there] at here
  cases found : s.dict.entry key with
  | none =>
      rw [found] at here
      cases here
  | some e =>
      rw [found] at here
      cases here with
      | some fills => exact ⟨e, rfl, fills⟩

/-- The section of `__dict_add` under the lock. -/
theorem Sound.link (sound : s.Sound) {key : CStr} {data : DictArg} {ty : DictType} {size : Nat}
    (fired : step g s (.run t) = some s') (here : s.thread t = .locking (.add key data ty size)) :
    s'.Sound := by
  rw [step, here] at fired
  dsimp only at fired
  split at fired
  · rename_i heap
    have room : s.dict.entries.length * 2 < longMax := by
      have bytes := of_decide_eq_true heap
      rw [dictEntryBytes] at bytes
      rw [longMax]
      omega
    split at fired
    · cases fired
    · rename_i d linked
      cases fired
      obtain ⟨kept, same, _⟩ := sound.inv.dictLinkLocked_returned room linked
      exact (sound.returns t).with_dict kept.inv (same rfl)
    · rename_i d ref linked
      cases fired
      obtain ⟨kept, _, fresh⟩ := sound.inv.dictLinkLocked_returned room linked
      obtain ⟨_, absent, perm, _, _⟩ := fresh ref rfl
      have before := sound.linked key
      rw [Dict.entry_eq_none.mpr absent] at before
      have new : s.inserted key = none := by
        cases old : s.inserted key with
        | none => rfl
        | some j =>
            rw [old] at before
            cases before
      apply sound.write kept.inv
      · intro j old
        rw [new] at old
        cases old
      · -- nobody writes an entry that is not there
        intro u writing
        have fits := sound.threads u
        cases thread : s.thread u <;> rw [thread] at writing fits <;> cases writing
        · rw [DictThread.Fits, new] at fits
          cases fits
        · obtain ⟨v, old⟩ := fits
          rw [new] at old
          cases old
      · exact Or.inl rfl
      · rw [DictThread.Fits, mark_inserted, if_pos rfl]
      · intro k
        rw [mark_inserted, kept.inv.entry_of_linked perm]
        by_cases same : k = key
        · rw [if_pos same, if_pos same.symm]
          exact .some ⟨rfl, rfl⟩
        · rw [if_neg same, if_neg (Ne.symm same)]
          exact sound.linked k
  · cases fired

/-- An assignment to the entry of an insertion. -/
theorem Sound.linked_assign (sound : s.Sound) {key : CStr} {i j : Insertion} {th : DictThread}
    {f : DictEntry → DictEntry} (keeps : ∀ e, (f e).key = e.key) (there : s.inserted key = some i)
    (fills : ∀ e, i.Fills e → j.Fills (f e)) (k : CStr) :
    Option.Rel Insertion.Fills (((s.set t th).mark key j).inserted k)
      ((s.dict.assign key f).entry k) := by
  rw [mark_inserted, Dict.entry_assign keeps]
  by_cases same : k = key
  · subst same
    obtain ⟨e, found, now⟩ := sound.entry_of_inserted there
    rw [if_pos rfl, found, Option.map_some, if_pos rfl]
    exact .some (fills e now)
  · simp only [if_neg same, Option.map_id']
    exact sound.linked k

/-- `dict_set_val`. -/
theorem Sound.setVal (sound : s.Sound) {key : CStr} {value : UInt64} {size : Nat}
    (fired : step g s (.run t) = some s') (here : s.thread t = .setVal key value size) :
    s'.Sound := by
  have there : s.inserted key = some ⟨value, size, false, false⟩ := sound.fits here
  have writing : (s.thread t).writes = some key := by rw [here, DictThread.writes]
  rw [step, here] at fired
  simp only [there, Option.some.injEq] at fired
  subst fired
  have keeps (e : DictEntry) : DictEntry.key { e with value } = e.key := rfl
  apply sound.write (sound.inv.assign keeps)
  · intro j old
    obtain rfl := Option.some.inj (there.symm.trans old)
    exact ⟨rfl, rfl⟩
  · exact sound.mine writing
  · exact Or.inl rfl
  · exact ⟨value, by rw [mark_inserted, if_pos rfl]⟩
  · apply sound.linked_assign keeps there
    intro e fills
    exact ⟨rfl, fills.length_eq⟩

/-- `e->length = size`. -/
theorem Sound.setLength (sound : s.Sound) {key : CStr} {size : Nat}
    (fired : step g s (.run t) = some s') (here : s.thread t = .setLength key size) :
    s'.Sound := by
  obtain ⟨value, there⟩ : ∃ value, s.inserted key = some ⟨value, size, true, false⟩ :=
    sound.fits here
  have writing : (s.thread t).writes = some key := by rw [here, DictThread.writes]
  rw [step, here] at fired
  simp only [there, Option.some.injEq] at fired
  subst fired
  have keeps (e : DictEntry) : DictEntry.key { e with length := size } = e.key := rfl
  apply sound.write (sound.inv.assign keeps)
  · intro j old
    obtain rfl := Option.some.inj (there.symm.trans old)
    exact ⟨rfl, rfl⟩
  · exact sound.mine writing
  · exact Or.inr rfl
  · trivial
  · apply sound.linked_assign keeps there
    intro e fills
    exact ⟨fills.value_eq, rfl⟩

/-- A field that is zero until it is assigned reads right exactly if it is
assigned by now, or zero anyway. -/
theorem assigned_iff {α : Type} [DecidableEq α] [Zero α] (isSet : Bool) (v : α) :
    (if isSet then v else 0) = v ↔ (isSet || decide (v = 0)) = true := by
  cases isSet with
  | false => simp [eq_comm]
  | true => simp

/-- `*data = e->value`. -/
theorem Sound.readValue (sound : s.Sound) {key : CStr}
    (fired : step g s (.run t) = some s') (here : s.thread t = .readValue key) : s'.Sound := by
  rw [step, here] at fired
  dsimp only at fired
  split at fired
  · rename_i e i found there
    cases fired
    obtain ⟨e', found', fills⟩ := sound.entry_of_inserted there
    obtain rfl := Option.some.inj (found.symm.trans found')
    refine sound.set ⟨i, there, ?_⟩ rfl
    rw [fills.value_eq]
    exact assigned_iff i.valueSet i.value
  · cases fired

/-- `*size = e->length`. -/
theorem Sound.readLength (sound : s.Sound) {key : CStr} {data : UInt64} {timely : Bool}
    (fired : step g s (.run t) = some s') (here : s.thread t = .readLength key data timely) :
    s'.Sound := by
  obtain ⟨j, there', first⟩ : ∃ i, s.inserted key = some i ∧ (data = i.value ↔ timely = true) :=
    sound.fits here
  rw [step, here] at fired
  dsimp only at fired
  split at fired
  · rename_i e i found there
    cases fired
    obtain rfl := Option.some.inj (there.symm.trans there')
    obtain ⟨e', found', fills⟩ := sound.entry_of_inserted there
    obtain rfl := Option.some.inj (found.symm.trans found')
    refine Sound.with_lookup (sound.returns t) ⟨i, there, ?_⟩
    dsimp only
    rw [fills.length_eq, assigned_iff, first, Bool.and_eq_true]
  · cases fired

theorem Sound.run (sound : s.Sound) (fired : step g s (.run t) = some s') : s'.Sound := by
  cases here : s.thread t with
  | idle =>
      rw [step, here] at fired
      cases fired
  | entering task =>
      rw [step, here] at fired
      cases fired
      apply sound.set
      · split <;> trivial
      · split <;> rfl
  | stepping task =>
      rw [step, here] at fired
      obtain ⟨d, stepped, rfl⟩ := Option.map_eq_some_iff.mp fired
      rw [dictRehashStep] at stepped
      split at stepped
      · obtain ⟨d', r, ran, inv, perm, _⟩ := sound.inv.dictRehash 1
        rw [ran] at stepped
        cases stepped
        exact (sound.locks t task).with_dict inv perm
      · cases stepped
        exact sound.locks t task
  | locking task =>
      cases task with
      | add key data ty size => exact sound.link fired here
      | lookup key =>
          rw [step, here] at fired
          dsimp only at fired
          rcases sound.inv.dictFindLocked key with ⟨_, missing⟩ | ⟨r, e, found, _⟩
          · rw [missing] at fired
            cases fired
            exact sound.returns t
          · rw [found] at fired
            cases fired
            exact sound.set trivial rfl
  | setVal key value size => exact sound.setVal fired here
  | setLength key size => exact sound.setLength fired here
  | readValue key => exact sound.readValue fired here
  | readLength key data timely => exact sound.readLength fired here

theorem Sound.step {event : Event τ} (sound : s.Sound) (fired : step g s event = some s') :
    s'.Sound := by
  cases event with
  | start t task =>
      rw [DictSystem.step] at fired
      split at fired
      · cases fired
        exact sound.set trivial rfl
      · cases fired
  | run t => exact sound.run fired
  | worker num =>
      obtain ⟨d, ran, rfl⟩ := Option.map_eq_some_iff.mp fired
      obtain ⟨d', r, ran', inv, perm, _⟩ := sound.inv.dictRehash num
      obtain rfl := Option.some.inj (ran'.symm.trans ran)
      exact sound.with_dict inv perm

end DictSystem

end XFireDB
