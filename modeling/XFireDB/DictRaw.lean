import XFireDB.DictRuns

/-!
# Values with a length of their own

`raw_dict_add` and `raw_dict_update` take the length of the value from their
caller.  An update of a key that is not there goes through `dict_add`, which
computes the length from the type: the caller's is lost.
-/

namespace XFireDB

open Lib

/-! ## Runs -/

/-- The events of a dictionary with the calls that carry a length. -/
inductive RawDictEvent
  | event (e : DictEvent)
  | rawAdd (key : CStr) (data : DictArg) (t : DictType) (size : Nat)
  | rawUpdate (key : CStr) (data : DictArg) (t : DictType) (l : Nat)

/-- The dictionary after an event. -/
def rawDictStep (g : DictGlobals) (d : Dict) : RawDictEvent → Option Dict
  | .event e => dictStep g d e
  | .rawAdd key data t size =>
      if d.heapHolds (.add key data t) then (rawDictAdd g d key data t size).map Prod.fst else none
  | .rawUpdate key data t l =>
      if d.heapHolds (.update key data t) then (rawDictUpdate g d key data t l).map Prod.fst
      else none

/-- The invariant of a run: the entries fit in the address space. -/
structure Dict.Sound (d : Dict) : Prop where
  inv : d.Inv
  count : 0 ≤ d.iterators
  heap : d.entries.length * dictEntryBytes < 2 ^ 64

variable {g : DictGlobals} {d d' : Dict} {key : CStr} {data : DictArg} {t : DictType} {l : Nat}

/-- The keys bound the number of entries. -/
theorem Dict.Inv.length_le (inv : d'.Inv) {keys : List CStr} (covered : ∀ k, d'.Has k → k ∈ keys) :
    d'.entries.length ≤ keys.length := by
  have sub : d'.entries.map DictEntry.key ⊆ keys := by
    intro k member
    obtain ⟨e, inside, same⟩ := List.mem_map.mp member
    exact covered k ⟨e, inside, same⟩
  have bound := (List.subperm_of_subset inv.distinct sub).length_le
  rwa [List.length_map] at bound

theorem Dict.mem_keys {k : CStr} : k ∈ d.entries.map DictEntry.key ↔ d.Has k := List.mem_map

/-- Without a new key there are no more entries than before. -/
theorem Dict.Inv.length_of_sub (inv : d'.Inv) (sub : ∀ k, d'.Has k → d.Has k) :
    d'.entries.length ≤ d.entries.length := by
  have bound := inv.length_le fun k has => Dict.mem_keys.mpr (sub k has)
  rwa [List.length_map] at bound

theorem Dict.Inv.length_of_same (inv : d'.Inv) (same : d'.toMap = d.toMap) :
    d'.entries.length ≤ d.entries.length := by
  apply inv.length_of_sub
  intro k has
  rwa [Dict.has_iff, same, ← Dict.has_iff] at has

theorem Dict.Inv.length_of_unbind (inv : d'.Inv)
    (mapEq : d'.toMap = Function.update d.toMap key none) :
    d'.entries.length ≤ d.entries.length := by
  apply inv.length_of_sub
  intro k has
  rw [Dict.has_iff, mapEq, Function.update_apply] at has
  split at has
  · contradiction
  · exact Dict.has_iff.mpr has

/-- A binding adds at most one entry. -/
theorem Dict.Inv.length_of_bind (inv : d'.Inv) {v : Option (UInt64 × Nat)}
    (mapEq : d'.toMap = Function.update d.toMap key v) :
    d'.entries.length ≤ d.entries.length + 1 := by
  have covered : ∀ k, d'.Has k → k ∈ key :: d.entries.map DictEntry.key := by
    intro k has
    rw [Dict.has_iff, mapEq, Function.update_apply] at has
    split at has
    · rename_i same
      exact same ▸ List.mem_cons_self
    · exact List.mem_cons_of_mem _ (Dict.mem_keys.mpr (Dict.has_iff.mpr has))
  have bound := inv.length_le covered
  rwa [List.length_cons, List.length_map] at bound

/-- An insertion keeps the entries in the address space if there is room for one
more. -/
theorem Dict.Inv.heap_of_insert (inv : d'.Inv) {rc : Rc} {v : Option (UInt64 × Nat)}
    (heap : (d.entries.length + 1) * dictEntryBytes < 2 ^ 64)
    (failed : rc ≠ .ok → d'.toMap = d.toMap)
    (bound : rc = .ok → d'.toMap = Function.update d.toMap key v) :
    d'.entries.length * dictEntryBytes < 2 ^ 64 := by
  have few : d'.entries.length ≤ d.entries.length + 1 := by
    rcases eq_or_ne rc .ok with ok | err
    · exact inv.length_of_bind (bound ok)
    · exact (inv.length_of_same (failed err)).trans (Nat.le_succ _)
  exact lt_of_le_of_lt (Nat.mul_le_mul_right _ few) heap

theorem Dict.room_of_heap (heap : d.entries.length * dictEntryBytes < 2 ^ 64) :
    d.entries.length * 2 < longMax := by
  rw [dictEntryBytes] at heap
  rw [longMax]
  omega

theorem Dict.Sound.room (sound : d.Sound) : d.entries.length * 2 < longMax :=
  Dict.room_of_heap sound.heap

theorem Dict.Sound.rawAdd (sound : d.Sound)
    (heap : (d.entries.length + 1) * dictEntryBytes < 2 ^ 64) {rc : Rc}
    (ran : rawDictAdd g d key data t l = some (d', rc)) : d'.Sound := by
  obtain ⟨kept, failed, bound⟩ := sound.inv.rawDictAdd_returned sound.room ran
  exact ⟨kept.inv, kept.iterators_eq.symm ▸ sound.count, kept.inv.heap_of_insert heap failed bound⟩

theorem Dict.Sound.rawUpdate (sound : d.Sound)
    (heap : (d.entries.length + 1) * dictEntryBytes < 2 ^ 64) {rc : Rc}
    (ran : rawDictUpdate g d key data t l = some (d', rc)) : d'.Sound := by
  obtain ⟨kept, failed, present, absent⟩ := sound.inv.rawDictUpdate_returned sound.room ran
  refine ⟨kept.inv, kept.iterators_eq.symm ▸ sound.count, ?_⟩
  by_cases has : d.Has key
  · exact kept.inv.heap_of_insert heap failed fun ok => present ok has
  · exact kept.inv.heap_of_insert heap failed fun ok => absent ok has

theorem Dict.Sound.call (sound : d.Sound) {c : DictCall} (heap : d.heapHolds c = true)
    {r : DictReply} (ran : d.call g c = some (d', r)) : d'.Sound := by
  have kept := sound.inv.call_returned heap ran
  have count : 0 ≤ d'.iterators := kept.iterators_eq.symm ▸ sound.count
  cases c with
  | add key data t =>
      obtain ⟨⟨d₁, rc⟩, added, same⟩ := Option.map_eq_some_iff.mp ran
      cases same
      exact sound.rawAdd (of_decide_eq_true heap) added
  | update key data t =>
      obtain ⟨⟨d₁, rc⟩, updated, same⟩ := Option.map_eq_some_iff.mp ran
      cases same
      exact sound.rawUpdate (of_decide_eq_true heap) updated
  | delete key =>
      obtain ⟨⟨d₁, v⟩, deleted, same⟩ := Option.map_eq_some_iff.mp ran
      cases same
      obtain ⟨d₂, deleted', _, mapEq⟩ := sound.inv.dictDelete key
      obtain rfl : d₂ = d' := congrArg Prod.fst (Option.some.inj (deleted'.symm.trans deleted))
      have few := kept.inv.length_of_unbind mapEq
      exact ⟨kept.inv, count, lt_of_le_of_lt (Nat.mul_le_mul_right _ few) sound.heap⟩
  | lookup key =>
      obtain ⟨⟨d₁, v⟩, looked, same⟩ := Option.map_eq_some_iff.mp ran
      cases same
      obtain ⟨⟨d₂, e⟩, found, same⟩ := Option.bind_eq_some_iff.mp looked
      cases same
      rcases sound.inv.dictForeground with ⟨d₃, fore, _, perm⟩
      obtain rfl : d₃ = d' := Option.some.inj (fore.symm.trans (dictFind_foreground found))
      exact ⟨kept.inv, count, perm.length_eq ▸ sound.heap⟩
  | clear =>
      cases ran
      have heap : (0 : Nat) * dictEntryBytes < 2 ^ 64 := by decide
      exact ⟨kept.inv, count, heap⟩

theorem Dict.Sound.event (sound : d.Sound) {e : DictEvent} (fired : dictStep g d e = some d') :
    d'.Sound := by
  have inv := sound.inv.step sound.count fired
  cases e with
  | call c =>
      rw [dictStep] at fired
      split at fired
      · rename_i heap
        obtain ⟨⟨d₁, r⟩, ran, rfl⟩ := Option.map_eq_some_iff.mp fired
        exact sound.call heap ran
      · cases fired
  | rehash num =>
      obtain ⟨d₁, r, ran, _, perm, _⟩ := sound.inv.dictRehash num
      rw [dictStep, ran] at fired
      obtain rfl := Option.some.inj fired
      exact ⟨inv.1, inv.2, perm.length_eq ▸ sound.heap⟩
  | getSafeIterator =>
      obtain rfl := Option.some.inj fired
      exact ⟨inv.1, inv.2, sound.heap⟩
  | iteratorFree =>
      rw [dictStep] at fired
      split at fired
      · obtain rfl := Option.some.inj fired
        exact ⟨inv.1, inv.2, sound.heap⟩
      · cases fired

theorem Dict.Sound.step (sound : d.Sound) {e : RawDictEvent} (fired : rawDictStep g d e = some d') :
    d'.Sound := by
  cases e with
  | event e => exact sound.event fired
  | rawAdd key data t size =>
      rw [rawDictStep] at fired
      split at fired
      · rename_i heap
        obtain ⟨⟨d₁, rc⟩, ran, rfl⟩ := Option.map_eq_some_iff.mp fired
        exact sound.rawAdd (of_decide_eq_true heap) ran
      · cases fired
  | rawUpdate key data t l =>
      rw [rawDictStep] at fired
      split at fired
      · rename_i heap
        obtain ⟨⟨d₁, rc⟩, ran, rfl⟩ := Option.map_eq_some_iff.mp fired
        exact sound.rawUpdate (of_decide_eq_true heap) ran
      · cases fired

theorem Dict.sound_of_reachable (run : Reachable (rawDictStep g) dictAlloc d) : d.Sound := by
  apply run.invariant (I := Dict.Sound)
  · exact ⟨dictAlloc_inv, le_refl 0, by decide⟩
  · intro s e s' sound _ fired
    exact sound.step fired

/-! ## The length a look-up returns -/

/-- A look-up returns what the map holds. -/
theorem Dict.Inv.dictLookup (inv : d.Inv) (key : CStr) :
    ∃ d', XFireDB.dictLookup d key = some (d', d.toMap key) := by
  obtain ⟨d', _, _, ⟨unbound, find⟩ | ⟨r, e, find, _, _, bound, _, _⟩⟩ := inv.dictFind key
  · exact ⟨d', by simp [XFireDB.dictLookup, find, unbound]⟩
  · exact ⟨d', by simp [XFireDB.dictLookup, find, bound]⟩

/-- The value and the size `dict_lookup` finds for a key, `some none` if it fails. -/
def Dict.found (d : Dict) (key : CStr) : Option (Option (UInt64 × Nat)) :=
  (XFireDB.dictLookup d key).map Prod.snd

theorem Dict.Inv.found_eq (inv : d.Inv) (key : CStr) : d.found key = some (d.toMap key) := by
  obtain ⟨d', looked⟩ := inv.dictLookup key
  rw [Dict.found, looked]
  rfl

/-- In the later state the key has this value with this size, and every other
key has what it had. -/
def Dict.Stores (d d' : Dict) (key : CStr) (value : UInt64) (l : Nat) : Prop :=
  d'.found key = some (some (value, l)) ∧ ∀ other, other ≠ key → d'.found other = d.found other

/-- A binding stores exactly what it binds. -/
theorem Dict.Inv.stores_iff (inv : d.Inv) (inv' : d'.Inv) {v w : UInt64} {m : Nat}
    (mapEq : d'.toMap = Function.update d.toMap key (some (v, m))) :
    d.Stores d' key w l ↔ v = w ∧ m = l := by
  constructor
  · intro found
    rcases found with ⟨found, _⟩
    rw [inv'.found_eq, mapEq, Function.update_self] at found
    exact Prod.mk.inj (Option.some.inj (Option.some.inj found))
  · intro found
    rcases found with ⟨rfl, rfl⟩
    refine ⟨?_, ?_⟩
    · rw [inv'.found_eq, mapEq, Function.update_self]
    · intro other differs
      rw [inv'.found_eq, mapEq, Function.update_of_ne differs, inv.found_eq]

end XFireDB
