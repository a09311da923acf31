import XFireDB.Lib.Runs
import XFireDB.DictRefinement

/-!
# Runs of dictionary operations

The states that calls, rehash batches and safe iterators reach from
`dict_alloc`, with no bound on the tables: a call that would index an array
with a negative number has no step.  The invariant holds in all of them.

A rehash in progress ends only in a round that moves a bucket.  When deletions
have emptied the primary table there is no such round.
-/

namespace XFireDB

open Lib

/-- `sizeof(struct dict_entry)` on a 64-bit build. -/
def dictEntryBytes : Nat := 40

/-- The entries, with the one an insertion allocates, fit in the address space.
`xfiredb_alloc` ends the process otherwise. -/
def Dict.heapHolds (d : Dict) : DictCall → Bool
  | .add _ _ _ => (d.entries.length + 1) * dictEntryBytes < 2 ^ 64
  | .update _ _ _ => (d.entries.length + 1) * dictEntryBytes < 2 ^ 64
  | _ => true

/-- The dictionary after an event.  Only a live safe iterator is freed. -/
def dictStep (g : DictGlobals) (d : Dict) : DictEvent → Option Dict
  | .call c => if d.heapHolds c then (d.call g c).map Prod.fst else none
  | .rehash num => (dictRehash d num).map Prod.fst
  | .getSafeIterator => some (dictGetSafeIterator d)
  | .iteratorFree => if 0 < d.iterators then some (dictIteratorFree d) else none

/-! ## The invariant without a bound on the tables -/

variable {g : DictGlobals} {d d' : Dict}

theorem DictMap.index_lt_u32 (m : DictMap) (key : CStr) : m.index key < 2 ^ 32 :=
  lt_of_le_of_lt Nat.and_le_left (dictHashKey key dictSeed).toNat_lt

/-- An index of `2^31` or more becomes negative. -/
theorem intOfU32_neg {n : Nat} (large : ¬ n < 2 ^ 31) (wide : n < 2 ^ 32) : intOfU32 n < 0 := by
  rw [intOfU32, if_neg large]
  omega

theorem dictLinkLocked_of_negative {d₂ : Dict} {key : CStr} {i : Int}
    (index : dictCalcIndex g d key = some (d₂, i)) (valid : i ≠ -1) (negative : i < 0) :
    dictLinkLocked g d key = none := by
  rw [dictLinkLocked_eq, index]
  simp only [Option.bind_eq_bind, Option.bind_some, if_neg valid, if_pos negative]

/-- Outside a rehash the primary counter counts all entries. -/
theorem Dict.Inv.length_of_idle (inv : d.Inv) (off : d.rehashing = false) :
    d.primary.length = d.entries.length := by
  rw [inv.entries_of_idle off]
  rcases (inv.idle off).2 with reset | ⟨a, t⟩
  · rw [reset]
    rfl
  · rw [t.entries_eq, t.length_eq]

theorem Dict.Inv.growable_of_entries (inv : d.Inv) (room : d.entries.length * 2 < longMax) :
    d.Growable g := by
  intro off _
  rw [inv.length_of_idle off]
  omega

/-! ## Calls and the count of iterators -/

theorem Dict.Inv.foreground_iterators (inv : d.Inv) (fore : XFireDB.dictForeground d = some d') :
    d'.iterators = d.iterators := by
  rw [XFireDB.dictForeground, dictRehashStep] at fore
  split at fore
  · split at fore
    · obtain ⟨d₁, r, ran, _, _, same⟩ := inv.dictRehash 1
      rw [ran] at fore
      obtain rfl := Option.some.inj fore
      exact same
    · obtain rfl := Option.some.inj fore
      rfl
  · obtain rfl := Option.some.inj fore
    rfl

theorem dictExpand_iterators (d : Dict) (size : Nat) :
    (dictExpand d size).1.iterators = d.iterators := by
  rw [dictExpand]
  split_ifs <;> rfl

theorem dictExpandIf_iterators (g : DictGlobals) (d : Dict) :
    (dictExpandIf g d).1.iterators = d.iterators := by
  rw [dictExpandIf]
  split_ifs
  · rfl
  · exact dictExpand_iterators d _
  · exact dictExpand_iterators d _
  · rfl

/-- What linking, unlinking and writing leave alone. -/
structure Dict.Framed (d d' : Dict) : Prop where
  iterators_eq : d'.iterators = d.iterators
  rehashing_eq : d'.rehashing = d.rehashing
  size_eq : d'.primary.size = d.primary.size

theorem Dict.Framed.refl (d : Dict) : d.Framed d := ⟨rfl, rfl, rfl⟩

theorem Dict.Framed.trans {d₁ d₂ d₃ : Dict} (first : d₁.Framed d₂) (second : d₂.Framed d₃) :
    d₁.Framed d₃ :=
  ⟨second.iterators_eq.trans first.iterators_eq, second.rehashing_eq.trans first.rehashing_eq,
    second.size_eq.trans first.size_eq⟩

theorem DictMap.push_size {m m' : DictMap} {i : Nat} {e : DictEntry}
    (pushed : m.push i e = some m') :
    m'.size = m.size := by
  obtain ⟨chain, _, same⟩ := Option.bind_eq_some_iff.mp pushed
  cases same
  rfl

theorem DictMap.write_size {m m' : DictMap} {key : CStr} {v : UInt64} {l : Nat}
    (written : m.write key v l = some m') : m'.size = m.size := by
  obtain ⟨chain, _, same⟩ := Option.bind_eq_some_iff.mp written
  cases same
  rfl

theorem DictMap.unlink_size {m m' : DictMap} {key : CStr} {e : Option DictEntry}
    (unlinked : m.unlink key = some (m', e)) : m'.size = m.size := by
  obtain ⟨chain, _, same⟩ := Option.bind_eq_some_iff.mp unlinked
  split at same
  · cases same
    rfl
  · cases same
    rfl

theorem Dict.write_frame {r : EntryRef} {v : UInt64} {l : Nat}
    (written : d.write r v l = some d') : d.Framed d' := by
  rw [Dict.write] at written
  split at written
  · obtain ⟨m, _, same⟩ := Option.bind_eq_some_iff.mp written
    cases same
    exact ⟨rfl, rfl, rfl⟩
  · obtain ⟨m, inner, same⟩ := Option.bind_eq_some_iff.mp written
    cases same
    exact ⟨rfl, rfl, DictMap.write_size inner⟩

/-- `dict_calc_index` changes what `dict_expand_if` changes. -/
theorem dictCalcIndex_expanded {d₂ : Dict} {key : CStr} {i : Int}
    (index : dictCalcIndex g d key = some (d₂, i)) : d₂ = (dictExpandIf g d).1 := by
  rw [dictCalcIndex] at index
  rcases expanded : dictExpandIf g d with ⟨d₁, rc⟩
  rw [expanded] at index
  simp only at index
  split at index
  · cases index
    rfl
  · obtain ⟨chain, _, index⟩ := Option.bind_eq_some_iff.mp index
    split at index
    · cases index
      rfl
    · split at index
      · obtain ⟨chain', _, index⟩ := Option.bind_eq_some_iff.mp index
        split at index
        · cases index
          rfl
        · cases index
          rfl
      · cases index
        rfl

theorem dictLinkLocked_frame {key : CStr} {r : Option EntryRef}
    (ran : dictLinkLocked g d key = some (d', r)) : (dictExpandIf g d).1.Framed d' := by
  rw [dictLinkLocked_eq] at ran
  rcases index : dictCalcIndex g d key with - | ⟨d₂, i⟩
  · rw [index] at ran
    cases ran
  · rw [index] at ran
    simp only [Option.bind_eq_bind, Option.bind_some] at ran
    rw [← dictCalcIndex_expanded index]
    split_ifs at ran
    · cases ran
      exact Dict.Framed.refl _
    · obtain ⟨m, pushed, ran⟩ := Option.bind_eq_some_iff.mp ran
      cases ran
      exact ⟨rfl, rfl, rfl⟩
    · obtain ⟨m, pushed, ran⟩ := Option.bind_eq_some_iff.mp ran
      cases ran
      exact ⟨rfl, rfl, DictMap.push_size pushed⟩

theorem dictFind_foreground {key : CStr} {r : Option (EntryRef × DictEntry)}
    (ran : dictFind d key = some (d', r)) : dictForeground d = some d' := by
  obtain ⟨d₁, fore, ran⟩ := Option.bind_eq_some_iff.mp ran
  rw [fore]
  rw [dictFindLocked] at ran
  split at ran
  · cases ran
    rfl
  · obtain ⟨chain, _, ran⟩ := Option.bind_eq_some_iff.mp ran
    split at ran
    · cases ran
      rfl
    · split at ran
      · obtain ⟨chain', _, ran⟩ := Option.bind_eq_some_iff.mp ran
        cases ran
        rfl
      · cases ran
        rfl

theorem dictUnlink_frame {key : CStr} {r : Option DictEntry}
    (ran : dictUnlink d key = some (d', r)) :
    ∃ d₁, dictForeground d = some d₁ ∧ d₁.Framed d' := by
  obtain ⟨d₁, fore, ran⟩ := Option.bind_eq_some_iff.mp ran
  refine ⟨d₁, fore, ?_⟩
  split at ran
  · cases ran
    exact Dict.Framed.refl _
  · obtain ⟨⟨m, e⟩, unlinked, ran⟩ := Option.bind_eq_some_iff.mp ran
    cases e with
    | some e =>
        cases ran
        exact ⟨rfl, rfl, DictMap.unlink_size unlinked⟩
    | none =>
        replace ran : (if d₁.rehashing then _ else _) = some (d', r) := ran
        split at ran
        · obtain ⟨⟨m', e'⟩, _, ran⟩ := Option.bind_eq_some_iff.mp ran
          cases ran
          exact ⟨rfl, rfl, rfl⟩
        · cases ran
          exact Dict.Framed.refl _

/-! ## Calls that return -/

/-- A call keeps the invariant and leaves the iterators alone. -/
structure Dict.Kept (d d' : Dict) : Prop where
  inv : d'.Inv
  iterators_eq : d'.iterators = d.iterators

/-- What the locked part of `__dict_add` leaves, for tables of any size. -/
theorem Dict.Inv.dictLinkLocked_returned (inv : d.Inv) {key : CStr}
    (room : d.entries.length * 2 < longMax) {r : Option EntryRef}
    (ran : dictLinkLocked g d key = some (d', r)) :
    d.Kept d' ∧ (r = none → d'.entries.Perm d.entries) ∧ ∀ ref, r = some ref → ref.key = key ∧
      ¬ d.Has key ∧ d'.entries.Perm (⟨key, 0, 0⟩ :: d.entries) ∧
      (ref.inRehash = true → d'.rehashing = true) ∧ ⟨key, 0, 0⟩ ∈ (d'.tableOf ref).entries := by
  obtain ⟨d₂, _, inv₂, entriesEq, ⟨a, t⟩, cases_⟩ :=
    inv.calcIndex key (inv.growable_of_entries (g := g) room)
  have perm₂ : d₂.entries.Perm d.entries := by rw [entriesEq]
  have same : d'.iterators = d.iterators := by
    rw [(dictLinkLocked_frame ran).iterators_eq, dictExpandIf_iterators]
  have failed (index : XFireDB.dictCalcIndex g d key = some (d₂, -1)) :
      r = none ∧ d.Kept d' ∧ d'.entries.Perm d.entries := by
    rw [dictLinkLocked_eq, index] at ran
    obtain ⟨rfl, rfl⟩ : d₂ = d' ∧ none = r := by simpa using ran
    exact ⟨rfl, ⟨inv₂, same⟩, perm₂⟩
  rcases cases_ with ⟨_, index⟩ | ⟨absent, index⟩
  · obtain ⟨rfl, kept, perm⟩ := failed index
    exact ⟨kept, fun _ => perm, fun ref h => (by cases h)⟩
  · by_cases small : d₂.growing.index key < 2 ^ 31
    · rw [intOfU32_small small] at index
      obtain ⟨d₃, ref, link, inv₃, keyEq, perm, busy, member⟩ :=
        inv.link_fresh inv₂ t perm₂ absent index
      rw [link] at ran
      obtain ⟨rfl, rfl⟩ : d₃ = d' ∧ some ref = r := by simpa using ran
      refine ⟨⟨inv₃, same⟩, fun h => (by cases h), ?_⟩
      intro ref' same
      obtain rfl := Option.some.inj same
      exact ⟨keyEq, absent, perm, busy, member⟩
    · -- the index does not fit in an `int`
      have negative := intOfU32_neg small (DictMap.index_lt_u32 d₂.growing key)
      by_cases last : intOfU32 (d₂.growing.index key) = -1
      · rw [last] at index
        obtain ⟨rfl, kept, perm⟩ := failed index
        exact ⟨kept, fun _ => perm, fun ref h => (by cases h)⟩
      · rw [dictLinkLocked_of_negative index last negative] at ran
        cases ran

/-- What `__dict_add` leaves when it returns. -/
theorem Dict.Inv.dictLink_returned (inv : d.Inv) {key : CStr}
    (room : d.entries.length * 2 < longMax) {r : Option EntryRef}
    (ran : XFireDB.dictLink g d key = some (d', r)) :
    d.Kept d' ∧ (r = none → d'.entries.Perm d.entries) ∧ ∀ ref, r = some ref → ref.key = key ∧
      ¬ d.Has key ∧ d'.entries.Perm (⟨key, 0, 0⟩ :: d.entries) ∧
      (ref.inRehash = true → d'.rehashing = true) ∧ ⟨key, 0, 0⟩ ∈ (d'.tableOf ref).entries := by
  obtain ⟨d₁, fore, inv₁, perm₁⟩ := inv.dictForeground
  rw [← perm₁.length_eq] at room
  rw [dictLink_eq, fore, Option.bind_some] at ran
  obtain ⟨kept, failed, linked⟩ := inv₁.dictLinkLocked_returned room ran
  refine ⟨⟨kept.inv, kept.iterators_eq.trans (inv.foreground_iterators fore)⟩,
    fun missed => (failed missed).trans perm₁, ?_⟩
  intro ref isRef
  obtain ⟨keyEq, absent, perm, busy, member⟩ := linked ref isRef
  refine ⟨keyEq, ?_, perm.trans (perm₁.cons _), busy, member⟩
  rwa [← Dict.Has.of_perm perm₁]

/-- Writing through the pointer of a linked entry rebinds its key. -/
theorem Dict.Inv.write_kept (inv : d.Inv) {r : EntryRef} {value : UInt64} {length : Nat}
    (busy : r.inRehash = true → d.rehashing = true) {e : DictEntry}
    (member : e ∈ (d.tableOf r).entries) (keyEq : e.key = r.key)
    (written : d.write r value length = some d') :
    d.Kept d' ∧ d'.toMap = Function.update d.toMap r.key (some (value, length)) := by
  obtain ⟨d₁, old, rest, written', inv₁, oldKey, before, after⟩ :=
    inv.write value length busy member keyEq
  obtain rfl : d₁ = d' := Option.some.inj (written'.symm.trans written)
  exact ⟨⟨inv₁, (Dict.write_frame written).iterators_eq⟩,
    inv.toMap_of_write ⟨r.key, value, length⟩ oldKey before after⟩

theorem Dict.Kept.trans {d₁ d₂ d₃ : Dict} (first : d₁.Kept d₂) (second : d₂.Kept d₃) :
    d₁.Kept d₃ :=
  ⟨second.inv, second.iterators_eq.trans first.iterators_eq⟩

/-- What `raw_dict_add` leaves when it returns. -/
theorem Dict.Inv.rawDictAdd_returned (inv : d.Inv) {key : CStr} {data : DictArg} {t : DictType}
    {size : Nat} (room : d.entries.length * 2 < longMax) {rc : Rc}
    (ran : rawDictAdd g d key data t size = some (d', rc)) :
    d.Kept d' ∧ (rc ≠ .ok → d'.toMap = d.toMap) ∧
      (rc = .ok → d'.toMap = Function.update d.toMap key (some (dictVal data t, size))) := by
  obtain ⟨⟨d₁, r⟩, link, ran⟩ := Option.bind_eq_some_iff.mp ran
  obtain ⟨kept, failed, linked⟩ := inv.dictLink_returned room link
  cases r with
  | none =>
      cases ran
      exact ⟨kept, fun _ => inv.toMap_of_perm (failed rfl), fun ok => (by cases ok)⟩
  | some ref =>
      obtain ⟨keyEq, _, perm, busy, member⟩ := linked ref rfl
      obtain ⟨d₂, written, ran⟩ := Option.bind_eq_some_iff.mp ran
      cases ran
      obtain ⟨kept₂, mapEq⟩ := kept.inv.write_kept busy member keyEq.symm written
      refine ⟨kept.trans kept₂, fun failed => absurd rfl failed, fun _ => ?_⟩
      have distinct := (perm.map DictEntry.key).nodup_iff.mp kept.inv.distinct
      rw [mapEq, Dict.toMap_of_cons distinct perm, keyEq, Function.update_idem]
      rfl

theorem Dict.Inv.dictAdd_returned (inv : d.Inv) {key : CStr} {data : DictArg} {t : DictType}
    (room : d.entries.length * 2 < longMax) {rc : Rc}
    (ran : XFireDB.dictAdd g d key data t = some (d', rc)) : d.Kept d' :=
  (inv.rawDictAdd_returned room ran).1

/-- What `raw_dict_update` leaves when it returns.  The given length reaches only
a key that is there. -/
theorem Dict.Inv.rawDictUpdate_returned (inv : d.Inv) {key : CStr} {data : DictArg} {t : DictType}
    {l : Nat} (room : d.entries.length * 2 < longMax) {rc : Rc}
    (ran : rawDictUpdate g d key data t l = some (d', rc)) :
    d.Kept d' ∧ (rc ≠ .ok → d'.toMap = d.toMap) ∧
      (rc = .ok → d.Has key →
        d'.toMap = Function.update d.toMap key (some (dictVal data t, l))) ∧
      (rc = .ok → ¬ d.Has key →
        d'.toMap = Function.update d.toMap key (some (dictVal data t, dictGetEntryLength t))) := by
  rw [rawDictUpdate, rawDictUpdateBy] at ran
  obtain ⟨d₁, inv₁, perm, cases_⟩ := inv.dictFind key
  have mapEq := inv.toMap_of_perm perm
  rcases cases_ with ⟨unbound, find⟩ | ⟨r, e, find, refKey, keyEq, bound, busy, member⟩
  · have kept : d.Kept d₁ := ⟨inv₁, inv.foreground_iterators (dictFind_foreground find)⟩
    have absent : ¬ d.Has key := fun has => Dict.has_iff.mp has unbound
    rw [find] at ran
    obtain ⟨kept₂, failed, added⟩ := inv₁.rawDictAdd_returned (by rwa [perm.length_eq]) ran
    refine ⟨kept.trans kept₂, fun missed => (failed missed).trans mapEq,
      fun _ has => absurd has absent, fun ok _ => ?_⟩
    rw [added ok, mapEq]
  · have kept : d.Kept d₁ := ⟨inv₁, inv.foreground_iterators (dictFind_foreground find)⟩
    have has : d.Has key := Dict.has_iff.mpr (by rw [bound]; exact Option.some_ne_none _)
    rw [find, Option.bind_eq_bind, Option.bind_some] at ran
    obtain ⟨d₂, written, ran⟩ := Option.bind_eq_some_iff.mp ran
    cases ran
    obtain ⟨kept₂, mapEq₂⟩ := inv₁.write_kept busy member (keyEq.trans refKey.symm) written
    refine ⟨kept.trans kept₂, fun failed => absurd rfl failed, fun _ _ => ?_,
      fun _ absent => absurd has absent⟩
    rw [mapEq₂, refKey, mapEq]

theorem Dict.Inv.dictUpdate_returned (inv : d.Inv) {key : CStr} {data : DictArg} {t : DictType}
    (room : d.entries.length * 2 < longMax) {rc : Rc}
    (ran : XFireDB.dictUpdate g d key data t = some (d', rc)) : d.Kept d' :=
  (inv.rawDictUpdate_returned room ran).1

theorem Dict.Inv.dictDelete_returned (inv : d.Inv) {key : CStr} {v : Option UInt64}
    (ran : XFireDB.dictDelete d key = some (d', v)) : d.Kept d' := by
  obtain ⟨d₁, deleted, inv₁, _⟩ := inv.dictDelete key
  obtain rfl : d₁ = d' := congrArg Prod.fst (Option.some.inj (deleted.symm.trans ran))
  obtain ⟨⟨d₂, e⟩, unlinked, same⟩ := Option.bind_eq_some_iff.mp ran
  cases same
  obtain ⟨d₁, fore, frame⟩ := dictUnlink_frame unlinked
  exact ⟨inv₁, frame.iterators_eq.trans (inv.foreground_iterators fore)⟩

theorem Dict.Inv.dictLookup_returned (inv : d.Inv) {key : CStr} {v : Option (UInt64 × Nat)}
    (ran : dictLookup d key = some (d', v)) : d.Kept d' := by
  obtain ⟨⟨d₁, e⟩, found, same⟩ := Option.bind_eq_some_iff.mp ran
  cases same
  obtain ⟨d₂, fore, inv₂, _⟩ := inv.dictForeground
  have fore' := dictFind_foreground found
  obtain rfl : d₂ = d' := Option.some.inj (fore.symm.trans fore')
  exact ⟨inv₂, inv.foreground_iterators fore⟩

/-- A call that returns keeps the invariant and the count of iterators. -/
theorem Dict.Inv.call_returned (inv : d.Inv) {c : DictCall} (heap : d.heapHolds c = true)
    {r : DictReply} (ran : d.call g c = some (d', r)) : d.Kept d' := by
  have room : (d.entries.length + 1) * dictEntryBytes < 2 ^ 64 →
      d.entries.length * 2 < longMax := by
    rw [dictEntryBytes, longMax]
    omega
  cases c with
  | add key data t =>
      obtain ⟨⟨d₁, rc⟩, added, same⟩ := Option.map_eq_some_iff.mp ran
      cases same
      exact inv.dictAdd_returned (room (of_decide_eq_true heap)) added
  | update key data t =>
      obtain ⟨⟨d₁, rc⟩, updated, same⟩ := Option.map_eq_some_iff.mp ran
      cases same
      exact inv.dictUpdate_returned (room (of_decide_eq_true heap)) updated
  | delete key =>
      obtain ⟨⟨d₁, v⟩, deleted, same⟩ := Option.map_eq_some_iff.mp ran
      cases same
      exact inv.dictDelete_returned deleted
  | lookup key =>
      obtain ⟨⟨d₁, v⟩, found, same⟩ := Option.map_eq_some_iff.mp ran
      cases same
      exact inv.dictLookup_returned found
  | clear =>
      cases ran
      exact ⟨Dict.Inv.dictClear.1, rfl⟩

/-- The number of live iterators does not matter to the invariant. -/
theorem Dict.Inv.with_iterators (inv : d.Inv) (n : Int) : Dict.Inv { d with iterators := n } where
  distinct := inv.distinct
  busy on := by
    obtain ⟨a, b, run⟩ := inv.busy on
    exact ⟨a, b, run.primary, run.rehash, run.idx_nonneg, run.idx_le, run.moved⟩
  idle := inv.idle

/-- Every event keeps the invariant, and no more iterators are freed than were
created. -/
theorem Dict.Inv.step (inv : d.Inv) (count : 0 ≤ d.iterators) {e : DictEvent}
    (fired : dictStep g d e = some d') : d'.Inv ∧ 0 ≤ d'.iterators := by
  cases e with
  | call c =>
      rw [dictStep] at fired
      split at fired
      · rename_i heap
        obtain ⟨⟨d₁, r⟩, ran, rfl⟩ := Option.map_eq_some_iff.mp fired
        have kept := inv.call_returned heap ran
        exact ⟨kept.inv, kept.iterators_eq.symm ▸ count⟩
      · cases fired
  | rehash num =>
      obtain ⟨d₁, r, ran, inv₁, _, same⟩ := inv.dictRehash num
      rw [dictStep, ran] at fired
      obtain rfl := Option.some.inj fired
      exact ⟨inv₁, same.symm ▸ count⟩
  | getSafeIterator =>
      obtain rfl := Option.some.inj fired
      exact ⟨inv.with_iterators _, Int.add_nonneg count (by decide)⟩
  | iteratorFree =>
      rw [dictStep] at fired
      split at fired
      · rename_i live
        obtain rfl := Option.some.inj fired
        exact ⟨inv.with_iterators _, Int.sub_nonneg.mpr live⟩
      · cases fired

theorem Dict.inv_of_reachable (run : Reachable (dictStep g) dictAlloc d) :
    d.Inv ∧ 0 ≤ d.iterators := by
  apply run.invariant (I := fun d : Dict => d.Inv ∧ 0 ≤ d.iterators) ⟨dictAlloc_inv, le_refl 0⟩
  intro s e s' inv _ fired
  exact inv.1.step inv.2 fired

/-! ## The representation -/

/-- The representation of one table. -/
structure DictMap.Represented (m : DictMap) : Prop where
  size_pow : (m.size = 0 ∧ m.array = none) ∨
    (4 ≤ m.size ∧ (∃ k, m.size = 2 ^ k) ∧ m.sizemask = m.size - 1)
  buckets : (m.array.getD []).length = m.size
  home : ∀ i chain, m.bucket i = some chain → ∀ e ∈ chain,
    (dictHashKey e.key dictSeed).toNat &&& m.sizemask = i
  length_eq : m.length = m.entries.length

/-- The representation of a dictionary.  In particular `dict_rehash` always has
a result: its assertion holds and its scan stays in the array. -/
structure Dict.Represented (d : Dict) : Prop where
  primary : d.primary.Represented
  rehash : d.rehash.Represented
  distinct : (d.entries.map DictEntry.key).Nodup
  size_eq : dictGetSize d = (d.entries.map DictEntry.key).length
  idle : d.rehashing = false → d.rehash.size = 0 ∧ d.rehash.entries = []
  busy : d.rehashing = true → 0 ≤ d.rehashidx ∧ d.rehashidx ≤ d.primary.size ∧
    ∀ i : Nat, (i : Int) < d.rehashidx → d.primary.bucket i = some []
  in_array : ∀ num, ∃ r, dictRehash d num = some r

theorem dictReset_represented : dictReset.Represented where
  size_pow := Or.inl ⟨rfl, rfl⟩
  buckets := rfl
  home i chain here := by cases here
  length_eq := rfl

theorem DictMap.Table.bucket_eq {m : DictMap} {a : List (List DictEntry)} (t : m.Table a)
    (i : Nat) : m.bucket i = a[i]? := by
  rw [DictMap.bucket, t.array_eq, Option.bind_some]

theorem DictMap.Table.represented {m : DictMap} {a : List (List DictEntry)} (t : m.Table a) :
    m.Represented where
  size_pow := by
    obtain ⟨k, _, pow⟩ := t.size_pow
    exact Or.inr ⟨t.size_ge, ⟨k, pow⟩, t.mask_eq⟩
  buckets := by rw [t.array_eq, Option.getD_some, t.size_eq]
  home i chain here e member := t.home i chain (t.bucket_eq i ▸ here) e member
  length_eq := by rw [t.length_eq, t.entries_eq]

theorem Dict.Inv.primary_represented (inv : d.Inv) : d.primary.Represented := by
  rcases on : d.rehashing with - | -
  · rcases (inv.idle on).2 with reset | ⟨a, t⟩
    · rw [reset]
      exact dictReset_represented
    · exact t.represented
  · obtain ⟨a, b, run⟩ := inv.busy on
    exact run.primary.represented

theorem Dict.Inv.rehash_represented (inv : d.Inv) : d.rehash.Represented := by
  rcases on : d.rehashing with - | -
  · rw [(inv.idle on).1]
    exact dictReset_represented
  · obtain ⟨a, b, run⟩ := inv.busy on
    exact run.rehash.represented

theorem Dict.Inv.represented (inv : d.Inv) : d.Represented where
  primary := inv.primary_represented
  rehash := inv.rehash_represented
  distinct := inv.distinct
  size_eq := by
    have first := inv.primary_represented.length_eq
    have second := inv.rehash_represented.length_eq
    rw [dictGetSize, first, second, List.length_map, Dict.entries, List.length_append]
    push_cast
    rfl
  idle off := by
    rw [(inv.idle off).1]
    exact ⟨rfl, rfl⟩
  busy on := by
    obtain ⟨a, b, run⟩ := inv.busy on
    refine ⟨run.idx_nonneg, run.idx_le, ?_⟩
    intro i early
    rw [run.primary.bucket_eq]
    exact run.moved i early
  in_array num := by
    obtain ⟨d', r, ran, _⟩ := inv.dictRehash num
    exact ⟨_, ran⟩

theorem nulFree_letter (n : Nat) : (0 : UInt8) ∉ [97 + UInt8.ofNat (n % 26)] := by
  have letters : ∀ i < 26, (0 : UInt8) ∉ [97 + UInt8.ofNat i] := by decide
  exact letters (n % 26) (Nat.mod_lt n (by decide))

/-- The key with the letter of this number. -/
def letterKey (n : Nat) : CStr := ⟨[97 + UInt8.ofNat (n % 26)], nulFree_letter n⟩

def addLetter (n : Nat) : DictEvent := .call (.add (letterKey n) ⟨0, 0⟩ .ptr)

/-- The keys `a`, `b`, `c` and `e`, one in each of the four buckets, and `g`,
whose insertion starts a rehash. -/
def fillRun : List DictEvent := [addLetter 0, addLetter 1, addLetter 2, addLetter 4, addLetter 6]

/-! ## Finishing a rehash -/

theorem Dict.Ahead.trans {d₁ d₂ d₃ : Dict} (first : d₁.Ahead d₂) (second : d₂.Ahead d₃) :
    d₁.Ahead d₃ where
  inv := second.inv
  perm := second.perm.trans first.perm
  on := second.on
  left := second.left
  idx_lt := lt_trans first.idx_lt second.idx_lt
  size_eq := second.size_eq.trans first.size_eq
  iterators_eq := second.iterators_eq.trans first.iterators_eq

theorem Dict.Ahead.ended {d₁ d₂ d₃ : Dict} (first : d₁.Ahead d₂) (second : d₂.Ended d₃) :
    d₁.Ended d₃ where
  inv := second.inv
  perm := second.perm.trans first.perm
  off := second.off
  iterators_eq := second.iterators_eq.trans first.iterators_eq

/-- A loop with entries left goes ahead or ends the rehash. -/
theorem Dict.Inv.rehashLoop_ahead (inv : d.Inv) (on : d.rehashing = true)
    (pos : 0 < d.primary.length) (num : Nat) (visits : Int) :
    ∃ d', (XFireDB.rehashLoop (num + 1) visits d = some (d', 1) ∧ d.Ahead d') ∨
      (XFireDB.rehashLoop (num + 1) visits d = some (d', 0) ∧ d.Ended d') := by
  induction num generalizing d visits with
  | zero =>
      obtain ⟨d₁, ⟨loop, ahead⟩ | ⟨loop, ended⟩ | ⟨v, loop, ahead⟩⟩ :=
        inv.rehash_round on pos 0 visits
      · exact ⟨d₁, Or.inl ⟨loop, ahead⟩⟩
      · exact ⟨d₁, Or.inr ⟨loop, ended⟩⟩
      · exact ⟨d₁, Or.inl ⟨loop, ahead⟩⟩
  | succ num ih =>
      obtain ⟨d₁, ⟨loop, ahead⟩ | ⟨loop, ended⟩ | ⟨v, loop, ahead⟩⟩ :=
        inv.rehash_round on pos (num + 1) visits
      · exact ⟨d₁, Or.inl ⟨loop, ahead⟩⟩
      · exact ⟨d₁, Or.inr ⟨loop, ended⟩⟩
      · rw [loop]
        obtain ⟨d₂, ⟨rest, later⟩ | ⟨rest, later⟩⟩ := ih ahead.inv ahead.on ahead.left v
        · exact ⟨d₂, Or.inl ⟨rest, ahead.trans later⟩⟩
        · exact ⟨d₂, Or.inr ⟨rest, ahead.ended later⟩⟩

/-- So does `dict_rehash`. -/
theorem Dict.Inv.dictRehash_ahead (inv : d.Inv) (on : d.rehashing = true)
    (pos : 0 < d.primary.length) {num : Nat} (some_rounds : 0 < num) :
    ∃ d', (XFireDB.dictRehash d num = some (d', 1) ∧ d.Ahead d') ∨
      (XFireDB.dictRehash d num = some (d', 0) ∧ d.Ended d') := by
  obtain ⟨k, rfl⟩ : ∃ k, num = k + 1 := ⟨num - 1, by omega⟩
  rw [XFireDB.dictRehash, if_pos on]
  exact inv.rehashLoop_ahead on pos k _

/-- `n + 1` consecutive calls `dict_rehash(d, num)`, with the result of the
last. -/
def rehashCalls (num : Nat) : Nat → Dict → Option (Dict × Nat)
  | 0, d => dictRehash d num
  | n + 1, d => (dictRehash d num).bind fun r => rehashCalls num n r.1

/-- After finitely many calls `dict_rehash(d, num)` the last one returns 0, and
rehashing is off with the same keys and values. -/
def Dict.RehashFinishes (num : Nat) (d : Dict) : Prop :=
  ∃ n d', rehashCalls num n d = some (d', 0) ∧ d'.rehashing = false ∧ d'.toMap = d.toMap

/-- With an empty primary table every call changes nothing and asks for more. -/
theorem rehashCalls_of_empty {num : Nat} (on : d.rehashing = true) (empty : d.primary.length = 0)
    (some_rounds : 0 < num) (n : Nat) : rehashCalls num n d = some (d, 1) := by
  have idle : dictRehash d num = some (d, 1) := by
    obtain ⟨k, rfl⟩ : ∃ k, num = k + 1 := ⟨num - 1, by omega⟩
    rw [dictRehash, if_pos on, rehashLoop, if_neg (by omega)]
  induction n with
  | zero => exact idle
  | succ n ih => rw [rehashCalls, idle, Option.bind_some, ih]

/-- With entries left in the primary table, the distance of `rehashidx` to the
end of the table bounds the number of calls. -/
theorem Dict.Inv.rehash_finishes (inv : d.Inv) (on : d.rehashing = true)
    (pos : 0 < d.primary.length) {num : Nat} (some_rounds : 0 < num) : d.RehashFinishes num := by
  obtain ⟨left, distance⟩ : ∃ left : Nat, (d.primary.size : Int) - d.rehashidx ≤ left :=
    ⟨_, Int.self_le_toNat _⟩
  induction left generalizing d with
  | zero =>
      obtain ⟨a, b, run⟩ := inv.busy on
      have inside := (run.some_left pos).1
      omega
  | succ left ih =>
      obtain ⟨d₁, ⟨ran, ahead⟩ | ⟨ran, ended⟩⟩ := inv.dictRehash_ahead on pos some_rounds
      · have closer : (d₁.primary.size : Int) - d₁.rehashidx ≤ left := by
          have := ahead.idx_lt
          have := ahead.size_eq
          omega
        obtain ⟨n, d', calls, off, same⟩ := ih ahead.inv ahead.on ahead.left closer
        refine ⟨n + 1, d', ?_, off, same.trans (inv.toMap_of_perm ahead.perm)⟩
        rw [rehashCalls, ran, Option.bind_some, calls]
      · exact ⟨0, d₁, ran, ended.off, inv.toMap_of_perm ended.perm⟩

/-- From every reachable state with a rehash under way, calls of `dict_rehash`
finish it exactly if the primary table holds an entry.  This covers the
foreground steps (1) and the worker's batches (100). -/
theorem rehash_finishes_iff (run : Reachable (dictStep g) dictAlloc d) (on : d.rehashing = true)
    {num : Nat} (some_rounds : 0 < num) : d.RehashFinishes num ↔ d.primary.length ≠ 0 := by
  have inv := (Dict.inv_of_reachable run).1
  constructor
  · intro found empty
    obtain ⟨n, d', calls, _, _⟩ := found
    rw [rehashCalls_of_empty on empty some_rounds] at calls
    cases calls
  · intro entries
    obtain ⟨a, b, busy⟩ := inv.busy on
    have counter := busy.primary.length_eq
    exact inv.rehash_finishes on (by omega) some_rounds

theorem rehash_finishes_fillRun :
    ∃ d, runEvents (dictStep .initial) dictAlloc fillRun = some d ∧ d.rehashing = true ∧
      d.RehashFinishes 1 :=
  ⟨_, rfl, rfl, (rehash_finishes_iff (g := .initial) (Reachable.of_runEvents fillRun rfl) rfl
    (by decide)).mpr (by decide)⟩

/-- The deletions of `b` and `e` each move one bucket first, and the second
takes the last entry of the primary table. -/
def drainRun : List DictEvent :=
  fillRun ++ [.call (.delete (letterKey 1)), .call (.delete (letterKey 4))]

/-- The rehash of this dictionary never ends. -/
theorem drained_rehash_never_finishes :
    ∃ d, Reachable (dictStep .initial) dictAlloc d ∧ d.rehashing = true ∧
      ¬ d.RehashFinishes 1 := by
  refine ⟨_, Reachable.of_runEvents drainRun rfl, rfl, ?_⟩
  intro found
  obtain ⟨n, d', calls, _, _⟩ := found
  rw [rehashCalls_of_empty rfl rfl (by decide)] at calls
  cases calls

end XFireDB
