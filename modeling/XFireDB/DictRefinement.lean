import XFireDB.DictInsert

/-!
# The dictionary refines a finite map

`DictSpec` is what a dictionary is for: a map from keys to a value and its
size.  `Dict.Inv.call` relates each call to the map operation it implements,
and the last section composes calls over whole runs in which rehash batches and
safe iterators come and go.
-/

namespace XFireDB

open Lib

/-! ## The denoted map -/

/-- What a dictionary is for: each key has a value with its size, or nothing. -/
abbrev DictSpec : Type := CStr → Option (UInt64 × Nat)

/-- The map a dictionary state denotes. -/
def Dict.toMap (d : Dict) : DictSpec := fun k =>
  (lookupKey DictEntry.key d.entries k).map fun e => (e.value, e.length)

theorem Dict.Inv.toMap_of_perm {d d' : Dict} (inv : d.Inv) (perm : d'.entries.Perm d.entries) :
    d'.toMap = d.toMap := by
  funext k
  rw [Dict.toMap, Dict.toMap, lookupKey_perm perm (inv.of_perm perm) k]

theorem Dict.has_iff {d : Dict} {key : CStr} : d.Has key ↔ d.toMap key ≠ none := by
  rw [Dict.toMap, ne_eq, Option.map_eq_none_iff, lookupKey_eq_none, Dict.Has]
  push Not
  rfl

/-- A new entry binds its key. -/
theorem Dict.toMap_of_cons {d : Dict} {l : List DictEntry} {e : DictEntry}
    (distinct : ((e :: l).map DictEntry.key).Nodup) (perm : d.entries.Perm (e :: l)) :
    d.toMap = Function.update
      (fun k => (lookupKey DictEntry.key l k).map fun e => (e.value, e.length))
      e.key (some (e.value, e.length)) := by
  funext k
  have distinct' := (perm.map DictEntry.key).nodup_iff.mpr distinct
  rw [Dict.toMap, lookupKey_perm perm distinct' k, lookupKey_cons, Function.update_apply]
  by_cases same : e.key = k
  · rw [if_pos same, if_pos same.symm, Option.map_some]
  · rw [if_neg same, if_neg (Ne.symm same)]

/-- Replacing the payload of one entry rebinds its key. -/
theorem Dict.Inv.toMap_of_write {d d' : Dict} (inv : d.Inv) {old : DictEntry}
    (new : DictEntry) {rest : List DictEntry} (keyEq : old.key = new.key)
    (before : d.entries.Perm (old :: rest)) (after : d'.entries.Perm (new :: rest)) :
    d'.toMap = Function.update d.toMap new.key (some (new.value, new.length)) := by
  have distinct := (before.map DictEntry.key).nodup_iff.mp inv.distinct
  have distinct' : ((new :: rest).map DictEntry.key).Nodup := by
    simpa [keyEq] using distinct
  rw [Dict.toMap_of_cons distinct' after, Dict.toMap_of_cons distinct before, keyEq,
    Function.update_idem]

/-- Removing an entry unbinds its key. -/
theorem Dict.Inv.toMap_of_unlink {d d' : Dict} (inv : d.Inv) {e : DictEntry}
    (perm : d.entries.Perm (e :: d'.entries)) :
    d'.toMap = Function.update d.toMap e.key none := by
  have distinct := (perm.map DictEntry.key).nodup_iff.mp inv.distinct
  rw [Dict.toMap_of_cons distinct perm, Function.update_idem]
  have gone : d'.toMap e.key = none := by
    rw [Dict.toMap, lookupKey_of_cons_nodup distinct, Option.map_none]
  rw [← gone]
  exact (Function.update_eq_self _ _).symm

/-! ## One call, one map operation -/

/-- The calls of the dictionary interface that clients see. -/
inductive DictCall
  | add (key : CStr) (data : DictArg) (t : DictType)
  | delete (key : CStr)
  | lookup (key : CStr)
  | update (key : CStr) (data : DictArg) (t : DictType)
  | clear

/-- Their replies: a return code, the value a deletion handed back, or the
value and size a lookup found. -/
inductive DictReply
  | rc (rc : Rc)
  | deleted (value : Option UInt64)
  | found (value : Option (UInt64 × Nat))
deriving DecidableEq

/-- A call on the map. -/
def DictSpec.call (m : DictSpec) : DictCall → DictSpec × DictReply
  | .add key data t =>
      match m key with
      | none => (Function.update m key (some (dictVal data t, dictGetEntryLength t)), .rc .ok)
      | some _ => (m, .rc .err)
  | .delete key => (Function.update m key none, .deleted ((m key).map Prod.fst))
  | .lookup key => (m, .found (m key))
  | .update key data t =>
      (Function.update m key (some (dictVal data t, dictGetEntryLength t)), .rc .ok)
  | .clear => (fun _ => none, .rc .ok)

/-- A call on the dictionary. -/
def Dict.call (g : DictGlobals) (d : Dict) : DictCall → Option (Dict × DictReply)
  | .add key data t => (dictAdd g d key data t).map fun (d, rc) => (d, .rc rc)
  | .delete key => (dictDelete d key).map fun (d, v) => (d, .deleted v)
  | .lookup key => (dictLookup d key).map fun (d, v) => (d, .found v)
  | .update key data t => (dictUpdate g d key data t).map fun (d, rc) => (d, .rc rc)
  | .clear => some (dictClear d, .rc .ok)

/-- A call on the dictionary, for keys of any length. -/
def Dict.callKey (g : DictGlobals) (d : Dict) : DictCall → Option (Dict × DictReply)
  | .add key data t => (dictAddKey g d key data t).map fun (d, rc) => (d, .rc rc)
  | .update key data t => (dictUpdateKey g d key data t).map fun (d, rc) => (d, .rc rc)
  | c => d.call g c

/-- A key that is to be stored is copied whole. -/
def DictCall.Short : DictCall → Prop
  | .add key _ _ => key.Short
  | .update key _ _ => key.Short
  | _ => True

instance (c : DictCall) : Decidable c.Short :=
  match c with
  | .add key _ _ => inferInstanceAs (Decidable key.Short)
  | .update key _ _ => inferInstanceAs (Decidable key.Short)
  | .delete _ => inferInstanceAs (Decidable True)
  | .lookup _ => inferInstanceAs (Decidable True)
  | .clear => inferInstanceAs (Decidable True)

theorem Dict.callKey_of_short (g : DictGlobals) (d : Dict) {c : DictCall} (short : c.Short) :
    d.callKey g c = d.call g c := by
  cases c with
  | add key data t =>
      simp only [callKey, call, dictAddKey, dictAdd, rawDictAddKey_of_short g d short]
  | update key data t =>
      simp only [callKey, call, dictUpdateKey, dictUpdate, rawDictUpdateKey_of_short g d short]
  | delete key => rfl
  | lookup key => rfl
  | clear => rfl

/-- The tables a call inserts into have at most `2^31` buckets. -/
def Dict.callFits (g : DictGlobals) (d : Dict) : DictCall → Bool
  | .add _ _ _ => d.tablesFit g
  | .update key _ _ => (dictFind d key).all fun (d', e) => e.isSome || d'.tablesFit g
  | _ => true

theorem Dict.Inv.dictAdd {g : DictGlobals} {d : Dict} (inv : d.Inv) (key : CStr) (data : DictArg)
    (t : DictType) (fits : d.tablesFit g = true) :
    ∃ d' rc, dictAdd g d key data t = some (d', rc) ∧ d'.Inv ∧
      (d'.toMap, DictReply.rc rc) = DictSpec.call d.toMap (.add key data t) := by
  rw [XFireDB.dictAdd, rawDictAdd, rawDictAddBy, DictSpec.call]
  rcases inv.dictLink key fits with
    ⟨present, d₁, link, inv₁, perm⟩ | ⟨absent, d₁, r, link, inv₁, keyEq, perm, busy, member⟩
  · obtain ⟨v, bound⟩ := Option.ne_none_iff_exists'.mp (Dict.has_iff.mp present)
    refine ⟨d₁, .err, by simp [link], inv₁, ?_⟩
    rw [bound, inv.toMap_of_perm perm]
  · have unbound : d.toMap key = none := by
      by_contra bound
      exact absent (Dict.has_iff.mpr bound)
    obtain ⟨d', old, rest, written, inv', oldKey, before, after⟩ :=
      inv₁.write (dictVal data t) (dictGetEntryLength t) busy member keyEq.symm
    refine ⟨d', .ok, by simp [link, written], inv', ?_⟩
    have distinct := (perm.map DictEntry.key).nodup_iff.mp inv₁.distinct
    rw [unbound, inv₁.toMap_of_write ⟨r.key, _, _⟩ oldKey before after,
      Dict.toMap_of_cons distinct perm, keyEq, Function.update_idem]
    rfl

theorem Dict.Inv.dictFindLocked {d : Dict} (inv : d.Inv) (key : CStr) :
    (d.toMap key = none ∧ dictFindLocked d key = some (d, none)) ∨
      ∃ r e, dictFindLocked d key = some (d, some (r, e)) ∧ r.key = key ∧ e.key = key ∧
        d.toMap key = some (e.value, e.length) ∧
        (r.inRehash = true → d.rehashing = true) ∧ e ∈ (d.tableOf r).entries := by
  have bound : ∀ {e}, e ∈ d.entries → e.key = key → d.toMap key = some (e.value, e.length) := by
    intro e member keyEq
    rw [Dict.toMap, (lookupKey_eq_some inv.distinct).mpr ⟨member, keyEq⟩, Option.map_some]
  have unbound : (∀ e ∈ d.entries, e.key ≠ key) → d.toMap key = none := by
    intro absent
    rw [Dict.toMap, lookupKey_eq_none.mpr absent, Option.map_none]
  rw [XFireDB.dictFindLocked]
  rcases on : d.rehashing with - | -
  · -- one table, possibly the reset one
    have entriesEq := inv.entries_of_idle on
    rcases (inv.idle on).2 with reset | ⟨a, t⟩
    · left
      refine ⟨unbound (by simp [entriesEq, reset]), ?_⟩
      rw [if_pos (by rw [reset]; rfl)]
    · have four := t.size_ge
      obtain ⟨chain, here, read⟩ := t.chain_eq key
      rw [if_neg (by omega), read]
      simp only [Option.bind_eq_bind, Option.bind_some]
      rcases t.find_chain here with ⟨e, found, member, keyEq⟩ | ⟨missing, absent⟩
      · right
        refine ⟨⟨false, key⟩, e, by rw [found], rfl, keyEq, ?_, fun h => (by cases h), member⟩
        exact bound (by rwa [entriesEq]) keyEq
      · left
        exact ⟨unbound (by rwa [entriesEq]), by simp [missing]⟩
  · obtain ⟨a, b, run⟩ := inv.busy on
    have four := run.primary.size_ge
    obtain ⟨chain, here, read⟩ := run.primary.chain_eq key
    obtain ⟨chain₂, here₂, read₂⟩ := run.rehash.chain_eq key
    rw [if_neg (by omega), read]
    simp only [Option.bind_eq_bind, Option.bind_some]
    rcases run.primary.find_chain here with ⟨e, found, member, keyEq⟩ | ⟨missing, absent⟩
    · right
      refine ⟨⟨false, key⟩, e, by rw [found], rfl, keyEq, ?_, fun h => (by cases h), member⟩
      exact bound (List.mem_append_left _ member) keyEq
    · rcases run.rehash.find_chain here₂ with ⟨e, found, member, keyEq⟩ | ⟨missing₂, absent₂⟩
      · right
        refine ⟨⟨true, key⟩, e, by simp [missing, read₂, found], rfl, keyEq, ?_, fun _ => trivial,
          member⟩
        exact bound (List.mem_append_right _ member) keyEq
      · left
        refine ⟨unbound fun e member => ?_, by simp [missing, read₂, missing₂]⟩
        rcases List.mem_append.mp member with first | second
        · exact absent e first
        · exact absent₂ e second

theorem Dict.Inv.dictFind {d : Dict} (inv : d.Inv) (key : CStr) :
    ∃ d', d'.Inv ∧ d'.entries.Perm d.entries ∧
      ((d.toMap key = none ∧ dictFind d key = some (d', none)) ∨
        ∃ r e, dictFind d key = some (d', some (r, e)) ∧ r.key = key ∧ e.key = key ∧
          d.toMap key = some (e.value, e.length) ∧
          (r.inRehash = true → d'.rehashing = true) ∧ e ∈ (d'.tableOf r).entries) := by
  obtain ⟨d', fore, inv', perm⟩ := inv.dictForeground
  refine ⟨d', inv', perm, ?_⟩
  rw [dictFind_eq, fore, Option.bind_some, ← inv.toMap_of_perm perm]
  exact inv'.dictFindLocked key

theorem Dict.Inv.dictUpdate {g : DictGlobals} {d : Dict} (inv : d.Inv) (key : CStr)
    (data : DictArg) (t : DictType) (fits : d.callFits g (.update key data t) = true) :
    ∃ d', dictUpdate g d key data t = some (d', .ok) ∧ d'.Inv ∧
      d'.toMap = Function.update d.toMap key (some (dictVal data t, dictGetEntryLength t)) := by
  obtain ⟨d₁, inv₁, perm, cases_⟩ := inv.dictFind key
  have mapEq := inv.toMap_of_perm perm
  rw [XFireDB.dictUpdate, rawDictUpdate, rawDictUpdateBy]
  rcases cases_ with ⟨unbound, find⟩ | ⟨r, e, find, refKey, keyEq, bound, busy, member⟩
  · have fits₁ : d₁.tablesFit g = true := by simpa [Dict.callFits, find] using fits
    obtain ⟨d', rc, add, inv', spec⟩ := inv₁.dictAdd key data t fits₁
    rw [DictSpec.call, mapEq, unbound] at spec
    simp only [Prod.mk.injEq, DictReply.rc.injEq] at spec
    obtain ⟨mapEq', rfl⟩ := spec
    rw [XFireDB.dictAdd, rawDictAdd] at add
    exact ⟨d', by simp [find, add], inv', mapEq'⟩
  · obtain ⟨d', old, rest, written, inv', oldKey, before, after⟩ :=
      inv₁.write (dictVal data t) (dictGetEntryLength t) busy member (keyEq.trans refKey.symm)
    refine ⟨d', by simp [find, written], inv', ?_⟩
    rw [inv₁.toMap_of_write ⟨r.key, _, _⟩ oldKey before after, mapEq, refKey]

theorem Dict.Inv.dictDelete {d : Dict} (inv : d.Inv) (key : CStr) :
    ∃ d', dictDelete d key = some (d', (d.toMap key).map Prod.fst) ∧ d'.Inv ∧
      d'.toMap = Function.update d.toMap key none := by
  obtain ⟨d₁, fore, inv₁, perm⟩ := inv.dictForeground
  rw [← inv.toMap_of_perm perm]
  have removed : ∀ {d' : Dict} {e : DictEntry}, e.key = key → d₁.entries.Perm (e :: d'.entries) →
      (d'.entries.map DictEntry.key).Nodup ∧ d₁.toMap key = some (e.value, e.length) ∧
        d'.toMap = Function.update d₁.toMap key none := by
    intro d' e keyEq split
    have distinct := (split.map DictEntry.key).nodup_iff.mp inv₁.distinct
    refine ⟨(List.nodup_cons.mp distinct).2, ?_, keyEq ▸ inv₁.toMap_of_unlink split⟩
    have member : e ∈ d₁.entries := split.mem_iff.mpr List.mem_cons_self
    rw [Dict.toMap, (lookupKey_eq_some inv₁.distinct).mpr ⟨member, keyEq⟩, Option.map_some]
  have kept : (∀ e ∈ d₁.entries, e.key ≠ key) → d₁.toMap key = none := by
    intro absent
    rw [Dict.toMap, lookupKey_eq_none.mpr absent, Option.map_none]
  have same : d₁.toMap key = none → d₁.toMap = Function.update d₁.toMap key none := by
    intro unbound
    rw [← unbound, Function.update_eq_self]
  rw [XFireDB.dictDelete, dictUnlink, fore]
  simp only [Option.bind_eq_bind, Option.bind_some]
  rcases on : d₁.rehashing with - | -
  · have entriesEq := inv₁.entries_of_idle on
    rcases (inv₁.idle on).2 with reset | ⟨a, t⟩
    · have unbound := kept (by simp [entriesEq, reset])
      refine ⟨d₁, ?_, inv₁, same unbound⟩
      simp [reset, dictReset, unbound]
    · have four := t.size_ge
      rw [if_neg (by omega)]
      rcases t.unlink key with ⟨m, a', e, unlinked, table, _, keyEq, split, _⟩ | ⟨missing, absent⟩
      · have total : d₁.entries.Perm (e :: Dict.entries { d₁ with primary := m }) := by
          simp only [Dict.entries]
          exact split.append_right _
        obtain ⟨distinct, bound, mapEq⟩ := removed keyEq total
        refine ⟨{ d₁ with primary := m }, by simp [unlinked, bound, on], ?_, mapEq⟩
        exact ⟨distinct, fun h => absurd (on.symm.trans h) (by decide),
          fun _ => ⟨(inv₁.idle on).1, Or.inr ⟨a', table⟩⟩⟩
      · have unbound := kept (by rwa [entriesEq])
        exact ⟨d₁, by simp [missing, unbound], inv₁, same unbound⟩
  · obtain ⟨a, b, run⟩ := inv₁.busy on
    have four := run.primary.size_ge
    rw [if_neg (by omega)]
    rcases run.primary.unlink key with
      ⟨m, a', e, unlinked, table, sizeEq, keyEq, split, cleared⟩ | ⟨missing, absent⟩
    · have total : d₁.entries.Perm (e :: Dict.entries { d₁ with primary := m }) := by
        simp only [Dict.entries]
        exact split.append_right _
      obtain ⟨distinct, bound, mapEq⟩ := removed keyEq total
      refine ⟨{ d₁ with primary := m }, by simp [unlinked, bound, on], ?_, mapEq⟩
      refine ⟨distinct, fun _ => ⟨a', b, table, run.rehash, run.idx_nonneg, ?_, ?_⟩,
        fun h => absurd (on.symm.trans h) (by decide)⟩
      · simp only [sizeEq]
        exact run.idx_le
      · exact fun i early => cleared i (run.moved i early)
    · rcases run.rehash.unlink key with
        ⟨m, b', e, unlinked, table, _, keyEq, split, _⟩ | ⟨missing₂, absent₂⟩
      · have total : d₁.entries.Perm (e :: Dict.entries { d₁ with rehash := m }) := by
          simp only [Dict.entries]
          exact (split.append_left _).trans List.perm_middle
        obtain ⟨distinct, bound, mapEq⟩ := removed keyEq total
        refine ⟨{ d₁ with rehash := m }, by simp [missing, on, unlinked, bound], ?_, mapEq⟩
        exact ⟨distinct, fun _ => ⟨a, b', run.primary, table, run.idx_nonneg, run.idx_le,
          run.moved⟩, fun h => absurd (on.symm.trans h) (by decide)⟩
      · have unbound := kept fun e member => by
          rcases List.mem_append.mp member with first | second
          · exact absent e first
          · exact absent₂ e second
        exact ⟨d₁, by simp [missing, missing₂, unbound, ← on], inv₁, same unbound⟩

theorem Dict.Inv.dictClear {d : Dict} :
    (dictClear d).Inv ∧ (dictClear d).toMap = fun _ => none := by
  have empty : (XFireDB.dictClear d).entries = [] := rfl
  refine ⟨⟨by simp [empty], fun h => (by cases h), fun _ => ⟨rfl, Or.inl rfl⟩⟩, ?_⟩
  funext k
  rw [Dict.toMap, empty]
  rfl

/-- Every call has a result, keeps the invariant, and does to the denoted map
what the call says. -/
theorem Dict.Inv.call {g : DictGlobals} {d : Dict} (inv : d.Inv) (c : DictCall)
    (fits : d.callFits g c = true) :
    ∃ d' r, d.call g c = some (d', r) ∧ d'.Inv ∧ (d'.toMap, r) = DictSpec.call d.toMap c := by
  cases c with
  | add key data t =>
      obtain ⟨d', rc, eq, inv', spec⟩ := inv.dictAdd key data t fits
      exact ⟨d', .rc rc, by rw [Dict.call, eq, Option.map_some], inv', spec⟩
  | delete key =>
      obtain ⟨d', eq, inv', mapEq⟩ := inv.dictDelete key
      exact ⟨d', _, by rw [Dict.call, eq, Option.map_some], inv', by rw [mapEq, DictSpec.call]⟩
  | lookup key =>
      obtain ⟨d', inv', perm, cases_⟩ := inv.dictFind key
      have mapEq := inv.toMap_of_perm perm
      rcases cases_ with ⟨unbound, find⟩ | ⟨r, e, find, _, _, bound, _, _⟩
      · refine ⟨d', .found none, by simp [Dict.call, dictLookup, find], inv', ?_⟩
        rw [DictSpec.call, mapEq, unbound]
      · refine ⟨d', .found (some (e.value, e.length)), by simp [Dict.call, dictLookup, find],
          inv', ?_⟩
        rw [DictSpec.call, mapEq, bound]
  | update key data t =>
      obtain ⟨d', eq, inv', mapEq⟩ := inv.dictUpdate key data t fits
      exact
        ⟨d', .rc .ok, by rw [Dict.call, eq, Option.map_some], inv', by rw [mapEq, DictSpec.call]⟩
  | clear =>
      obtain ⟨inv', mapEq⟩ := Dict.Inv.dictClear (d := d)
      exact ⟨_, _, rfl, inv', by rw [mapEq, DictSpec.call]⟩

/-! ## Runs -/

/-- What can happen to a dictionary: a client call, a rehash batch (foreground
or worker), or a safe iterator that is created or freed. -/
inductive DictEvent
  | call (c : DictCall)
  | rehash (num : Nat)
  | getSafeIterator
  | iteratorFree

/-- Run a list of events, collecting the replies of the calls. -/
def Dict.run (g : DictGlobals) : Dict → List DictEvent → Option (Dict × List DictReply)
  | d, [] => some (d, [])
  | d, .call c :: rest => do
      let (d, r) ← d.callKey g c
      let (d, rs) ← Dict.run g d rest
      some (d, r :: rs)
  | d, .rehash num :: rest => do
      let (d, _) ← dictRehash d num
      Dict.run g d rest
  | d, .getSafeIterator :: rest => Dict.run g (dictGetSafeIterator d) rest
  | d, .iteratorFree :: rest => Dict.run g (dictIteratorFree d) rest

/-- Every insertion of the run works on tables of at most `2^31` buckets. -/
def Dict.runFits (g : DictGlobals) : Dict → List DictEvent → Bool
  | _, [] => true
  | d, .call c :: rest => d.callFits g c && (d.callKey g c).all fun (d, _) => Dict.runFits g d rest
  | d, .rehash num :: rest => (dictRehash d num).all fun (d, _) => Dict.runFits g d rest
  | d, .getSafeIterator :: rest => Dict.runFits g (dictGetSafeIterator d) rest
  | d, .iteratorFree :: rest => Dict.runFits g (dictIteratorFree d) rest

/-- The client calls of a run, in order. -/
def DictEvent.calls : List DictEvent → List DictCall
  | [] => []
  | .call c :: rest => c :: DictEvent.calls rest
  | _ :: rest => DictEvent.calls rest

/-- Run a list of calls on the map. -/
def DictSpec.run : DictSpec → List DictCall → DictSpec × List DictReply
  | m, [] => (m, [])
  | m, c :: rest => ((DictSpec.run (m.call c).1 rest).1,
      (m.call c).2 :: (DictSpec.run (m.call c).1 rest).2)

/-- From any state that satisfies the invariant, a run over keys that are copied
whole does to the denoted map what its client calls do, and nothing else. -/
theorem Dict.Inv.run {g : DictGlobals} {d : Dict} (inv : d.Inv) (events : List DictEvent)
    (short : ∀ c ∈ DictEvent.calls events, c.Short) (fits : d.runFits g events = true) :
    ∃ d', d.run g events = some (d', (DictSpec.run d.toMap (DictEvent.calls events)).2) ∧ d'.Inv ∧
      d'.toMap = (DictSpec.run d.toMap (DictEvent.calls events)).1 := by
  induction events generalizing d with
  | nil => exact ⟨d, rfl, inv, rfl⟩
  | cons ev rest ih =>
      cases ev with
      | call c =>
          rw [Dict.runFits, Bool.and_eq_true] at fits
          obtain ⟨d₁, r, eq, inv₁, spec⟩ := inv.call c fits.1
          rw [← Dict.callKey_of_short g d (short c List.mem_cons_self)] at eq
          have fits₁ : d₁.runFits g rest = true := by simpa [eq] using fits.2
          obtain ⟨d', run, inv', mapEq⟩ :=
            ih inv₁ (fun c later => short c (List.mem_cons_of_mem _ later)) fits₁
          have mapEq₁ : d₁.toMap = (DictSpec.call d.toMap c).1 := congrArg Prod.fst spec
          have replyEq : r = (DictSpec.call d.toMap c).2 := congrArg Prod.snd spec
          rw [mapEq₁] at run mapEq
          refine ⟨d', ?_, inv', mapEq⟩
          rw [Dict.run, eq]
          simp only [Option.bind_eq_bind, Option.bind_some, run, replyEq]
          rfl
      | rehash num =>
          obtain ⟨d₁, r, eq, inv₁, perm, _⟩ := inv.dictRehash num
          have fits₁ : d₁.runFits g rest = true := by simpa [Dict.runFits, eq] using fits
          obtain ⟨d', run, inv', mapEq⟩ := ih inv₁ short fits₁
          rw [inv.toMap_of_perm perm] at run mapEq
          refine ⟨d', ?_, inv', mapEq⟩
          rw [Dict.run, eq]
          simp only [Option.bind_eq_bind, Option.bind_some, run]
          rfl
      | getSafeIterator =>
          have inv₁ : (dictGetSafeIterator d).Inv :=
            ⟨inv.distinct, fun on => by
              obtain ⟨a, b, run⟩ := inv.busy on
              exact ⟨a, b, run.primary, run.rehash, run.idx_nonneg, run.idx_le, run.moved⟩,
              inv.idle⟩
          exact ih inv₁ short fits
      | iteratorFree =>
          have inv₁ : (dictIteratorFree d).Inv :=
            ⟨inv.distinct, fun on => by
              obtain ⟨a, b, run⟩ := inv.busy on
              exact ⟨a, b, run.primary, run.rehash, run.idx_nonneg, run.idx_le, run.moved⟩,
              inv.idle⟩
          exact ih inv₁ short fits

theorem dictAlloc_toMap : dictAlloc.toMap = fun _ => none := by
  funext k
  simp [Dict.toMap, dictAlloc, Dict.entries, lookupKey]

end XFireDB
