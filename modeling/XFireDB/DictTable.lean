import XFireDB.Dict
import XFireDB.Lib.Bits
import XFireDB.Lib.Keyed

/-!
# One table of the dictionary

`DictMap.Table m a` is the representation invariant of an allocated table with
bucket array `a`.  Each table operation gets one lemma saying that it succeeds,
keeps the invariant, and what it does to the entries of the table as a whole.
-/

namespace XFireDB

open Lib

/-- The entries of a table, bucket by bucket. -/
def DictMap.entries (m : DictMap) : List DictEntry := (m.array.getD []).flatten

@[simp] theorem dictReset_entries : dictReset.entries = [] := rfl

/-- An allocated table: a power of two of buckets, every entry in the bucket of
its hash, and an exact length counter. -/
structure DictMap.Table (m : DictMap) (a : List (List DictEntry)) : Prop where
  array_eq : m.array = some a
  size_eq : a.length = m.size
  size_pow : ∃ k, 2 ≤ k ∧ m.size = 2 ^ k
  mask_eq : m.sizemask = m.size - 1
  home : ∀ i chain, a[i]? = some chain → ∀ e ∈ chain, m.index e.key = i
  length_eq : m.length = (a.flatten.length : Int)

theorem DictMap.Table.entries_eq {m : DictMap} {a : List (List DictEntry)} (t : m.Table a) :
    m.entries = a.flatten := by
  rw [DictMap.entries, t.array_eq, Option.getD_some]

theorem DictMap.Table.size_ge {m : DictMap} {a : List (List DictEntry)} (t : m.Table a) :
    4 ≤ m.size := by
  obtain ⟨k, two, pow⟩ := t.size_pow
  rw [pow]
  exact Nat.pow_le_pow_right (n := 2) (i := 2) (by decide) two

/-- Masking the hash is reducing it modulo the table size. -/
theorem DictMap.Table.index_eq_mod {m : DictMap} {a : List (List DictEntry)} (t : m.Table a)
    (key : CStr) : m.index key = (dictHashKey key dictSeed).toNat % m.size := by
  obtain ⟨k, _, pow⟩ := t.size_pow
  rw [DictMap.index, t.mask_eq, pow, Nat.and_two_pow_sub_one_eq_mod]

theorem DictMap.Table.index_lt {m : DictMap} {a : List (List DictEntry)} (t : m.Table a)
    (key : CStr) : m.index key < a.length := by
  rw [t.size_eq, t.index_eq_mod]
  exact Nat.mod_lt _ (lt_of_lt_of_le (by decide) t.size_ge)

/-- The chain a key belongs to is always readable. -/
theorem DictMap.Table.chain_eq {m : DictMap} {a : List (List DictEntry)} (t : m.Table a)
    (key : CStr) : ∃ chain, a[m.index key]? = some chain ∧ m.chain key = some chain := by
  refine ⟨a.get ⟨m.index key, t.index_lt key⟩, by simp [t.index_lt key], ?_⟩
  rw [DictMap.chain, DictMap.bucket, t.array_eq]
  simp [t.index_lt key]

/-- An entry of the table is in the chain of its key. -/
theorem DictMap.Table.mem_chain {m : DictMap} {a : List (List DictEntry)} (t : m.Table a)
    {key : CStr} {chain : List DictEntry} (here : a[m.index key]? = some chain)
    {e : DictEntry} (keyEq : e.key = key) : e ∈ m.entries ↔ e ∈ chain := by
  rw [t.entries_eq, List.mem_flatten]
  constructor
  · intro found
    obtain ⟨c, member, inside⟩ := found
    obtain ⟨i, bound, at_⟩ := List.mem_iff_getElem.mp member
    have there : a[i]? = some c := by simp [bound, at_]
    have same := t.home i c there e inside
    rw [keyEq] at same
    rw [same] at here
    rw [here] at there
    rwa [Option.some.inj there]
  · intro inside
    exact ⟨chain, List.mem_of_getElem? here, inside⟩

/-! ## Replacing one chain -/

/-- Replacing a chain by entries of the same bucket, with the counter adjusted,
keeps the invariant. -/
theorem DictMap.Table.set_chain {m : DictMap} {a : List (List DictEntry)} (t : m.Table a)
    {i : Nat} {chain : List DictEntry} (chain' : List DictEntry) (here : a[i]? = some chain)
    (home : ∀ e ∈ chain', m.index e.key = i) :
    DictMap.Table
      { m.setBucket i chain' with length := m.length - chain.length + chain'.length }
      (a.set i chain') := by
  have sameIndex : ∀ key, DictMap.index
      { m.setBucket i chain' with length := m.length - chain.length + chain'.length } key =
        m.index key := fun _ => rfl
  refine ⟨?_, ?_, t.size_pow, t.mask_eq, ?_, ?_⟩
  · simp [DictMap.setBucket, t.array_eq]
  · simpa [DictMap.setBucket] using t.size_eq
  · intro j c there e inside
    rw [sameIndex]
    by_cases same : j = i
    · subst same
      have bound : j < a.length := (List.getElem?_eq_some_iff.mp here).1
      have isNew : c = chain' := by simpa [bound] using there.symm
      exact home e (isNew ▸ inside)
    · have old : a[j]? = some c := by
        rwa [List.getElem?_set_ne (Ne.symm same)] at there
      exact t.home j c old e inside
  · have before := (flatten_perm_set_nil here).length_eq
    have after := (flatten_set_perm chain' here).length_eq
    have counter := t.length_eq
    simp only [List.length_append] at before after
    simp only
    omega

/-- `entries` after replacing a chain, up to order. -/
theorem DictMap.Table.entries_set_chain {m : DictMap} {a : List (List DictEntry)} (t : m.Table a)
    {i : Nat} {chain : List DictEntry} (chain' : List DictEntry) (here : a[i]? = some chain)
    (n : Int) :
    ∃ rest, m.entries.Perm (chain ++ rest) ∧
      (DictMap.entries { m.setBucket i chain' with length := n }).Perm (chain' ++ rest) := by
  refine ⟨(a.set i []).flatten, ?_, ?_⟩
  · rw [t.entries_eq]
    exact flatten_perm_set_nil here
  · simp only [DictMap.entries, DictMap.setBucket, t.array_eq, Option.map_some, Option.getD_some]
    exact flatten_set_perm chain' here

/-! ## The table operations -/

/-- Pushing an entry on the chain of its own key. -/
theorem DictMap.Table.push {m : DictMap} {a : List (List DictEntry)} (t : m.Table a)
    (e : DictEntry) :
    ∃ m' a', m.push (m.index e.key) e = some m' ∧ m'.Table a' ∧
      m'.size = m.size ∧ m'.sizemask = m.sizemask ∧ m'.length = m.length + 1 ∧
      m'.entries.Perm (e :: m.entries) := by
  obtain ⟨chain, here, read⟩ := t.chain_eq e.key
  have home : ∀ x ∈ e :: chain, m.index x.key = m.index e.key := by
    intro x member
    rcases List.mem_cons.mp member with rfl | old
    · rfl
    · exact t.home _ _ here x old
  have table := t.set_chain _ here home
  have counter : m.length - (chain.length : Int) + ((e :: chain).length : Int) = m.length + 1 := by
    simp only [List.length_cons]
    omega
  rw [counter] at table
  obtain ⟨rest, before, after⟩ := t.entries_set_chain (e :: chain) here (m.length + 1)
  refine ⟨{ m.setBucket (m.index e.key) (e :: chain) with length := m.length + 1 }, _, ?_, table,
    rfl, rfl, rfl, ?_⟩
  · rw [DictMap.chain] at read
    simp [DictMap.push, read]
  · exact after.trans (before.symm.cons e)

/-- `chainUnlink` removes the first entry with the key. -/
theorem chainUnlink_some {key : CStr} {chain rest : List DictEntry} {e : DictEntry}
    (h : chainUnlink key chain = some (e, rest)) : e.key = key ∧ chain.Perm (e :: rest) := by
  induction chain generalizing rest with
  | nil => cases h
  | cons x chain ih =>
      rw [chainUnlink] at h
      split at h
      · rename_i same
        cases h
        exact ⟨same, .refl _⟩
      · rcases hr : chainUnlink key chain with - | ⟨y, ys⟩
        · rw [hr] at h
          cases h
        · rw [hr] at h
          simp only [Option.map_some, Option.some.injEq, Prod.mk.injEq] at h
          obtain ⟨rfl, rfl⟩ := h
          obtain ⟨keyEq, perm⟩ := ih hr
          exact ⟨keyEq, (perm.cons x).trans (.swap _ _ _)⟩

theorem chainUnlink_none {key : CStr} {chain : List DictEntry}
    (h : chainUnlink key chain = none) : ∀ e ∈ chain, e.key ≠ key := by
  induction chain with
  | nil => simp
  | cons x chain ih =>
      rw [chainUnlink] at h
      split at h
      · cases h
      · rename_i different
        rw [Option.map_eq_none_iff] at h
        intro e member
        rcases List.mem_cons.mp member with rfl | later
        · exact different
        · exact ih h e later

/-- Unlinking a key: either an entry with that key leaves the table, or the
table holds no such entry and is unchanged. -/
theorem DictMap.Table.unlink {m : DictMap} {a : List (List DictEntry)} (t : m.Table a)
    (key : CStr) :
    (∃ m' a' e, m.unlink key = some (m', some e) ∧ m'.Table a' ∧ m'.size = m.size ∧
      e.key = key ∧ m.entries.Perm (e :: m'.entries) ∧
      ∀ i : Nat, a[i]? = some [] → a'[i]? = some []) ∨
    (m.unlink key = some (m, none) ∧ ∀ e ∈ m.entries, e.key ≠ key) := by
  obtain ⟨chain, here, read⟩ := t.chain_eq key
  rcases split : chainUnlink key chain with - | ⟨e, rest⟩
  · right
    constructor
    · simp [DictMap.unlink, read, split]
    · intro e member keyEq
      exact chainUnlink_none split e ((t.mem_chain here keyEq).mp member) keyEq
  · left
    obtain ⟨keyEq, perm⟩ := chainUnlink_some split
    have home : ∀ x ∈ rest, m.index x.key = m.index key := by
      intro x member
      exact t.home _ _ here x (perm.mem_iff.mpr (List.mem_cons_of_mem _ member))
    have table := t.set_chain _ here home
    have counter : m.length - (chain.length : Int) + (rest.length : Int) = m.length - 1 := by
      have := perm.length_eq
      simp only [List.length_cons] at this
      omega
    rw [counter] at table
    obtain ⟨others, before, after⟩ := t.entries_set_chain rest here (m.length - 1)
    refine ⟨_, _, e, ?_, table, rfl, keyEq, ?_, ?_⟩
    · simp [DictMap.unlink, read, split]
    · refine before.trans ((perm.append_right others).trans ?_)
      exact (after.symm).cons e
    · intro i empty
      by_cases same : i = m.index key
      · subst same
        rw [here] at empty
        obtain rfl := Option.some.inj empty
        simp at perm
      · rwa [List.getElem?_set_ne (Ne.symm same)]

/-- `chainSet` overwrites the payload of the first entry with the key. -/
theorem chainSet_perm {key : CStr} (value : UInt64) (length : Nat) {chain : List DictEntry}
    {e : DictEntry} (found : chain.find? (fun e => e.key = key) = some e) :
    ∃ rest, chain.Perm (e :: rest) ∧
      (chainSet key value length chain).Perm (⟨key, value, length⟩ :: rest) := by
  induction chain with
  | nil => cases found
  | cons x chain ih =>
      rw [chainSet]
      by_cases same : x.key = key
      · rw [List.find?_cons_of_pos (by simpa using same)] at found
        obtain rfl := Option.some.inj found
        rw [if_pos same, same]
        exact ⟨chain, .refl _, .refl _⟩
      · rw [List.find?_cons_of_neg (by simpa using same)] at found
        obtain ⟨rest, before, after⟩ := ih found
        rw [if_neg same]
        exact ⟨x :: rest, (before.cons x).trans (.swap _ _ _),
          (after.cons x).trans (.swap _ _ _)⟩

/-- Writing through a pointer to an entry of the table. -/
theorem DictMap.Table.write {m : DictMap} {a : List (List DictEntry)} (t : m.Table a)
    {key : CStr} (value : UInt64) (length : Nat) {e : DictEntry} (member : e ∈ m.entries)
    (keyEq : e.key = key) :
    ∃ m' a' old rest, m.write key value length = some m' ∧ m'.Table a' ∧ m'.size = m.size ∧
      old.key = key ∧ m.entries.Perm (old :: rest) ∧
      m'.entries.Perm (⟨key, value, length⟩ :: rest) ∧
      ∀ i : Nat, a[i]? = some [] → a'[i]? = some [] := by
  obtain ⟨chain, here, read⟩ := t.chain_eq key
  have inChain := (t.mem_chain here keyEq).mp member
  obtain ⟨old, found⟩ : ∃ old, chain.find? (fun e => e.key = key) = some old := by
    rw [← Option.isSome_iff_exists, List.find?_isSome]
    exact ⟨e, inChain, by simpa using keyEq⟩
  have oldKey : old.key = key := by simpa using List.find?_some found
  obtain ⟨rest, before, after⟩ := chainSet_perm value length found
  have home : ∀ x ∈ chainSet key value length chain, m.index x.key = m.index key := by
    intro x inside
    rcases List.mem_cons.mp (after.mem_iff.mp inside) with rfl | inRest
    · rfl
    · exact t.home _ _ here x (before.mem_iff.mpr (List.mem_cons_of_mem _ inRest))
  have table := t.set_chain _ here home
  have counter : m.length - (chain.length : Int) +
      ((chainSet key value length chain).length : Int) = m.length := by
    have h₁ := before.length_eq
    have h₂ := after.length_eq
    simp only [List.length_cons] at h₁ h₂
    omega
  rw [counter] at table
  obtain ⟨others, entriesBefore, entriesAfter⟩ :=
    t.entries_set_chain (chainSet key value length chain) here m.length
  refine ⟨m.setBucket (m.index key) (chainSet key value length chain), _, old, rest ++ others,
    ?_, table, rfl, oldKey, ?_, ?_, ?_⟩
  · simp [DictMap.write, read]
  · exact entriesBefore.trans (before.append_right others)
  · exact entriesAfter.trans (after.append_right others)
  · intro i empty
    by_cases same : i = m.index key
    · subst same
      rw [here] at empty
      obtain rfl := Option.some.inj empty
      cases inChain
    · rwa [List.getElem?_set_ne (Ne.symm same)]

/-- Walking the chain of a key finds what the table as a whole holds. -/
theorem DictMap.Table.find_chain {m : DictMap} {a : List (List DictEntry)} (t : m.Table a)
    {key : CStr} {chain : List DictEntry} (here : a[m.index key]? = some chain) :
    (∃ e, chain.find? (fun e => e.key = key) = some e ∧ e ∈ m.entries ∧ e.key = key) ∨
    (chain.find? (fun e => e.key = key) = none ∧ ∀ e ∈ m.entries, e.key ≠ key) := by
  rcases found : chain.find? (fun e => e.key = key) with - | e
  · right
    refine ⟨found, fun e member keyEq => ?_⟩
    rw [List.find?_eq_none] at found
    exact found e ((t.mem_chain here keyEq).mp member) (by simpa using keyEq)
  · left
    have keyEq : e.key = key := by simpa using List.find?_some found
    exact ⟨e, found, (t.mem_chain here keyEq).mpr (List.mem_of_find?_eq_some found), keyEq⟩

/-- `chainHas` on the chain of a key decides whether the table holds the key. -/
theorem DictMap.Table.chainHas_iff {m : DictMap} {a : List (List DictEntry)} (t : m.Table a)
    {key : CStr} {chain : List DictEntry} (here : a[m.index key]? = some chain) :
    chainHas chain key = true ↔ ∃ e ∈ m.entries, e.key = key := by
  rw [chainHas, List.any_eq_true]
  constructor
  · intro found
    obtain ⟨e, member, keyEq⟩ := found
    have keyEq : e.key = key := by simpa using keyEq
    exact ⟨e, (t.mem_chain here keyEq).mpr member, keyEq⟩
  · intro found
    obtain ⟨e, member, keyEq⟩ := found
    exact ⟨e, (t.mem_chain here keyEq).mp member, by simpa using keyEq⟩

/-! ## Fresh tables and their size -/

theorem DictMap.alloc_table {size k : Nat} (two : 2 ≤ k) (pow : size = 2 ^ k) :
    (DictMap.alloc size).Table (List.replicate size []) := by
  refine ⟨rfl, by simp [DictMap.alloc], ⟨k, two, pow⟩, rfl, ?_, ?_⟩
  · intro i chain here e member
    have empty : chain = [] := List.eq_of_mem_replicate (List.mem_of_getElem? here)
    rw [empty] at member
    cases member
  · simp [DictMap.alloc]

@[simp] theorem DictMap.alloc_entries (size : Nat) : (DictMap.alloc size).entries = [] := by
  simp [DictMap.entries, DictMap.alloc]

/-- Below `LONG_MAX`, `dict_real_size` is the least power of two that is not
smaller than its argument. -/
theorem dictRealSize_eq {n : Nat} (pos : 0 < n) (small : n < longMax) :
    dictRealSize n = 2 ^ (n - 1).size := by
  have wrapped : (n + (2 ^ 64 - 1)) % 2 ^ 64 = n - 1 := by
    rw [longMax] at small
    omega
  have bound : n - 1 < 2 ^ 63 := by
    rw [longMax] at small
    omega
  have smeared := ((((((Smeared.start (n - 1)).double).double).double).double).double).double
  have ones := smeared.eq_pred_pow (by omega)
  have sizeLe : (n - 1).size ≤ 63 := Nat.size_le.mpr bound
  have powLe : 2 ^ (n - 1).size ≤ 2 ^ 63 := Nat.pow_le_pow_right (by decide) sizeLe
  have powPos : 0 < 2 ^ (n - 1).size := Nat.two_pow_pos _
  rw [dictRealSize, if_neg (by omega), wrapped]
  simp only [Nat.reduceAdd] at ones
  simp only [ones]
  omega

/-- The table that `dict_expand` fills in. -/
def Dict.expanded (before after : Dict) : DictMap :=
  if before.primary.array = none then after.primary else after.rehash

theorem dictExpand_expanded {d d' : Dict} {n : Nat} (ran : dictExpand d n = (d', .ok)) :
    d.expanded d' = DictMap.alloc (dictRealSize n) := by
  rw [dictExpand] at ran
  split at ran
  · cases ran
  · split at ran
    · cases ran
    · split at ran
      · rename_i fresh
        cases ran
        exact if_pos fresh
      · rename_i used
        cases ran
        exact if_neg used

theorem DictMap.alloc_bucket {size i : Nat} (inside : i < size) :
    (DictMap.alloc size).bucket i = some [] := by
  rw [DictMap.bucket, DictMap.alloc, Option.bind_some, List.getElem?_replicate, if_pos inside]

/-- Below `LONG_MAX` the size is the least power of two that is large enough, and in the
table that is allocated with it the masked hash is the remainder and the number of a bucket. -/
theorem dictRealSize_masks {n : Nat} (pos : 1 ≤ n) (small : n < longMax) :
    (∃ k, dictRealSize n = 2 ^ k) ∧ n ≤ dictRealSize n ∧
      (∀ j, n ≤ 2 ^ j → dictRealSize n ≤ 2 ^ j) ∧
      ∀ d d', dictExpand d n = (d', .ok) → ∀ hash : UInt32,
        hash.toNat &&& (d.expanded d').sizemask = hash.toNat % (d.expanded d').size ∧
        hash.toNat &&& (d.expanded d').sizemask < (d.expanded d').size ∧
        (d.expanded d').bucket (hash.toNat &&& (d.expanded d').sizemask) = some [] := by
  have power := dictRealSize_eq pos small
  refine ⟨⟨_, power⟩, ?_, ?_, ?_⟩
  · rw [power]
    exact le_two_pow_size_pred
  · intro j bound
    rw [power]
    exact Nat.pow_le_pow_right (by decide) (size_pred_le_of_le_two_pow bound)
  · intro d d' ran hash
    rw [dictExpand_expanded ran, power]
    have masked : hash.toNat &&& (DictMap.alloc (2 ^ (n - 1).size)).sizemask =
        hash.toNat % 2 ^ (n - 1).size := Nat.and_two_pow_sub_one_eq_mod _ _
    have inside : hash.toNat % 2 ^ (n - 1).size < 2 ^ (n - 1).size :=
      Nat.mod_lt _ (Nat.two_pow_pos _)
    rw [masked]
    exact ⟨rfl, inside, DictMap.alloc_bucket inside⟩

theorem dictRealSize_masks_thirtyFive :
    dictRealSize 35 = 64 ∧ 35 ≤ dictRealSize 35 :=
  ⟨by decide, (dictRealSize_masks (by decide) (by decide)).2.1⟩

end XFireDB
