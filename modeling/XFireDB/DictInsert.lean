import XFireDB.DictInvariant

/-!
# Insertion under the dictionary invariant

An insertion may expand the table, must look in both tables, and links the new
entry in the one that is growing.  The value is written afterwards through a
pointer to the linked entry.
-/

namespace XFireDB

open Lib

/-! ## Expansion before an insertion -/

/-- The tables an insertion works on have at most `2^31` buckets: those of the
dictionary after the foreground step and a possible expansion. -/
def Dict.tablesFit (g : DictGlobals) (d : Dict) : Bool :=
  (dictForeground d).all fun d' =>
    decide ((dictExpandIf g d').1.primary.size ≤ 2 ^ 31) &&
      decide ((dictExpandIf g d').1.rehash.size ≤ 2 ^ 31)

theorem Dict.tablesFit_of_foreground {g : DictGlobals} {d d' : Dict} (fits : d.tablesFit g = true)
    (fore : dictForeground d = some d') :
    (dictExpandIf g d').1.primary.size ≤ 2 ^ 31 ∧ (dictExpandIf g d').1.rehash.size ≤ 2 ^ 31 := by
  rw [Dict.tablesFit, fore, Option.all_some] at fits
  simpa only [Bool.and_eq_true, decide_eq_true_eq] using fits

/-- Doubling a full table below `LONG_MAX` gives a larger power of two. -/
theorem dictRealSize_double {m : DictMap} {a : List (List DictEntry)} (t : m.Table a)
    (full : (m.size : Int) ≤ m.length) (small : (m.length * 2).toNat < longMax) :
    ∃ k, 2 ≤ k ∧ dictRealSize (m.length * 2).toNat = 2 ^ k ∧
      m.size < dictRealSize (m.length * 2).toNat := by
  have four := t.size_ge
  have eq := dictRealSize_eq (by omega) small
  have le := le_two_pow_size_pred (n := (m.length * 2).toNat)
  rw [eq]
  refine ⟨_, ?_, rfl, by omega⟩
  by_contra small'
  have two : 2 ^ ((m.length * 2).toNat - 1).size ≤ 2 ^ 1 :=
    Nat.pow_le_pow_right (by decide) (by omega)
  omega

/-- An expansion outside a rehash asks for less than `LONG_MAX` buckets. -/
def Dict.Growable (g : DictGlobals) (d : Dict) : Prop :=
  d.rehashing = false → dictShouldExpand g d = true → (d.primary.length * 2).toNat < longMax

theorem dictShouldExpand_full {g : DictGlobals} {d : Dict} (expand : dictShouldExpand g d = true) :
    (d.primary.size : Int) ≤ d.primary.length := by
  simp only [dictShouldExpand, Bool.and_eq_true, decide_eq_true_eq] at expand
  exact expand.1

/-- The expansion of a full table has room for its entries. -/
theorem Dict.room {d : Dict} (off : d.rehashing = false)
    (full : (d.primary.size : Int) ≤ d.primary.length) :
    ¬ (d.rehashing = true ∨ ((d.primary.length * 2).toNat : Int) < d.primary.length) := by
  intro either
  rcases either with busy | short
  · rw [off] at busy
    cases busy
  · omega

theorem Dict.Inv.growable_of_fits {g : DictGlobals} {d : Dict} (inv : d.Inv)
    (fits : (dictExpandIf g d).1.primary.size ≤ 2 ^ 31 ∧
      (dictExpandIf g d).1.rehash.size ≤ 2 ^ 31) : d.Growable g := by
  intro off expand
  by_contra big
  have capped : dictRealSize (d.primary.length * 2).toNat = longMax :=
    if_pos (Nat.le_of_not_lt big)
  rw [longMax] at capped big
  rcases (inv.idle off).2 with reset | ⟨a, t⟩
  · rw [reset] at big
    exact big (by decide)
  · have four := t.size_ge
    have allocated : d.primary.array ≠ none := by simp [t.array_eq]
    rw [XFireDB.dictExpandIf, if_neg (by simp [off]), if_neg (by omega), if_pos expand, dictExpand,
      if_neg (Dict.room off (dictShouldExpand_full expand)), capped] at fits
    by_cases equal : d.primary.size = 2 ^ 63 - 1
    · rw [if_pos equal, equal] at fits
      exact absurd fits.1 (by decide)
    · rw [if_neg equal, if_neg allocated] at fits
      have bound : 2 ^ 63 - 1 ≤ 2 ^ 31 := fits.2
      exact absurd bound (by decide)

/-- `dict_expand_if` succeeds before every insertion; afterwards the primary
table is allocated and no entry has moved. -/
theorem Dict.Inv.dictExpandIf {g : DictGlobals} {d : Dict} (inv : d.Inv) (small : d.Growable g) :
    ∃ d', dictExpandIf g d = (d', .ok) ∧ d'.Inv ∧ d'.entries = d.entries ∧
      ∃ a, d'.primary.Table a := by
  rw [XFireDB.dictExpandIf]
  by_cases on : d.rehashing = true
  · obtain ⟨a, b, run⟩ := inv.busy on
    exact ⟨d, if_pos on, inv, rfl, a, run.primary⟩
  · have off : d.rehashing = false := by simpa using on
    rw [if_neg on]
    obtain ⟨second, primary⟩ := inv.idle off
    rcases primary with reset | ⟨a, t⟩
    · -- after `dict_clear` the primary table is allocated in place
      have entriesNil : d.entries = [] := by
        rw [inv.entries_of_idle off, reset, dictReset_entries]
      rw [if_pos (by rw [reset]; rfl)]
      have size4 : dictRealSize 4 = 4 := by decide
      refine ⟨{ d with primary := DictMap.alloc 4 }, ?_, ?_, ?_, ?_⟩
      · simp [dictExpand, off, reset, dictReset, size4, dictMinimalSize]
      · refine ⟨?_, fun h => absurd (off.symm.trans h) (by decide), fun _ => ⟨second, Or.inr ?_⟩⟩
        · simp [Dict.entries, second]
        · exact ⟨_, DictMap.alloc_table (k := 2) (by decide) rfl⟩
      · rw [entriesNil]
        simp [Dict.entries, second]
      · exact ⟨_, DictMap.alloc_table (k := 2) (by decide) rfl⟩
    · have four := t.size_ge
      rw [if_neg (by omega)]
      by_cases expand : dictShouldExpand g d = true
      · rw [if_pos expand]
        have full := dictShouldExpand_full expand
        have allocated : d.primary.array ≠ none := by simp [t.array_eq]
        obtain ⟨k, two, pow, larger⟩ := dictRealSize_double t full (small off expand)
        refine ⟨{ d with
          rehash := DictMap.alloc (dictRealSize (d.primary.length * 2).toNat)
          rehashidx := 0
          rehashing := true }, ?_, ?_, ?_, a, t⟩
        · rw [dictExpand, if_neg (Dict.room off full), if_neg (by omega), if_neg allocated]
        · refine ⟨?_, fun _ => ⟨a, _, t, DictMap.alloc_table two pow, ?_, ?_, ?_⟩,
            fun h => (by cases h)⟩
          · have := inv.distinct
            rw [inv.entries_of_idle off] at this
            simpa [Dict.entries] using this
          · simp
          · simp
          · intro i early
            simp only at early
            omega
        · simp [Dict.entries, second]
      · rw [if_neg expand]
        exact ⟨d, rfl, inv, rfl, a, t⟩

/-! ## Insertion -/

/-- Some entry has this key. -/
def Dict.Has (d : Dict) (key : CStr) : Prop := ∃ e ∈ d.entries, e.key = key

theorem Dict.Has.of_perm {d d' : Dict} {key : CStr} (perm : d'.entries.Perm d.entries) :
    d'.Has key ↔ d.Has key := by
  simp only [Dict.Has, perm.mem_iff]

theorem intOfU32_small {n : Nat} (small : n < 2 ^ 31) : intOfU32 n = n := if_pos small

/-- The table new entries go to. -/
def Dict.growing (d : Dict) : DictMap := if d.rehashing then d.rehash else d.primary

/-- `dict_calc_index` rejects exactly the present keys, and otherwise returns
the bucket of the key in the table new entries go to, converted to `int`. -/
theorem Dict.Inv.calcIndex {g : DictGlobals} {d : Dict} (inv : d.Inv) (key : CStr)
    (small : d.Growable g) :
    ∃ d', (XFireDB.dictExpandIf g d).1 = d' ∧ d'.Inv ∧ d'.entries = d.entries ∧
      (∃ a, d'.primary.Table a) ∧
      ((d.Has key ∧ dictCalcIndex g d key = some (d', -1)) ∨
        (¬ d.Has key ∧ dictCalcIndex g d key = some (d', intOfU32 (d'.growing.index key)))) := by
  obtain ⟨d', expanded, inv', entriesEq, a, t⟩ := inv.dictExpandIf small
  have has : d.Has key ↔ d'.Has key := by rw [Dict.Has, Dict.Has, entriesEq]
  refine ⟨d', by rw [expanded], inv', entriesEq, ⟨a, t⟩, ?_⟩
  rw [has, XFireDB.dictCalcIndex, expanded, Dict.growing]
  obtain ⟨chain, here, read⟩ := t.chain_eq key
  have inPrimary := t.chainHas_iff here
  simp only [reduceCtorEq, if_false, read, Option.bind_eq_bind, Option.bind_some]
  by_cases first : chainHas chain key = true
  · left
    obtain ⟨e, member, keyEq⟩ := inPrimary.mp first
    exact ⟨⟨e, List.mem_append_left _ member, keyEq⟩, by rw [if_pos first]⟩
  · rw [if_neg first]
    by_cases on : d'.rehashing = true
    · obtain ⟨a', b, run⟩ := inv'.busy on
      obtain ⟨chain₂, here₂, read₂⟩ := run.rehash.chain_eq key
      have inRehash := run.rehash.chainHas_iff here₂
      simp only [if_pos on, read₂, Option.bind_some]
      by_cases second : chainHas chain₂ key = true
      · left
        obtain ⟨e, member, keyEq⟩ := inRehash.mp second
        exact ⟨⟨e, List.mem_append_right _ member, keyEq⟩, by rw [if_pos second]⟩
      · right
        refine ⟨?_, by rw [if_neg second]⟩
        intro found
        obtain ⟨e, member, keyEq⟩ := found
        rcases List.mem_append.mp member with old | new
        · exact first (inPrimary.mpr ⟨e, old, keyEq⟩)
        · exact second (inRehash.mpr ⟨e, new, keyEq⟩)
    · right
      simp only [if_neg on]
      refine ⟨?_, trivial⟩
      intro found
      obtain ⟨e, member, keyEq⟩ := found
      rw [inv'.entries_of_idle (by simpa using on)] at member
      exact first (inPrimary.mpr ⟨e, member, keyEq⟩)

/-- The table new entries go to is allocated before an insertion. -/
theorem Dict.Inv.growing_index_lt {d : Dict} (inv : d.Inv) {a : List (List DictEntry)}
    (t : d.primary.Table a) (key : CStr) : d.growing.index key < d.growing.size := by
  rw [Dict.growing]
  split
  · rename_i on
    obtain ⟨a', b, run⟩ := inv.busy on
    exact run.rehash.size_eq ▸ run.rehash.index_lt key
  · exact t.size_eq ▸ t.index_lt key

/-- Below `2^31` buckets the index is not converted to a negative number. -/
theorem Dict.Inv.dictCalcIndex {g : DictGlobals} {d : Dict} (inv : d.Inv) (key : CStr)
    (fits : (XFireDB.dictExpandIf g d).1.primary.size ≤ 2 ^ 31 ∧
      (XFireDB.dictExpandIf g d).1.rehash.size ≤ 2 ^ 31) :
    ∃ d', d'.Inv ∧ d'.entries = d.entries ∧ (∃ a, d'.primary.Table a) ∧
      ((d.Has key ∧ dictCalcIndex g d key = some (d', -1)) ∨
        (¬ d.Has key ∧ dictCalcIndex g d key =
          some (d', ((d'.growing.index key : Nat) : Int)))) := by
  obtain ⟨d', expanded, inv', entriesEq, ⟨a, t⟩, cases_⟩ :=
    inv.calcIndex key (inv.growable_of_fits fits)
  rw [expanded] at fits
  refine ⟨d', inv', entriesEq, ⟨a, t⟩, ?_⟩
  have bound : d'.growing.index key < 2 ^ 31 := by
    have inside := inv'.growing_index_lt t key
    have : d'.growing.size ≤ 2 ^ 31 := by
      rw [Dict.growing]
      split
      · exact fits.2
      · exact fits.1
    omega
  rwa [intOfU32_small bound] at cases_

/-- `__dict_add` once the index of the new entry is known. -/
theorem dictLinkLocked_of_index {g : DictGlobals} {d d₂ : Dict} {key : CStr} {i : Nat}
    (index : dictCalcIndex g d key = some (d₂, (i : Int))) :
    dictLinkLocked g d key =
      if d₂.rehashing then
        (d₂.rehash.push i ⟨key, 0, 0⟩).map fun m => ({ d₂ with rehash := m }, some ⟨true, key⟩)
      else
        (d₂.primary.push i ⟨key, 0, 0⟩).map fun m =>
        ({ d₂ with primary := m }, some ⟨false, key⟩) := by
  have nonneg : ¬ ((i : Int) < 0) := by omega
  have notErr : (i : Int) ≠ -1 := by omega
  rw [dictLinkLocked_eq, index]
  simp only [Option.bind_eq_bind, Option.bind_some, if_neg notErr, if_neg nonneg,
    Int.toNat_natCast, Option.map_eq_bind, Function.comp_def]

/-- The table an entry pointer points into. -/
def Dict.tableOf (d : Dict) (r : EntryRef) : DictMap := if r.inRehash then d.rehash else d.primary

/-- `__dict_add` of a new key links a fresh entry at the index it computed. -/
theorem Dict.Inv.link_fresh {g : DictGlobals} {d d₂ : Dict} {key : CStr} (inv : d.Inv)
    (inv₂ : d₂.Inv) {a : List (List DictEntry)}
    (t : d₂.primary.Table a) (perm₂ : d₂.entries.Perm d.entries) (absent : ¬ d.Has key)
    (index : XFireDB.dictCalcIndex g d key = some (d₂, ((d₂.growing.index key : Nat) : Int))) :
    ∃ d' r, dictLinkLocked g d key = some (d', some r) ∧ d'.Inv ∧ r.key = key ∧
      d'.entries.Perm (⟨key, 0, 0⟩ :: d.entries) ∧
      (r.inRehash = true → d'.rehashing = true) ∧
      ⟨key, 0, 0⟩ ∈ (d'.tableOf r).entries := by
  have distinct : ((⟨key, 0, 0⟩ :: d.entries).map DictEntry.key).Nodup := by
    rw [List.map_cons, List.nodup_cons]
    refine ⟨fun member => absent ?_, inv.distinct⟩
    obtain ⟨e, inside, keyEq⟩ := List.mem_map.mp member
    exact ⟨e, inside, keyEq⟩
  by_cases on : d₂.rehashing = true
  · obtain ⟨a', b, run⟩ := inv₂.busy on
    obtain ⟨m, b', pushed, table, _, _, _, perm⟩ := run.rehash.push ⟨key, 0, 0⟩
    have total : (Dict.entries { d₂ with rehash := m }).Perm (⟨key, 0, 0⟩ :: d.entries) := by
      simp only [Dict.entries]
      refine (perm.append_left d₂.primary.entries).trans ?_
      exact List.perm_middle.trans (perm₂.cons _)
    refine ⟨{ d₂ with rehash := m }, ⟨true, key⟩, ?_, ?_, rfl, total, fun _ => on, ?_⟩
    · simp only [Dict.growing, if_pos on] at index
      rw [dictLinkLocked_of_index index, if_pos on, pushed, Option.map_some]
    · refine ⟨(total.map DictEntry.key).nodup_iff.mpr distinct, fun _ => ⟨a', b', ?_⟩,
        fun off => absurd (on.symm.trans off) (by decide)⟩
      exact ⟨run.primary, table, run.idx_nonneg, run.idx_le, run.moved⟩
    · simp only [Dict.tableOf, if_true]
      exact perm.mem_iff.mpr List.mem_cons_self
  · have off : d₂.rehashing = false := by simpa using on
    obtain ⟨m, a', pushed, table, _, _, _, perm⟩ := t.push ⟨key, 0, 0⟩
    have total : (Dict.entries { d₂ with primary := m }).Perm (⟨key, 0, 0⟩ :: d.entries) := by
      simp only [Dict.entries]
      refine (perm.append_right d₂.rehash.entries).trans ?_
      rw [List.cons_append]
      exact perm₂.cons _
    refine ⟨{ d₂ with primary := m }, ⟨false, key⟩, ?_, ?_, rfl, total, fun h => (by cases h), ?_⟩
    · simp only [Dict.growing, if_neg on] at index
      rw [dictLinkLocked_of_index index, if_neg on, pushed, Option.map_some]
    · refine ⟨(total.map DictEntry.key).nodup_iff.mpr distinct,
        fun h => absurd (off.symm.trans h) (by decide), fun _ => ?_⟩
      exact ⟨(inv₂.idle off).1, Or.inr ⟨a', table⟩⟩
    · simp only [Dict.tableOf, Bool.false_eq_true, if_false]
      exact perm.mem_iff.mpr List.mem_cons_self

/-- `__dict_add` fails on a present key and links a fresh entry otherwise. -/
theorem Dict.Inv.dictLink {g : DictGlobals} {d : Dict} (inv : d.Inv) (key : CStr)
    (fits : d.tablesFit g = true) :
    (d.Has key ∧ ∃ d', dictLink g d key = some (d', none) ∧ d'.Inv ∧
      d'.entries.Perm d.entries) ∨
    (¬ d.Has key ∧ ∃ d' r, dictLink g d key = some (d', some r) ∧ d'.Inv ∧ r.key = key ∧
      d'.entries.Perm (⟨key, 0, 0⟩ :: d.entries) ∧
      (r.inRehash = true → d'.rehashing = true) ∧
      ⟨key, 0, 0⟩ ∈ (d'.tableOf r).entries) := by
  obtain ⟨d₁, fore, inv₁, perm₁⟩ := inv.dictForeground
  obtain ⟨d₂, inv₂, entriesEq, ⟨a, t⟩, cases_⟩ :=
    inv₁.dictCalcIndex key (Dict.tablesFit_of_foreground fits fore)
  have has : d₁.Has key ↔ d.Has key := Dict.Has.of_perm perm₁
  have perm₂ : d₂.entries.Perm d₁.entries := by rw [entriesEq]
  rw [dictLink_eq, fore, Option.bind_some]
  rcases cases_ with ⟨present, calc_⟩ | ⟨absent, calc_⟩
  · left
    refine ⟨has.mp present, d₂, ?_, inv₂, perm₂.trans perm₁⟩
    simp [dictLinkLocked_eq, calc_]
  · right
    obtain ⟨d', r, link, inv', keyEq, perm, busy, member⟩ :=
      inv₁.link_fresh inv₂ t perm₂ absent calc_
    exact ⟨fun present => absent (has.mpr present), d', r, link, inv', keyEq,
      perm.trans (perm₁.cons _), busy, member⟩

/-- Writing through an entry pointer replaces the payload of that entry only. -/
theorem Dict.Inv.write {d : Dict} (inv : d.Inv) {r : EntryRef} (value : UInt64) (length : Nat)
    (busy : r.inRehash = true → d.rehashing = true) {e : DictEntry}
    (member : e ∈ (d.tableOf r).entries) (keyEq : e.key = r.key) :
    ∃ d' old rest, d.write r value length = some d' ∧ d'.Inv ∧ old.key = r.key ∧
      d.entries.Perm (old :: rest) ∧ d'.entries.Perm (⟨r.key, value, length⟩ :: rest) := by
  have keys : ∀ {d' : Dict} {old : DictEntry} {rest : List DictEntry}, old.key = r.key →
      d.entries.Perm (old :: rest) → d'.entries.Perm (⟨r.key, value, length⟩ :: rest) →
      (d'.entries.map DictEntry.key).Nodup := by
    intro d' old rest oldKey before after
    rw [(after.map DictEntry.key).nodup_iff]
    have := (before.map DictEntry.key).nodup_iff.mp inv.distinct
    simpa [oldKey] using this
  rw [Dict.write]
  by_cases inRehash : r.inRehash = true
  · rw [if_pos inRehash]
    rw [Dict.tableOf, if_pos inRehash] at member
    have on := busy inRehash
    obtain ⟨a, b, run⟩ := inv.busy on
    obtain ⟨m, b', old, rest, written, table, _, oldKey, before, after, _⟩ :=
      run.rehash.write value length member keyEq
    have total : d.entries.Perm (old :: (d.primary.entries ++ rest)) :=
      (before.append_left _).trans List.perm_middle
    have total' : (Dict.entries { d with rehash := m }).Perm
        (⟨r.key, value, length⟩ :: (d.primary.entries ++ rest)) :=
      (after.append_left _).trans List.perm_middle
    refine ⟨{ d with rehash := m }, old, _, by simp [written], ?_, oldKey, total, total'⟩
    refine ⟨keys oldKey total total', fun _ => ⟨a, b', ?_⟩,
      fun off => absurd (on.symm.trans off) (by decide)⟩
    exact ⟨run.primary, table, run.idx_nonneg, run.idx_le, run.moved⟩
  · rw [if_neg inRehash]
    rw [Dict.tableOf, if_neg inRehash] at member
    have allocated : ∃ a, d.primary.Table a := by
      rcases on : d.rehashing with - | -
      · rcases (inv.idle on).2 with reset | table
        · rw [reset] at member
          cases member
        · exact table
      · obtain ⟨a, b, run⟩ := inv.busy on
        exact ⟨a, run.primary⟩
    obtain ⟨a, t⟩ := allocated
    obtain ⟨m, a', old, rest, written, table, sizeEq, oldKey, before, after, cleared⟩ :=
      t.write value length member keyEq
    have total : d.entries.Perm (old :: (rest ++ d.rehash.entries)) :=
      before.append_right _
    have total' : (Dict.entries { d with primary := m }).Perm
        (⟨r.key, value, length⟩ :: (rest ++ d.rehash.entries)) :=
      after.append_right _
    refine ⟨{ d with primary := m }, old, _, by simp [written], ?_, oldKey, total, total'⟩
    refine ⟨keys oldKey total total', fun on => ?_, fun off =>
      ⟨(inv.idle off).1, Or.inr ⟨a', table⟩⟩⟩
    obtain ⟨a₀, b, run⟩ := inv.busy on
    obtain rfl : a₀ = a := Option.some.inj (run.primary.array_eq.symm.trans t.array_eq)
    refine ⟨a', b, table, run.rehash, run.idx_nonneg, ?_, fun i early =>
      cleared i (run.moved i early)⟩
    simp only [sizeEq]
    exact run.idx_le

end XFireDB
