import XFireDB.DictIteration
import XFireDB.DictRaw

/-!
# Whole iterations over a dictionary

`dict_iterator_prev` walks the buckets of a table from the last to the first
and each chain from its end to its head, following the chain again for every
step back.  With no rehash step in between, both iterators return every entry
once: forward also when returned entries are deleted on the way.
-/

namespace XFireDB

open Lib

/-! ## The backward iterator -/

/-- The last entry of a chain, by following `e->next`. -/
def chainLast : List DictEntry → Option CStr
  | [] => none
  | [e] => some e.key
  | _ :: e :: es => chainLast (e :: es)

/-- The `while` of `entry_prev`. -/
def entryPrevLoop (e : CStr) : List DictEntry → Option CStr
  | [] => none
  | head :: carriage =>
      if chainHead carriage = some e then some head.key else entryPrevLoop e carriage

/-- `entry_prev`. -/
def entryPrev (head : List DictEntry) (e : CStr) : Option CStr :=
  if chainHead head = some e then none else entryPrevLoop e head

/-- `map->array[idx]` for a `long` index. -/
def DictMap.bucketAt (m : DictMap) (idx : Int) : Option (List DictEntry) :=
  if idx < 0 then none else m.bucket idx.toNat

/-- The first half of the loop body of `dict_iterator_prev`: the next value of
`it->e`, or the `break`. -/
def dictIteratorRetreat (d : Dict) (it : DictIterator) : Option (DictIterator × Bool) :=
  match it.e with
  | none =>
      let idx := it.idx - 1
      -- the first call of an iteration starts at the last bucket
      let idx := if idx = -2 then ((d.map it.table).size : Int) - 1 else idx
      if idx ≤ -1 ∨ ((d.map it.table).size : Int) ≤ idx then
        if d.rehashing ∧ it.table = 0 then do
          let idx := (d.rehash.size : Int) - 1
          let chain ← d.rehash.bucketAt idx
          some ({ it with table := 1, idx := idx, e := chainLast chain }, false)
        else some ({ it with idx := idx }, true)
      else do
        let chain ← (d.map it.table).bucketAt idx
        some ({ it with idx := idx, e := chainLast chain }, false)
  | some e => do
      let chain ← (d.map it.table).bucketAt it.idx
      if chainHead chain = some e then some ({ it with e := none }, false)
      else some ({ it with e := entryPrev chain e }, false)

/-- The loop of `dict_iterator_prev`, with the entry it returns. -/
def dictIteratorPrevLoop (d : Dict) : Nat → DictIterator → Option (DictIterator × Option CStr)
  | 0, _ => none
  | fuel + 1, it => do
      let (it, left) ← dictIteratorRetreat d it
      if left then some (it, none)
      else
        match it.e with
        | some key => some (it, some key)
        | none => dictIteratorPrevLoop d fuel it

/-- `dict_iterator_prev`. -/
def dictIteratorPrev (d : Dict) (it : DictIterator) : Option (DictIterator × Option CStr) :=
  dictIteratorPrevLoop d (d.primary.size + d.rehash.size + 2) it

/-! ## Walking a chain backwards -/

theorem chainLast_concat (pre : List DictEntry) (e : DictEntry) :
    chainLast (pre ++ [e]) = some e.key := by
  induction pre with
  | nil => rfl
  | cons x pre ih =>
      rcases pre with - | ⟨y, pre⟩
      · rfl
      · exact ih

theorem chainHead_append {pre suf : List DictEntry} (nonempty : pre ≠ []) :
    chainHead (pre ++ suf) = chainHead pre := by
  rcases pre with - | ⟨x, pre⟩
  · contradiction
  · rfl

theorem chainHead_ne {key : CStr} {chain : List DictEntry} (other : ∀ x ∈ chain, x.key ≠ key) :
    chainHead chain ≠ some key := by
  rcases chain with - | ⟨x, chain⟩
  · intro same
    cases same
  · intro same
    exact other x List.mem_cons_self (Option.some.inj same)

/-- The loop stops in front of the entry. -/
theorem entryPrevLoop_middle {pre suf : List DictEntry} {p e : DictEntry}
    (early : ∀ x ∈ pre ++ [p], x.key ≠ e.key) :
    entryPrevLoop e.key (pre ++ p :: e :: suf) = some p.key := by
  induction pre with
  | nil => exact if_pos rfl
  | cons x pre ih =>
      have later : ∀ y ∈ pre ++ [p], y.key ≠ e.key := fun y member =>
        early y (List.mem_cons_of_mem _ member)
      have skip : chainHead (pre ++ p :: e :: suf) ≠ some e.key := by
        have split : pre ++ p :: e :: suf = (pre ++ [p]) ++ e :: suf := by simp
        rw [split, chainHead_append (by simp)]
        exact chainHead_ne later
      rw [List.cons_append, entryPrevLoop, if_neg skip]
      exact ih later

/-! ## The position of the backward iterator -/

/-- The entries in the buckets below `n` of a table, from the last one back, and
those of the second table behind the first. -/
def Dict.before (d : Dict) (table n : Nat) : List DictEntry :=
  (((d.map table).array.getD []).take n).flatten.reverse ++
    if table = 0 then d.rehash.entries.reverse else []

/-- The number of buckets an iterator between two chains has not reached. -/
def Dict.unreached (d : Dict) (it : DictIterator) : Nat :=
  if it.idx = -1 then (d.map it.table).size else it.idx.toNat

/-- The entries a backward iterator has still to return: what lies in front of
its entry in the chain, and the buckets below. -/
def Dict.BackPosition (d : Dict) (it : DictIterator) (left : List DictEntry) : Prop :=
  match it.e with
  | none => -1 ≤ it.idx ∧ it.idx ≤ (d.map it.table).size ∧
      left = d.before it.table (d.unreached it)
  | some key => 0 ≤ it.idx ∧ ∃ pre e suf,
      (d.map it.table).bucket it.idx.toNat = some (pre ++ e :: suf) ∧ e.key = key ∧
        left = pre.reverse ++ d.before it.table it.idx.toNat

variable {g : DictGlobals} {d d' : Dict} {it : DictIterator} {left : List DictEntry}

theorem DictMap.bucketAt_natCast (m : DictMap) (i : Nat) : m.bucketAt i = m.bucket i := by
  rw [DictMap.bucketAt, if_neg (by omega), Int.toNat_natCast]

/-- The entries up to a bucket are its chain backwards and the rest. -/
theorem Dict.Inv.before_succ (inv : d.Inv) {table n : Nat} (inside : n < (d.map table).size) :
    ∃ chain, (d.map table).bucket n = some chain ∧
      d.before table (n + 1) = chain.reverse ++ d.before table n := by
  rw [← (inv.map_represented table).buckets] at inside
  refine ⟨((d.map table).array.getD []).get ⟨n, inside⟩, ?_, ?_⟩
  · rw [DictMap.bucket_eq_getElem?]
    simp [inside]
  · rw [Dict.before, Dict.before, List.take_add_one, List.getElem?_eq_getElem inside,
      Option.toList_some, List.flatten_append, List.reverse_append, List.append_assoc]
    simp

theorem Dict.before_zero (d : Dict) (table : Nat) :
    d.before table 0 = if table = 0 then d.rehash.entries.reverse else [] := by
  rw [Dict.before, List.take_zero]
  rfl

/-- All entries of a table lie below its size. -/
theorem Dict.Inv.before_size (inv : d.Inv) (table : Nat) :
    d.before table (d.map table).size =
      (d.map table).entries.reverse ++ if table = 0 then d.rehash.entries.reverse else [] := by
  rw [Dict.before, ← (inv.map_represented table).buckets, List.take_length]
  rfl

/-- The rounds the loop still needs. -/
def Dict.backRounds (d : Dict) (it : DictIterator) : Nat :=
  (if it.e = none then d.unreached it else it.idx.toNat + 1) +
    (if it.table = 0 then d.rehash.size else 0) + 1

/-- What the first half of the loop body can do at a position. -/
inductive Dict.Retreated (d : Dict) (it : DictIterator) : List DictEntry → Prop
  | broke {it' : DictIterator} (ran : dictIteratorRetreat d it = some (it', true)) :
      d.Retreated it []
  | reached {it' : DictIterator} {e : DictEntry} {left : List DictEntry}
      (ran : dictIteratorRetreat d it = some (it', false)) (here : it'.e = some e.key)
      (position : d.BackPosition it' left) : d.Retreated it (e :: left)
  | passed {it' : DictIterator} {left : List DictEntry}
      (ran : dictIteratorRetreat d it = some (it', false)) (free : it'.e = none)
      (position : d.BackPosition it' left) (closer : d.backRounds it' < d.backRounds it) :
      d.Retreated it left

/-- The iterator enters a bucket. -/
theorem Dict.Retreated.enter {table n : Nat} {eNext : Option CStr} {chain : List DictEntry}
    (inside : n < (d.map table).size) (read : (d.map table).bucket n = some chain)
    (ran : dictIteratorRetreat d it = some (⟨table, n, chainLast chain, eNext⟩, false))
    (closer : d.backRounds ⟨table, n, none, eNext⟩ < d.backRounds it) :
    d.Retreated it (chain.reverse ++ d.before table n) := by
  rcases List.eq_nil_or_concat chain with rfl | ⟨pre, e, rfl⟩
  · have position : d.BackPosition ⟨table, n, none, eNext⟩ (d.before table n) := by
      refine ⟨by simp only; omega, by simp only; omega, ?_⟩
      rw [Dict.unreached, if_neg (by simp only; omega)]
      rfl
    exact .passed ran rfl position closer
  · rw [List.concat_eq_append] at read ran ⊢
    have position : d.BackPosition ⟨table, n, some e.key, eNext⟩
        (pre.reverse ++ d.before table n) :=
      ⟨by simp only; omega, pre, e, [], by simpa using read, rfl, rfl⟩
    rw [chainLast_concat] at ran
    rw [List.reverse_append, List.reverse_singleton, List.singleton_append, List.cons_append]
    exact .reached ran rfl position

/-- A step back in a chain. -/
theorem Dict.Inv.retreated_in_chain (inv : d.Inv) {key : CStr} (here : it.e = some key)
    (position : d.BackPosition it left) : d.Retreated it left := by
  rcases it with ⟨table, idx, e, eNext⟩
  obtain rfl : e = some key := here
  rcases position with ⟨low, pre, e, suf, read, rfl, rfl⟩
  obtain ⟨n, rfl⟩ : ∃ n : Nat, idx = n := ⟨idx.toNat, (Int.toNat_of_nonneg low).symm⟩
  simp only [Int.toNat_natCast] at read ⊢
  have distinct := inv.chain_distinct read
  rcases List.eq_nil_or_concat pre with rfl | ⟨pre, p, rfl⟩
  · -- the head of the chain: go on below the bucket
    have ran : dictIteratorRetreat d ⟨table, n, some e.key, eNext⟩ =
        some (⟨table, n, none, eNext⟩, false) := by
      rw [dictIteratorRetreat]
      simp only [DictMap.bucketAt_natCast, read, Option.bind_eq_bind, Option.bind_some]
      exact if_pos rfl
    have inside : n < (d.map table).size := by
      rw [← (inv.map_represented table).buckets]
      rw [DictMap.bucket_eq_getElem?] at read
      exact (List.getElem?_eq_some_iff.mp read).1
    have behind : d.BackPosition ⟨table, n, none, eNext⟩ (d.before table n) := by
      refine ⟨by simp only; omega, by simp only; omega, ?_⟩
      rw [Dict.unreached, if_neg (by simp only; omega)]
      rfl
    refine .passed ran rfl behind ?_
    have started : (n : Int) ≠ -1 := by omega
    simp only [Dict.backRounds, Dict.unreached, reduceCtorEq, if_true, if_false, started,
      Int.toNat_natCast]
    omega
  · rw [List.concat_eq_append] at read distinct ⊢
    have early : ∀ x ∈ pre ++ [p], x.key ≠ e.key := by
      intro x member
      rw [List.map_append, List.nodup_append] at distinct
      exact distinct.2.2 _ (List.mem_map_of_mem member) _ (by simp)
    have skip : chainHead (pre ++ [p] ++ e :: suf) ≠ some e.key := by
      rw [chainHead_append (by simp)]
      exact chainHead_ne early
    have back : entryPrev (pre ++ [p] ++ e :: suf) e.key = some p.key := by
      rw [entryPrev, if_neg skip, List.append_assoc, List.singleton_append]
      exact entryPrevLoop_middle early
    have ran : dictIteratorRetreat d ⟨table, n, some e.key, eNext⟩ =
        some (⟨table, n, some p.key, eNext⟩, false) := by
      rw [dictIteratorRetreat]
      simp only [DictMap.bucketAt_natCast, read, Option.bind_eq_bind, Option.bind_some]
      rw [if_neg skip, back]
    have position : d.BackPosition ⟨table, n, some p.key, eNext⟩
        (pre.reverse ++ d.before table n) := by
      refine ⟨by simp only; omega, pre, p, e :: suf, ?_, rfl, rfl⟩
      rw [Int.toNat_natCast, read, List.append_assoc, List.singleton_append]
    rw [List.reverse_append, List.reverse_singleton, List.singleton_append, List.cons_append]
    exact .reached ran rfl position

/-- A step of an iterator between two chains. -/
theorem Dict.Inv.retreated_between (inv : d.Inv) (free : it.e = none)
    (position : d.BackPosition it left) : d.Retreated it left := by
  rcases it with ⟨table, idx, e, eNext⟩
  obtain rfl : e = none := free
  rcases position with ⟨low, high, rfl⟩
  simp only at low high ⊢
  -- the index after the decrement and the wrap
  have start : (if idx - 1 = -2 then ((d.map table).size : Int) - 1 else idx - 1) =
      (d.unreached ⟨table, idx, none, eNext⟩ : Int) - 1 := by
    rw [Dict.unreached]
    simp only
    split_ifs <;> omega
  have bound : d.unreached ⟨table, idx, none, eNext⟩ ≤ (d.map table).size := by
    rw [Dict.unreached]
    simp only
    split_ifs <;> omega
  have rounds : d.backRounds ⟨table, idx, none, eNext⟩ =
      d.unreached ⟨table, idx, none, eNext⟩ + (if table = 0 then d.rehash.size else 0) + 1 := by
    rw [Dict.backRounds, if_pos rfl]
  generalize d.unreached ⟨table, idx, none, eNext⟩ = n at start bound rounds ⊢
  rcases n with - | n
  · rw [Dict.before_zero]
    by_cases second : d.rehashing = true ∧ table = 0
    · -- the iterator goes over to the second table
      rcases second with ⟨on, rfl⟩
      obtain ⟨a, b, run⟩ := inv.busy on
      have four := run.rehash.size_ge
      obtain ⟨last, lastEq⟩ : ∃ last, d.rehash.size = last + 1 := ⟨d.rehash.size - 1, by omega⟩
      have inside : last < (d.map 1).size := by
        change last < d.rehash.size
        omega
      obtain ⟨chain, read, split⟩ := inv.before_succ inside
      have all : d.rehash.entries.reverse = d.before 1 (last + 1) := by
        have := inv.before_size 1
        rw [if_neg (by decide), List.append_nil] at this
        change d.before 1 d.rehash.size = d.rehash.entries.reverse at this
        rw [← this, lastEq]
      have ran : dictIteratorRetreat d ⟨0, idx, none, eNext⟩ =
          some (⟨1, last, chainLast chain, eNext⟩, false) := by
        rw [dictIteratorRetreat]
        simp only [start]
        rw [if_pos (Or.inl (by omega)), if_pos ⟨on, trivial⟩,
          show (d.rehash.size : Int) - 1 = last by omega, DictMap.bucketAt_natCast,
          show d.rehash.bucket last = some chain from read]
        rfl
      rw [if_pos rfl, all, split]
      refine Dict.Retreated.enter inside read ran ?_
      rw [rounds, Dict.backRounds, if_pos rfl, if_pos rfl, if_neg Nat.one_ne_zero, Dict.unreached,
        if_neg (by simp only; omega)]
      simp only [Int.toNat_natCast]
      omega
    · have nothing : (if table = 0 then d.rehash.entries.reverse else []) = [] := by
        split
        · rename_i first
          have off : d.rehashing = false := by
            rcases on : d.rehashing with - | -
            · rfl
            · exact absurd ⟨on, first⟩ second
          rw [(inv.idle off).1]
          rfl
        · rfl
      rw [nothing]
      have ran : dictIteratorRetreat d ⟨table, idx, none, eNext⟩ =
          some (⟨table, ((0 : Nat) : Int) - 1, none, eNext⟩, true) := by
        rw [dictIteratorRetreat]
        simp only [start]
        rw [if_pos (Or.inl (by omega)), if_neg second]
      exact .broke ran
  · have inside : n < (d.map table).size := by omega
    obtain ⟨chain, read, split⟩ := inv.before_succ inside
    have ran : dictIteratorRetreat d ⟨table, idx, none, eNext⟩ =
        some (⟨table, n, chainLast chain, eNext⟩, false) := by
      rw [dictIteratorRetreat]
      simp only [start]
      rw [if_neg (by omega), show ((n + 1 : Nat) : Int) - 1 = n by omega,
        DictMap.bucketAt_natCast, read]
      rfl
    rw [split]
    refine Dict.Retreated.enter (by omega) read ran ?_
    rw [rounds, Dict.backRounds, if_pos rfl, Dict.unreached, if_neg (by simp only; omega)]
    simp only [Int.toNat_natCast]
    omega

theorem Dict.Inv.retreated (inv : d.Inv) (position : d.BackPosition it left) :
    d.Retreated it left := by
  cases here : it.e with
  | some key => exact inv.retreated_in_chain here position
  | none => exact inv.retreated_between here position

/-- With enough rounds the loop returns the first entry left, or null if there
is none. -/
theorem Dict.Inv.iteratorPrevLoop (inv : d.Inv) {fuel : Nat} (position : d.BackPosition it left)
    (enough : d.backRounds it ≤ fuel) :
    ∃ it', dictIteratorPrevLoop d fuel it = some (it', left.head?.map DictEntry.key) ∧
      (left ≠ [] → d.BackPosition it' left.tail) := by
  induction fuel generalizing it with
  | zero =>
      rw [Dict.backRounds] at enough
      omega
  | succ fuel ih =>
      rw [dictIteratorPrevLoop]
      cases inv.retreated position with
      | @broke it' ran =>
          rw [ran]
          exact ⟨it', rfl, fun some_left => absurd rfl some_left⟩
      | @reached it' e left ran here behind =>
          rw [ran]
          simp only [Option.bind_eq_bind, Option.bind_some, Bool.false_eq_true, if_false, here]
          exact ⟨it', rfl, fun _ => behind⟩
      | @passed it' _ ran free behind closer =>
          rw [ran]
          simp only [Option.bind_eq_bind, Option.bind_some, Bool.false_eq_true, if_false, free]
          exact ih behind (by omega)

/-- The call returns the first entry left, or null if there is none. -/
theorem Dict.Inv.iteratorPrev (inv : d.Inv) (position : d.BackPosition it left) :
    ∃ it', dictIteratorPrev d it = some (it', left.head?.map DictEntry.key) ∧
      (left ≠ [] → d.BackPosition it' left.tail) := by
  apply inv.iteratorPrevLoop position
  have sizes : (d.map it.table).size + (if it.table = 0 then d.rehash.size else 0) ≤
      d.primary.size + d.rehash.size := by
    rw [Dict.map]
    split <;> omega
  have reach : (if it.e = none then d.unreached it else it.idx.toNat + 1) ≤
      (d.map it.table).size + 1 := by
    cases here : it.e with
    | none =>
        rw [if_pos rfl]
        rw [Dict.BackPosition, here] at position
        rcases position with ⟨_, high, _⟩
        rw [Dict.unreached]
        split <;> omega
    | some key =>
        rw [if_neg (Option.some_ne_none key)]
        rw [Dict.BackPosition, here] at position
        rcases position with ⟨_, pre, e, suf, read, _⟩
        rw [DictMap.bucket_eq_getElem?] at read
        have inside := (List.getElem?_eq_some_iff.mp read).1
        rw [(inv.map_represented it.table).buckets] at inside
        omega
  rw [Dict.backRounds]
  omega

/-! ## Whole iterations -/

/-- Calls of `dict_iterator_next` up to the first null, at most `calls`, with the
keys returned.  The entries that `drop` selects are deleted before the next
call. -/
def iterateNext (drop : CStr → Bool) : Nat → Dict → DictIterator → Option (Dict × List CStr)
  | 0, _, _ => none
  | calls + 1, d, it => do
      let (it, e) ← dictIteratorNext d it
      match e with
      | none => some (d, [])
      | some key => do
          let d ← if drop key then (dictDelete d key).map Prod.fst else some d
          let (d, keys) ← iterateNext drop calls d it
          some (d, key :: keys)

/-- Calls of `dict_iterator_prev` up to the first null. -/
def iteratePrev (d : Dict) : Nat → DictIterator → Option (List CStr)
  | 0, _ => none
  | calls + 1, it => do
      let (it, e) ← dictIteratorPrev d it
      match e with
      | none => some []
      | some key => (iteratePrev d calls it).map (key :: ·)

/-- Each entry of the dictionary is in the list once. -/
structure Dict.EachOnce (d : Dict) (keys : List CStr) : Prop where
  nodup : keys.Nodup
  all : ∀ key, key ∈ keys ↔ d.Has key
  size : (keys.length : Int) = dictGetSize d

theorem Dict.Inv.eachOnce (inv : d.Inv) {keys : List CStr}
    (perm : keys.Perm (d.entries.map DictEntry.key)) : d.EachOnce keys where
  nodup := perm.nodup_iff.mpr inv.distinct
  all key := perm.mem_iff.trans Dict.mem_keys
  size := by rw [inv.represented.size_eq, perm.length_eq]

/-- The map without the keys among these that `drop` selects. -/
def DictSpec.without (m : DictSpec) (drop : CStr → Bool) (keys : List CStr) : DictSpec := fun k =>
  if k ∈ keys ∧ drop k = true then none else m k

theorem DictSpec.without_keep {m : DictSpec} {drop : CStr → Bool} {key : CStr} {keys : List CStr}
    (keep : drop key = false) : m.without drop (key :: keys) = m.without drop keys := by
  funext k
  have same : (k ∈ key :: keys ∧ drop k = true) ↔ (k ∈ keys ∧ drop k = true) := by
    constructor
    · intro found
      rcases found with ⟨member, selected⟩
      rcases List.mem_cons.mp member with rfl | later
      · rw [keep] at selected
        cases selected
      · exact ⟨later, selected⟩
    · intro found
      rcases found with ⟨member, selected⟩
      exact ⟨List.mem_cons_of_mem _ member, selected⟩
  simp only [DictSpec.without, same]

theorem DictSpec.without_drop {m : DictSpec} {drop : CStr → Bool} {key : CStr} {keys : List CStr}
    (selected : drop key = true) :
    m.without drop (key :: keys) = DictSpec.without (Function.update m key none) drop keys := by
  funext k
  rcases eq_or_ne k key with rfl | differs
  · simp [DictSpec.without, selected]
  · simp [DictSpec.without, differs]

/-- A forward iteration returns the entries left in their order, whatever is
deleted on the way. -/
theorem Dict.Inv.iterateNext (inv : d.Inv) (live : d.iterators ≠ 0) (drop : CStr → Bool)
    (distinct : (left.map DictEntry.key).Nodup) (position : d.Position it left) :
    ∃ d', XFireDB.iterateNext drop (left.length + 1) d it = some (d', left.map DictEntry.key) ∧
      d'.Inv ∧ d'.toMap = d.toMap.without drop (left.map DictEntry.key) := by
  induction left generalizing d it with
  | nil =>
      obtain ⟨it', ran, _⟩ := inv.iteratorNext position
      refine ⟨d, ?_, inv, ?_⟩
      · rw [XFireDB.iterateNext, ran]
        rfl
      · funext k
        simp [DictSpec.without]
  | cons e left ih =>
      obtain ⟨it', ran, behind⟩ := inv.iteratorNext position
      rw [List.map_cons, List.nodup_cons] at distinct
      rw [List.length_cons, XFireDB.iterateNext, ran]
      simp only [List.head?_cons, Option.map_some, Option.bind_eq_bind, Option.bind_some]
      cases selected : drop e.key with
      | false =>
          obtain ⟨d', rest, inv', mapEq⟩ := ih inv live distinct.2 behind
          refine ⟨d', ?_, inv', ?_⟩
          · rw [if_neg Bool.false_ne_true, rest]
            rfl
          · rw [mapEq, List.map_cons, DictSpec.without_keep selected]
      | true =>
          obtain ⟨d₁, deleted, inv₁, mapEq₁⟩ := inv.dictDelete e.key
          have keep : ∀ x ∈ left, x.key ≠ e.key := by
            intro x member same
            exact distinct.1 (same ▸ List.mem_map_of_mem member)
          obtain ⟨position₁, iterators⟩ := behind.delete live keep deleted
          obtain ⟨d', rest, inv', mapEq⟩ :=
            ih inv₁ (iterators.symm ▸ live) distinct.2 position₁
          refine ⟨d', ?_, inv', ?_⟩
          · rw [if_pos rfl, deleted, Option.map_some, Option.bind_some, rest]
            rfl
          · rw [mapEq, mapEq₁, List.map_cons, DictSpec.without_drop selected]

/-- A backward iteration returns the entries left in their order. -/
theorem Dict.Inv.iteratePrev (inv : d.Inv) (position : d.BackPosition it left) :
    XFireDB.iteratePrev d (left.length + 1) it = some (left.map DictEntry.key) := by
  induction left generalizing it with
  | nil =>
      obtain ⟨it', ran, _⟩ := inv.iteratorPrev position
      rw [XFireDB.iteratePrev, ran]
      rfl
  | cons e left ih =>
      obtain ⟨it', ran, behind⟩ := inv.iteratorPrev position
      have rest := ih (behind (List.cons_ne_nil e left))
      rw [List.length_cons, XFireDB.iteratePrev, ran]
      simp only [List.head?_cons, Option.map_some, Option.bind_eq_bind, Option.bind_some, rest,
        List.map_cons]

/-- Where a fresh backward iterator stands. -/
theorem Dict.Inv.backPosition_start (inv : d.Inv) :
    d.BackPosition dictCreateIterator (d.primary.entries.reverse ++ d.rehash.entries.reverse) := by
  refine ⟨le_refl _, ?_, ?_⟩
  · show (-1 : Int) ≤ _
    omega
  · exact (inv.before_size 0).symm

/-- From every reachable state, a forward iteration comes to its end after
`dict_get_size` entries, each returned once, whichever of them are deleted
before the next call; if all are, the dictionary is empty.  A backward iteration
without deletions does the same. -/
theorem iterations_exhaust (reached : Reachable (rawDictStep g) dictAlloc d) (drop : CStr → Bool) :
    (∃ d' keys, iterateNext drop ((dictGetSize d).toNat + 1) (dictGetSafeIterator d)
        dictCreateIterator = some (d', keys) ∧ d.EachOnce keys ∧
      (∀ key, d'.Has key ↔ d.Has key ∧ drop key = false) ∧
      ((∀ key, drop key = true) → d'.entries = [])) ∧
    ∃ keys, iteratePrev d ((dictGetSize d).toNat + 1) dictCreateIterator = some keys ∧
      d.EachOnce keys := by
  have sound := Dict.sound_of_reachable reached
  have inv := sound.inv
  have size : (dictGetSize d).toNat = d.entries.length := by
    rw [inv.represented.size_eq, List.length_map, Int.toNat_natCast]
  rw [size]
  constructor
  · have live : (dictGetSafeIterator d).iterators ≠ 0 := by
      have := sound.count
      simp only [dictGetSafeIterator]
      omega
    obtain ⟨d', ran, inv', mapEq⟩ := (inv.with_iterators (d.iterators + 1)).iterateNext live drop
      inv.distinct (Iteration.Inv.start inv sound.count).position
    have kept : ∀ key, d'.Has key ↔ d.Has key ∧ drop key = false := by
      intro key
      have same : d'.toMap key = d.toMap.without drop (d.entries.map DictEntry.key) key :=
        congrFun mapEq key
      rw [Dict.has_iff, same, DictSpec.without]
      by_cases has : d.Has key
      · have member := Dict.mem_keys.mpr has
        cases selected : drop key with
        | true => simp [member]
        | false => simpa [has] using Dict.has_iff.mp has
      · have unbound : d.toMap key = none := by
          by_contra bound
          exact has (Dict.has_iff.mpr bound)
        simp [unbound, has]
    refine ⟨d', _, ran, inv.eachOnce (List.Perm.refl _), kept, ?_⟩
    intro all
    apply List.eq_nil_iff_forall_not_mem.mpr
    intro e member
    have left := (kept e.key).mp ⟨e, member, rfl⟩
    rw [all] at left
    exact absurd left.2 Bool.true_eq_false.mp
  · have position := inv.backPosition_start
    have perm : (d.primary.entries.reverse ++ d.rehash.entries.reverse).Perm d.entries :=
      (List.reverse_perm _).append (List.reverse_perm _)
    refine ⟨_, ?_, inv.eachOnce (perm.map DictEntry.key)⟩
    rw [← perm.length_eq]
    exact inv.iteratePrev position

/-- With the chain `f`, `i`, `a` and a rehash under way, deleting every returned
entry empties the dictionary. -/
theorem iterations_exhaust_chainRun :
    ∃ d d' keys, runEvents (rawDictStep .initial) dictAlloc (Iteration.chainRun.map .event) =
        some d ∧ d.rehashing = true ∧
      iterateNext (fun _ => true) 6 (dictGetSafeIterator d) dictCreateIterator = some (d', keys) ∧
      d.EachOnce keys ∧ d'.entries = [] := by
  obtain ⟨d, reached, busy⟩ : ∃ d, runEvents (rawDictStep .initial) dictAlloc
      (Iteration.chainRun.map .event) = some d ∧ d.rehashing = true ∧ dictGetSize d = 5 :=
    ⟨_, rfl, rfl, rfl⟩
  obtain ⟨⟨d', keys, ran, once, _, empty⟩, _⟩ :=
    iterations_exhaust (Reachable.of_runEvents _ reached) fun _ => true
  rw [busy.2] at ran
  exact ⟨d, d', keys, reached, busy.1, ran, once, empty fun _ => rfl⟩

end XFireDB
