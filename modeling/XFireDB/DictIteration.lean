import XFireDB.DictRuns

/-!
# Iterating over a dictionary

A safe iterator walks the buckets of the primary table and then, during a
rehash, those of the second table, while lookups, deletions of returned entries
and the rehash worker run in between.  The live iterator suppresses the
foreground rehash steps; the worker does not look at it.

An entry pointer is the key of the entry, since keys are distinct.  Reading
through a pointer to a freed entry has no result.
-/

namespace XFireDB

open Lib

/-! ## The iterator -/

/-- `struct dict_iterator`; a null entry pointer is `none`. -/
structure DictIterator where
  table : Nat
  idx : Int
  e : Option CStr
  eNext : Option CStr
deriving DecidableEq

/-- `dict_create_iterator`. -/
def dictCreateIterator : DictIterator := ⟨0, -1, none, none⟩

/-- `d->map[table]`. -/
def Dict.map (d : Dict) (table : Nat) : DictMap := if table = 0 then d.primary else d.rehash

/-- A pointer to the first entry of a chain. -/
def chainHead (chain : List DictEntry) : Option CStr := chain.head?.map DictEntry.key

/-- `e->next` for the entry with this key in a chain. -/
def chainNext (key : CStr) : List DictEntry → Option (Option CStr)
  | [] => none
  | e :: es => if e.key = key then some (chainHead es) else chainNext key es

/-- `e->next` for the entry with this key, in whichever table it is linked. -/
def Dict.entryNext (d : Dict) (key : CStr) : Option (Option CStr) :=
  match (d.primary.chain key).bind (chainNext key) with
  | some next => some next
  | none => (d.rehash.chain key).bind (chainNext key)

/-- The first half of the loop body of `dict_iterator_next`: the next value of
`it->e`, or the `break`. -/
def dictIteratorAdvance (d : Dict) (it : DictIterator) : Option (DictIterator × Bool) :=
  match it.e with
  | some _ => some ({ it with e := it.eNext }, false)
  | none =>
      let idx := it.idx + 1
      if ((d.map it.table).size : Int) ≤ idx then
        if d.rehashing ∧ it.table = 0 then do
          let chain ← d.rehash.bucket 0
          some ({ it with table := 1, idx := 0, e := chainHead chain }, false)
        else some ({ it with idx := idx }, true)
      else do
        let chain ← (d.map it.table).bucket idx.toNat
        some ({ it with idx := idx, e := chainHead chain }, false)

/-- The loop of `dict_iterator_next`, with the entry it returns. -/
def dictIteratorLoop (d : Dict) : Nat → DictIterator → Option (DictIterator × Option CStr)
  | 0, _ => none
  | fuel + 1, it => do
      let (it, left) ← dictIteratorAdvance d it
      if left then some (it, none)
      else
        match it.e with
        | some key =>
            let next ← d.entryNext key
            some ({ it with eNext := next }, some key)
        | none => dictIteratorLoop d fuel it

/-- `dict_iterator_next`.  The loop takes at most a round for each bucket and
two more. -/
def dictIteratorNext (d : Dict) (it : DictIterator) : Option (DictIterator × Option CStr) :=
  dictIteratorLoop d (d.primary.size + d.rehash.size + 2) it

/-! ## The position of an iterator -/

/-- The entries in the buckets from `n` on of a table, and those of the second
table behind the first. -/
def Dict.after (d : Dict) (table n : Nat) : List DictEntry :=
  (((d.map table).array.getD []).drop n).flatten ++ if table = 0 then d.rehash.entries else []

/-- The entries an iterator has still to return: what is left of the chain it
is in, and the buckets behind it. -/
def Dict.Position (d : Dict) (it : DictIterator) (left : List DictEntry) : Prop :=
  match it.e with
  | none => -1 ≤ it.idx ∧ left = d.after it.table (it.idx + 1).toNat
  | some _ => 0 ≤ it.idx ∧ ∃ pre suf, (d.map it.table).bucket it.idx.toNat = some (pre ++ suf) ∧
      it.eNext = chainHead suf ∧ left = suf ++ d.after it.table (it.idx + 1).toNat

variable {d d' : Dict} {it : DictIterator} {left : List DictEntry}

theorem DictMap.bucket_eq_getElem? (m : DictMap) (i : Nat) :
    m.bucket i = (m.array.getD [])[i]? := by
  rw [DictMap.bucket]
  cases m.array with
  | none => rfl
  | some a => rfl

theorem Dict.Inv.map_represented (inv : d.Inv) (table : Nat) : (d.map table).Represented := by
  rw [Dict.map]
  split
  · exact inv.primary_represented
  · exact inv.rehash_represented

/-- A bucket inside the table is read, and the entries from there on are its
chain and the rest. -/
theorem Dict.Inv.after_of_lt (inv : d.Inv) (table n : Nat) (inside : n < (d.map table).size) :
    ∃ chain, (d.map table).bucket n = some chain ∧
      d.after table n = chain ++ d.after table (n + 1) := by
  rw [← (inv.map_represented table).buckets] at inside
  refine ⟨((d.map table).array.getD []).get ⟨n, inside⟩, ?_, ?_⟩
  · rw [DictMap.bucket_eq_getElem?]
    simp [inside]
  · rw [Dict.after, Dict.after, List.drop_eq_getElem_cons inside, List.flatten_cons,
      List.append_assoc]
    rfl

/-- Behind the last bucket there is only the second table. -/
theorem Dict.Inv.after_of_le (inv : d.Inv) (table n : Nat) (outside : (d.map table).size ≤ n) :
    d.after table n = if table = 0 then d.rehash.entries else [] := by
  rw [← (inv.map_represented table).buckets] at outside
  rw [Dict.after, List.drop_of_length_le outside, List.flatten_nil, List.nil_append]

theorem Dict.after_rehash (d : Dict) : d.after 1 0 = d.rehash.entries := by
  rw [Dict.after, List.drop_zero, if_neg (by decide), List.append_nil]
  rfl

theorem Dict.after_start (d : Dict) : d.after 0 0 = d.entries := by
  rw [Dict.after, List.drop_zero, if_pos rfl]
  rfl

/-! ## Reading through an entry pointer -/

theorem chainNext_middle {key : CStr} {pre suf : List DictEntry} {e : DictEntry}
    (keyEq : e.key = key) (early : ∀ x ∈ pre, x.key ≠ key) :
    chainNext key (pre ++ e :: suf) = some (chainHead suf) := by
  induction pre with
  | nil => exact if_pos keyEq
  | cons x pre ih =>
      rw [List.cons_append, chainNext, if_neg (early x List.mem_cons_self)]
      exact ih fun y member => early y (List.mem_cons_of_mem _ member)

theorem chainNext_absent {key : CStr} {chain : List DictEntry} (absent : ∀ x ∈ chain, x.key ≠ key) :
    chainNext key chain = none := by
  induction chain with
  | nil => rfl
  | cons x chain ih =>
      rw [chainNext, if_neg (absent x List.mem_cons_self)]
      exact ih fun y member => absent y (List.mem_cons_of_mem _ member)

theorem DictMap.bucket_sublist {m : DictMap} {i : Nat} {chain : List DictEntry}
    (here : m.bucket i = some chain) : chain.Sublist m.entries := by
  rw [DictMap.bucket_eq_getElem?] at here
  exact List.sublist_flatten_of_mem (List.mem_of_getElem? here)

theorem Dict.map_sublist (d : Dict) (table : Nat) : (d.map table).entries.Sublist d.entries := by
  rw [Dict.map]
  split
  · exact List.sublist_append_left _ _
  · exact List.sublist_append_right _ _

/-- The keys of a chain are distinct. -/
theorem Dict.Inv.chain_distinct (inv : d.Inv) {table i : Nat} {chain : List DictEntry}
    (here : (d.map table).bucket i = some chain) : (chain.map DictEntry.key).Nodup :=
  List.Nodup.sublist
    (((DictMap.bucket_sublist here).trans (d.map_sublist table)).map DictEntry.key) inv.distinct

/-- A key of the second table is not in the first. -/
theorem Dict.Inv.primary_ne_of_rehash (inv : d.Inv) {e x : DictEntry}
    (member : e ∈ d.rehash.entries)
    (other : x ∈ d.primary.entries) : x.key ≠ e.key := by
  have distinct := inv.distinct
  rw [Dict.entries, List.map_append, List.nodup_append] at distinct
  exact distinct.2.2 _ (List.mem_map_of_mem other) _ (List.mem_map_of_mem member)

/-- The successor of a linked entry is the next one of its chain. -/
theorem Dict.Inv.entryNext (inv : d.Inv) {table i : Nat} {pre suf : List DictEntry} {e : DictEntry}
    (here : (d.map table).bucket i = some (pre ++ e :: suf)) :
    d.entryNext e.key = some (chainHead suf) := by
  have distinct := inv.chain_distinct here
  have early : ∀ x ∈ pre, x.key ≠ e.key := by
    intro x member
    rw [List.map_append, List.nodup_append] at distinct
    exact distinct.2.2 _ (List.mem_map_of_mem member) _ (by simp)
  have home : (d.map table).index e.key = i :=
    (inv.map_represented table).home i _ here e (by simp)
  have found : ((d.map table).chain e.key).bind (chainNext e.key) = some (chainHead suf) := by
    rw [DictMap.chain, home, here, Option.bind_some, chainNext_middle rfl early]
  rw [Dict.entryNext]
  by_cases first : table = 0
  · rw [Dict.map, if_pos first] at found
    rw [found]
  · rw [Dict.map, if_neg first] at found here
    have member : e ∈ d.rehash.entries := (DictMap.bucket_sublist here).subset (by simp)
    have missing : (d.primary.chain e.key).bind (chainNext e.key) = none := by
      rcases read : d.primary.chain e.key with - | chain
      · rfl
      · apply chainNext_absent
        intro x inside
        exact inv.primary_ne_of_rehash member ((DictMap.bucket_sublist read).subset inside)
    rw [missing]
    exact found

/-! ## One call of `dict_iterator_next` -/

/-- The rounds the loop still needs. -/
def Dict.rounds (d : Dict) (it : DictIterator) : Nat :=
  (if it.e = none then 0 else 1) + ((d.map it.table).size - (it.idx + 1).toNat) +
    (if it.table = 0 then d.rehash.size else 0) + 1

/-- A position between two chains. -/
theorem Dict.Position.of_none (it : DictIterator) (free : it.e = none) (low : -1 ≤ it.idx) :
    d.Position it (d.after it.table (it.idx + 1).toNat) := by
  rw [Dict.Position, free]
  exact ⟨low, rfl⟩

/-- A position in a chain. -/
theorem Dict.Position.of_some (it : DictIterator) {key : CStr} (here : it.e = some key)
    (low : 0 ≤ it.idx) {pre suf : List DictEntry}
    (read : (d.map it.table).bucket it.idx.toNat = some (pre ++ suf))
    (next : it.eNext = chainHead suf) :
    d.Position it (suf ++ d.after it.table (it.idx + 1).toNat) := by
  rw [Dict.Position, here]
  exact ⟨low, pre, suf, read, next, rfl⟩

/-- What the first half of the loop body can do at a position: break with
nothing left, reach the next entry, or go on behind an empty bucket or the end
of a chain. -/
inductive Dict.Advanced (d : Dict) (it : DictIterator) : List DictEntry → Prop
  | broke {it' : DictIterator} (ran : dictIteratorAdvance d it = some (it', true))
      (position : d.Position it' []) : d.Advanced it []
  | reached {it' : DictIterator} {e : DictEntry} {pre suf : List DictEntry}
      (ran : dictIteratorAdvance d it = some (it', false)) (here : it'.e = some e.key)
      (low : 0 ≤ it'.idx)
      (read : (d.map it'.table).bucket it'.idx.toNat = some (pre ++ e :: suf)) :
      d.Advanced it (e :: suf ++ d.after it'.table (it'.idx + 1).toNat)
  | passed {it' : DictIterator} {left : List DictEntry}
      (ran : dictIteratorAdvance d it = some (it', false)) (free : it'.e = none)
      (position : d.Position it' left) (closer : d.rounds it' < d.rounds it) : d.Advanced it left

/-- The iterator enters a bucket. -/
theorem Dict.Advanced.enter {table : Nat} {idx : Int} {eNext : Option CStr}
    {chain : List DictEntry} (low : 0 ≤ idx) (read : (d.map table).bucket idx.toNat = some chain)
    (ran : dictIteratorAdvance d it = some (⟨table, idx, chainHead chain, eNext⟩, false))
    (closer : d.rounds ⟨table, idx, none, eNext⟩ < d.rounds it) :
    d.Advanced it (chain ++ d.after table (idx + 1).toNat) := by
  rcases chain with - | ⟨e, suf⟩
  · have position : d.Position ⟨table, idx, none, eNext⟩ (d.after table (idx + 1).toNat) :=
      Dict.Position.of_none _ rfl (by simp only; omega)
    exact .passed ran rfl position closer
  · have first : (d.map table).bucket idx.toNat = some ([] ++ e :: suf) := read
    exact .reached ran rfl low first

theorem Dict.Inv.advanced (inv : d.Inv) (position : d.Position it left) :
    d.Advanced it left := by
  rcases it with ⟨table, idx, e, eNext⟩
  cases e with
  | some key =>
      obtain ⟨low, pre, suf, here, next, rfl⟩ := position
      simp only at low here next
      rcases suf with - | ⟨e, suf⟩
      · obtain rfl : eNext = none := next
        have behind : d.Position ⟨table, idx, none, none⟩ (d.after table (idx + 1).toNat) :=
          Dict.Position.of_none _ rfl (by simp only; omega)
        refine .passed rfl rfl behind ?_
        simp only [Dict.rounds, reduceCtorEq, if_true, if_false]
        omega
      · have ran : dictIteratorAdvance d ⟨table, idx, some key, eNext⟩ =
            some (⟨table, idx, eNext, eNext⟩, false) := rfl
        have reached := Dict.Advanced.reached ran next low here
        exact reached
  | none =>
      obtain ⟨low, rfl⟩ := position
      simp only at low ⊢
      have step : (idx + 1 + 1).toNat = (idx + 1).toNat + 1 := by omega
      by_cases outside : ((d.map table).size : Int) ≤ idx + 1
      · rw [inv.after_of_le table _ (by omega)]
        by_cases second : d.rehashing = true ∧ table = 0
        · -- the iterator goes over to the second table
          obtain ⟨on, rfl⟩ := second
          obtain ⟨a, b, run⟩ := inv.busy on
          have four := run.rehash.size_ge
          obtain ⟨chain, read, split⟩ := inv.after_of_lt 1 0 (lt_of_lt_of_le (by decide) four)
          have ran : dictIteratorAdvance d ⟨0, idx, none, eNext⟩ =
              some (⟨1, 0, chainHead chain, eNext⟩, false) := by
            rw [dictIteratorAdvance]
            simp only [if_pos outside, on, and_self, if_true]
            rw [show d.rehash.bucket 0 = some chain from read]
            rfl
          rw [if_pos rfl, ← d.after_rehash, split]
          refine Dict.Advanced.enter (by decide) read ran ?_
          simp only [Dict.rounds, if_true, Nat.one_ne_zero, if_false, Dict.map]
          omega
        · have nothing : (if table = 0 then d.rehash.entries else []) = [] := by
            split
            · rename_i first
              have off : d.rehashing = false := by
                rcases on : d.rehashing with - | -
                · rfl
                · exact absurd ⟨on, first⟩ second
              rw [(inv.idle off).1]
              rfl
            · rfl
          rw [nothing]
          have behind : d.Position ⟨table, idx + 1, none, eNext⟩ [] := by
            rw [← nothing, ← inv.after_of_le table (idx + 1 + 1).toNat (by omega)]
            exact Dict.Position.of_none _ rfl (by simp only; omega)
          refine .broke ?_ behind
          rw [dictIteratorAdvance]
          simp only [if_pos outside, if_neg second]
      · obtain ⟨chain, read, split⟩ := inv.after_of_lt table (idx + 1).toNat (by omega)
        have ran : dictIteratorAdvance d ⟨table, idx, none, eNext⟩ =
            some (⟨table, idx + 1, chainHead chain, eNext⟩, false) := by
          rw [dictIteratorAdvance]
          simp only [if_neg outside, read]
          rfl
        rw [split, ← step]
        refine Dict.Advanced.enter (by omega) read ran ?_
        simp only [Dict.rounds, step]
        omega

/-- With enough rounds the loop returns the first entry left, or null if there
is none. -/
theorem Dict.Inv.iteratorLoop (inv : d.Inv) {fuel : Nat} (position : d.Position it left)
    (enough : d.rounds it ≤ fuel) :
    ∃ it', dictIteratorLoop d fuel it = some (it', left.head?.map DictEntry.key) ∧
      d.Position it' left.tail := by
  induction fuel generalizing it with
  | zero =>
      rw [Dict.rounds] at enough
      omega
  | succ fuel ih =>
      rw [dictIteratorLoop]
      cases inv.advanced position with
      | @broke it' ran behind =>
          rw [ran]
          exact ⟨it', rfl, behind⟩
      | @reached it' e pre suf ran here low read =>
          have next := inv.entryNext read
          refine ⟨{ it' with eNext := chainHead suf }, ?_, ?_⟩
          · rw [ran]
            simp only [Option.bind_eq_bind, Option.bind_some, Bool.false_eq_true, if_false, here,
              next]
            rfl
          · have inside : (d.map it'.table).bucket it'.idx.toNat = some ((pre ++ [e]) ++ suf) := by
              rw [read, List.append_assoc, List.singleton_append]
            exact Dict.Position.of_some { it' with eNext := chainHead suf } here low inside rfl
      | @passed it' _ ran free behind closer =>
          rw [ran]
          simp only [Option.bind_eq_bind, Option.bind_some, Bool.false_eq_true, if_false, free]
          exact ih behind (by omega)

/-- The call returns the first entry left, or null if there is none. -/
theorem Dict.Inv.iteratorNext (inv : d.Inv) (position : d.Position it left) :
    ∃ it', dictIteratorNext d it = some (it', left.head?.map DictEntry.key) ∧
      d.Position it' left.tail := by
  apply inv.iteratorLoop position
  rw [Dict.rounds, Dict.map]
  split <;> split <;> omega

/-! ## Deleting a returned entry -/

/-- The foreground step is suppressed by a live iterator. -/
theorem dictForeground_of_iterators (live : d.iterators ≠ 0) : dictForeground d = some d := by
  rw [dictForeground, dictRehashStep, if_neg live]
  split
  · rfl
  · rfl

/-- Unlinking from the front of a chain leaves the rest of it. -/
theorem chainUnlink_append {key : CStr} {pre suf rest : List DictEntry} {e : DictEntry}
    (split : chainUnlink key (pre ++ suf) = some (e, rest)) (late : ∀ x ∈ suf, x.key ≠ key) :
    ∃ pre', rest = pre' ++ suf := by
  induction pre generalizing rest with
  | nil =>
      obtain ⟨keyEq, perm⟩ := chainUnlink_some split
      exact absurd keyEq (late e (perm.mem_iff.mpr List.mem_cons_self))
  | cons x pre ih =>
      rw [List.cons_append, chainUnlink] at split
      by_cases same : x.key = key
      · rw [if_pos same] at split
        cases split
        exact ⟨pre, rfl⟩
      · rw [if_neg same, Option.map_eq_some_iff] at split
        obtain ⟨⟨y, rest'⟩, inner, pair⟩ := split
        cases pair
        obtain ⟨pre', rfl⟩ := ih inner
        exact ⟨x :: pre', rfl⟩

/-- What unlinking does to the buckets. -/
theorem DictMap.unlink_buckets {m m' : DictMap} {key : CStr} {e : DictEntry}
    (unlinked : m.unlink key = some (m', some e)) :
    ∃ chain rest, m.bucket (m.index key) = some chain ∧ chainUnlink key chain = some (e, rest) ∧
      m'.array.getD [] = (m.array.getD []).set (m.index key) rest := by
  rw [DictMap.unlink, DictMap.chain] at unlinked
  rcases read : m.bucket (m.index key) with - | chain
  · rw [read] at unlinked
    cases unlinked
  · rw [read, Option.bind_eq_bind, Option.bind_some] at unlinked
    rcases split : chainUnlink key chain with - | ⟨x, rest⟩
    · rw [split] at unlinked
      cases unlinked
    · rw [split] at unlinked
      cases unlinked
      refine ⟨chain, rest, rfl, split, ?_⟩
      rw [DictMap.setBucket]
      cases m.array with
      | none => rfl
      | some a => rfl

/-- A position only looks at the table it is in and, from the first, at the
entries of the second. -/
theorem Dict.Position.of_after (position : d.Position it left)
    (after : d'.after it.table (it.idx + 1).toNat = d.after it.table (it.idx + 1).toNat)
    (bucket : ∀ pre suf, (d.map it.table).bucket it.idx.toNat = some (pre ++ suf) →
      (∀ x ∈ suf, x ∈ left) → ∃ pre', (d'.map it.table).bucket it.idx.toNat = some (pre' ++ suf)) :
    d'.Position it left := by
  rw [Dict.Position] at position ⊢
  cases here : it.e with
  | none =>
      simp only [here] at position ⊢
      rwa [after]
  | some key =>
      simp only [here] at position ⊢
      obtain ⟨low, pre, suf, read, next, rfl⟩ := position
      obtain ⟨pre', read'⟩ := bucket pre suf read fun x member => List.mem_append_left _ member
      exact ⟨low, pre', suf, read', next, by rw [after]⟩

/-- The entries behind the iterator's bucket are left. -/
theorem Dict.Position.after_subset (position : d.Position it left) :
    d.after it.table (it.idx + 1).toNat ⊆ left := by
  rw [Dict.Position] at position
  cases here : it.e with
  | none =>
      simp only [here] at position
      rw [position.2]
      exact List.Subset.refl _
  | some key =>
      simp only [here] at position
      obtain ⟨_, _, suf, _, _, rfl⟩ := position
      exact List.subset_append_right _ _

/-- Unlinking an entry that is not left from the iterator's own table. -/
theorem Dict.Position.unlink (position : d.Position it left) {key : CStr}
    (keep : ∀ x ∈ left, x.key ≠ key) {m : DictMap} {e : DictEntry}
    (unlinked : (d.map it.table).unlink key = some (m, some e)) (own : d'.map it.table = m)
    (tail : it.table = 0 → d'.rehash.entries = d.rehash.entries) : d'.Position it left := by
  obtain ⟨chain, rest, read, split, array⟩ := DictMap.unlink_buckets unlinked
  obtain ⟨keyEq, perm⟩ := chainUnlink_some split
  have inChain : e ∈ chain := perm.mem_iff.mpr List.mem_cons_self
  have tails : (if it.table = 0 then d'.rehash.entries else []) =
      if it.table = 0 then d.rehash.entries else [] := by
    split
    · rename_i first
      exact tail first
    · rfl
  -- the entry is in a bucket the iterator has reached
  have early : (d.map it.table).index key < (it.idx + 1).toNat := by
    by_contra late
    refine keep e (position.after_subset (List.mem_append_left _ ?_)) keyEq
    rw [DictMap.bucket_eq_getElem?] at read
    refine List.mem_flatten.mpr ⟨chain, ?_, inChain⟩
    rw [List.mem_iff_getElem?]
    refine ⟨(d.map it.table).index key - (it.idx + 1).toNat, ?_⟩
    rw [List.getElem?_drop, Nat.add_sub_cancel' (Nat.le_of_not_lt late), read]
  refine position.of_after ?_ ?_
  · rw [Dict.after, Dict.after, own, array, List.drop_set_of_lt early, tails]
  · intro pre suf here inside
    rw [DictMap.bucket_eq_getElem?, own, array]
    by_cases same : (d.map it.table).index key = it.idx.toNat
    · rw [same] at read ⊢
      obtain rfl : pre ++ suf = chain := Option.some.inj (here.symm.trans read)
      obtain ⟨pre', rfl⟩ := chainUnlink_append split fun x member => keep x (inside x member)
      rw [DictMap.bucket_eq_getElem?] at read
      have bound := (List.getElem?_eq_some_iff.mp read).1
      exact ⟨pre', List.getElem?_set_self bound⟩
    · rw [List.getElem?_set_ne same, ← DictMap.bucket_eq_getElem?]
      exact ⟨pre, here⟩

theorem DictMap.unlink_absent {m m' : DictMap} {key : CStr}
    (unlinked : m.unlink key = some (m', none)) : m' = m := by
  rw [DictMap.unlink] at unlinked
  rcases read : m.chain key with - | chain
  · rw [read] at unlinked
    cases unlinked
  · rw [read, Option.bind_eq_bind, Option.bind_some] at unlinked
    rcases split : chainUnlink key chain with - | ⟨x, rest⟩
    · rw [split] at unlinked
      cases unlinked
      rfl
    · rw [split] at unlinked
      cases unlinked

theorem Dict.Position.unlink_primary (position : d.Position it left) {key : CStr}
    (keep : ∀ x ∈ left, x.key ≠ key) {m : DictMap} {e : DictEntry}
    (unlinked : d.primary.unlink key = some (m, some e)) :
    Dict.Position { d with primary := m } it left := by
  by_cases first : it.table = 0
  · have own : Dict.map { d with primary := m } it.table = m := if_pos first
    have before : d.map it.table = d.primary := if_pos first
    exact position.unlink keep (before ▸ unlinked) own fun _ => rfl
  · have same : Dict.map { d with primary := m } it.table = d.map it.table := by
      rw [Dict.map, Dict.map, if_neg first, if_neg first]
    refine position.of_after ?_ ?_
    · rw [Dict.after, Dict.after, same, if_neg first]
    · intro pre suf here _
      exact ⟨pre, same ▸ here⟩

theorem Dict.Position.unlink_rehash (position : d.Position it left) {key : CStr}
    (keep : ∀ x ∈ left, x.key ≠ key) {m : DictMap} {e : DictEntry}
    (unlinked : d.rehash.unlink key = some (m, some e)) :
    Dict.Position { d with rehash := m } it left := by
  by_cases first : it.table = 0
  · -- from the first table on, every entry of the second is left
    obtain ⟨chain, rest, read, split, _⟩ := DictMap.unlink_buckets unlinked
    obtain ⟨keyEq, perm⟩ := chainUnlink_some split
    have member : e ∈ d.rehash.entries :=
      (DictMap.bucket_sublist read).subset (perm.mem_iff.mpr List.mem_cons_self)
    refine absurd keyEq (keep e (position.after_subset ?_))
    rw [Dict.after, if_pos first]
    exact List.mem_append_right _ member
  · have own : Dict.map { d with rehash := m } it.table = m := if_neg first
    have before : d.map it.table = d.rehash := if_neg first
    exact position.unlink keep (before ▸ unlinked) own fun zero => absurd zero first

/-- Deleting a key that is not left does not move a live iterator. -/
theorem Dict.Position.delete (position : d.Position it left) (live : d.iterators ≠ 0) {key : CStr}
    (keep : ∀ x ∈ left, x.key ≠ key) {v : Option UInt64} (ran : dictDelete d key = some (d', v)) :
    d'.Position it left ∧ d'.iterators = d.iterators := by
  rw [dictDelete, dictUnlink, dictForeground_of_iterators live] at ran
  simp only [Option.bind_eq_bind, Option.bind_some] at ran
  by_cases unallocated : d.primary.size = 0
  · rw [if_pos unallocated] at ran
    cases ran
    exact ⟨position, rfl⟩
  · rw [if_neg unallocated] at ran
    rcases unlinked : d.primary.unlink key with - | ⟨m, - | e⟩
    · rw [unlinked] at ran
      cases ran
    · simp only [unlinked, Option.bind_some] at ran
      by_cases on : d.rehashing = true
      · rw [if_pos on] at ran
        rcases unlinked' : d.rehash.unlink key with - | ⟨m', - | e⟩
        · rw [unlinked'] at ran
          cases ran
        · rw [unlinked'] at ran
          cases ran
          rw [DictMap.unlink_absent unlinked']
          exact ⟨position, rfl⟩
        · rw [unlinked'] at ran
          cases ran
          exact ⟨position.unlink_rehash keep unlinked', rfl⟩
      · rw [if_neg on] at ran
        cases ran
        exact ⟨position, rfl⟩
    · rw [unlinked] at ran
      cases ran
      exact ⟨position.unlink_primary keep unlinked, rfl⟩

/-! ## The rehash worker -/

/-- `dict_rehash_ms`, which the worker runs under the lock: the first call of
`dict_rehash` and up to `more` further ones, until the time is up. -/
def dictRehashMs : Nat → Dict → Option Dict
  | 0, d => (dictRehash d 100).map Prod.fst
  | more + 1, d => do
      let (d, r) ← dictRehash d 100
      if r = 0 then some d else dictRehashMs more d

/-- No entry of the primary table is in a bucket that the worker reaches, 1000
of them in each call. -/
def Dict.Still (d : Dict) (calls : Nat) : Prop :=
  d.rehashing = true →
    ∀ e ∈ d.primary.entries, d.rehashidx + 1000 * calls ≤ (d.primary.index e.key : Int)

/-- Over enough empty buckets the scan uses up its budget. -/
theorem rehashScan_empty {bs : List (List DictEntry)} (idx : Int) {visits : Nat}
    (some_visits : 0 < visits) (empty : ∀ i < visits, bs[i]? = some []) :
    rehashScan bs idx visits = some (.stop (idx + visits)) := by
  induction visits generalizing bs idx with
  | zero => omega
  | succ visits ih =>
      rcases bs with - | ⟨c, bs⟩
      · have first := empty 0 (by omega)
        cases first
      · obtain rfl : c = [] := Option.some.inj (empty 0 (by omega))
        rw [rehashScan]
        by_cases last : visits = 0
        · subst last
          rfl
        · rw [if_neg (by push_cast; omega)]
          have rest := ih (idx + 1) (by omega) fun i bound => empty (i + 1) (by omega)
          rw [show ((visits + 1 : Nat) : Int) - 1 = visits by push_cast; omega, rest]
          congr 2
          push_cast
          ring

/-- The buckets below the first entry are empty. -/
theorem DictMap.Table.empty_below {m : DictMap} {a : List (List DictEntry)} (t : m.Table a)
    {n : Int} (late : ∀ e ∈ m.entries, n ≤ (m.index e.key : Int)) {i : Nat} (inside : i < a.length)
    (early : (i : Int) < n) : a[i]? = some [] := by
  have here : a[i]? = some (a.get ⟨i, inside⟩) := by simp [inside]
  rw [here]
  congr 1
  apply List.eq_nil_iff_forall_not_mem.mpr
  intro e member
  have home := t.home i _ here e member
  have := late e (by
    rw [t.entries_eq]
    exact List.mem_flatten.mpr ⟨_, List.mem_of_getElem? here, member⟩)
  omega

/-- A call that reaches no entry moves `rehashidx` at most. -/
theorem Dict.Inv.rehash_still (inv : d.Inv) {calls : Nat} (still : d.Still (calls + 1)) :
    ∃ i r, XFireDB.dictRehash d 100 = some ({ d with rehashidx := i }, r) ∧
      Dict.Still { d with rehashidx := i } calls := by
  rw [XFireDB.dictRehash]
  by_cases on : d.rehashing = true
  · rw [if_pos on, XFireDB.rehashLoop]
    by_cases pos : 0 < d.primary.length
    · obtain ⟨a, b, run⟩ := inv.busy on
      obtain ⟨inside, _⟩ := run.some_left pos
      have start := run.idx_nonneg
      have late := still on
      -- some entry is behind the buckets of this call, so they are in the array
      obtain ⟨e, member⟩ : ∃ e, e ∈ d.primary.entries := by
        apply List.exists_mem_of_ne_nil
        intro none_left
        have counter := run.primary.length_eq
        rw [← run.primary.entries_eq, none_left] at counter
        simp at counter
        omega
      have last := run.primary.index_lt e.key
      have behind := late e member
      push_cast at behind
      have empty : ∀ i < 1000, (a.drop d.rehashidx.toNat)[i]? = some [] := by
        intro i bound
        rw [List.getElem?_drop]
        exact run.primary.empty_below late (by omega) (by push_cast; omega)
      have scan := rehashScan_empty d.rehashidx (by decide) empty
      rw [if_pos pos, if_neg (by omega), run.primary.array_eq, Option.bind_eq_bind,
        Option.bind_some, show ((100 : Nat) : Int) * 10 = ((1000 : Nat) : Int) by norm_num, scan]
      refine ⟨d.rehashidx + 1000, 1, rfl, ?_⟩
      intro _ x other
      have := late x other
      push_cast at this
      change d.rehashidx + 1000 + 1000 * (calls : Int) ≤ (d.primary.index x.key : Int)
      omega
    · rw [if_neg pos]
      refine ⟨d.rehashidx, 1, rfl, ?_⟩
      intro _ x other
      have := still on x other
      push_cast at this
      change d.rehashidx + 1000 * (calls : Int) ≤ (d.primary.index x.key : Int)
      omega
  · rw [if_neg on]
    exact ⟨d.rehashidx, 0, rfl, fun busy => absurd busy on⟩

/-- A worker that reaches no entry moves `rehashidx` at most. -/
theorem Dict.Inv.rehashMs_still (inv : d.Inv) {more : Nat} (still : d.Still (more + 1)) :
    ∃ i, dictRehashMs more d = some { d with rehashidx := i } ∧
      Dict.Inv { d with rehashidx := i } := by
  induction more generalizing d with
  | zero =>
      obtain ⟨i, r, ran, _⟩ := inv.rehash_still still
      obtain ⟨d', r', ran', inv', _⟩ := inv.dictRehash 100
      cases ran.symm.trans ran'
      exact ⟨i, by rw [dictRehashMs, ran]; rfl, inv'⟩
  | succ more ih =>
      obtain ⟨i, r, ran, still'⟩ := inv.rehash_still still
      obtain ⟨d', r', ran', inv', _⟩ := inv.dictRehash 100
      cases ran.symm.trans ran'
      rw [dictRehashMs, ran]
      simp only [Option.bind_eq_bind, Option.bind_some]
      split
      · exact ⟨i, rfl, inv'⟩
      · obtain ⟨j, rest, inv''⟩ := ih inv' still'
        exact ⟨j, rest, inv''⟩

/-! ## Runs -/

/-- A dictionary with the iterator under consideration, the keys it returned
and whether it returned null. -/
structure Iteration where
  dict : Dict
  it : DictIterator
  returned : List CStr
  done : Bool

/-- The sections that run under the lock while the iterator is live. -/
inductive IterationEvent
  | next
  | lookup (key : CStr)
  | delete (key : CStr)
  | worker (more : Nat)

namespace Iteration

/-- `dict_get_safe_iterator`. -/
def start (d : Dict) : Iteration := ⟨dictGetSafeIterator d, dictCreateIterator, [], false⟩

/-- Note what `dict_iterator_next` returned. -/
def note (s : Iteration) (it : DictIterator) : Option CStr → Iteration
  | some key => { s with it := it, returned := s.returned ++ [key] }
  | none => { s with it := it, done := true }

/-- One section.  Only returned keys are deleted. -/
def step (s : Iteration) : IterationEvent → Option Iteration
  | .next =>
      if s.done then none
      else (dictIteratorNext s.dict s.it).map fun (it, key) => s.note it key
  | .lookup key => (dictLookup s.dict key).map fun (d, _) => { s with dict := d }
  | .delete key =>
      if key ∈ s.returned then (dictDelete s.dict key).map fun (d, _) => { s with dict := d }
      else none
  | .worker more => (dictRehashMs more s.dict).map fun d => { s with dict := d }

/-- The condition on a section: the worker reaches no entry. -/
def Undisturbed (s : Iteration) : IterationEvent → Prop
  | .worker more => s.dict.Still (more + 1)
  | _ => True

/-- Every key that is still in the dictionary was returned exactly once. -/
def Exact (s : Iteration) : Prop := ∀ key, s.dict.Has key → s.returned.count key = 1

/-- The iterator is at a position such that the returned keys and those left are
distinct and cover the dictionary. -/
structure Inv (s : Iteration) (left : List DictEntry) : Prop where
  dict : s.dict.Inv
  live : 0 < s.dict.iterators
  position : s.dict.Position s.it left
  distinct : (s.returned ++ left.map DictEntry.key).Nodup
  cover : ∀ key, s.dict.Has key → key ∈ s.returned ∨ key ∈ left.map DictEntry.key
  finished : s.done = true → left = []

variable {g : DictGlobals} {s s' : Iteration}

theorem Inv.start (inv : d.Inv) (count : 0 ≤ d.iterators) : (start d).Inv d.entries where
  dict := inv.with_iterators _
  live := by
    simp only [Iteration.start, dictGetSafeIterator]
    omega
  position := by
    have all : (dictGetSafeIterator d).after 0 0 = d.entries := (dictGetSafeIterator d).after_start
    rw [← all]
    exact Dict.Position.of_none dictCreateIterator rfl (by decide)
  distinct := inv.distinct
  cover key has := by
    obtain ⟨e, member, keyEq⟩ := has
    exact Or.inr (List.mem_map.mpr ⟨e, member, keyEq⟩)
  finished done := by cases done

/-- A call returns the first key left, and null if there is none. -/
theorem Inv.next (inv : s.Inv left) (running : s.done = false) :
    ∃ s', s.step .next = some s' ∧ s'.Inv left.tail ∧ s'.done = left.isEmpty := by
  obtain ⟨it', ran, position⟩ := inv.dict.iteratorNext inv.position
  refine ⟨s.note it' (left.head?.map DictEntry.key), ?_, ?_⟩
  · rw [Iteration.step, if_neg (by simp [running]), ran]
    rfl
  · rcases left with - | ⟨e, rest⟩
    · exact ⟨⟨inv.dict, inv.live, position, inv.distinct, inv.cover, fun _ => rfl⟩, rfl⟩
    · refine ⟨⟨inv.dict, inv.live, position, ?_, ?_, ?_⟩, running⟩
      · have distinct := inv.distinct
        rw [List.map_cons] at distinct
        simpa [note] using distinct
      · intro key has
        rcases inv.cover key has with old | new
        · exact Or.inl (List.mem_append_left _ old)
        · rcases List.mem_cons.mp new with rfl | later
          · exact Or.inl (List.mem_append_right _ List.mem_cons_self)
          · exact Or.inr later
      · intro done
        replace done : s.done = true := done
        rw [running] at done
        cases done

/-- A lookup changes nothing while an iterator is live. -/
theorem Inv.lookup (inv : s.Inv left) {key : CStr} (fired : s.step (.lookup key) = some s') :
    s'.Inv left := by
  obtain ⟨⟨d₁, v⟩, looked, rfl⟩ := Option.map_eq_some_iff.mp fired
  obtain ⟨⟨d₂, e⟩, found, same⟩ := Option.bind_eq_some_iff.mp looked
  cases same
  have fore := dictFind_foreground found
  rw [dictForeground_of_iterators (ne_of_gt inv.live)] at fore
  obtain rfl := Option.some.inj fore
  exact inv

theorem Inv.delete (inv : s.Inv left) {key : CStr} (fired : s.step (.delete key) = some s') :
    s'.Inv left := by
  rw [Iteration.step] at fired
  split at fired
  · rename_i old
    obtain ⟨⟨d₁, v⟩, deleted, rfl⟩ := Option.map_eq_some_iff.mp fired
    have keep : ∀ x ∈ left, x.key ≠ key := by
      intro x member same
      rw [← same] at old
      exact (List.nodup_append.mp inv.distinct).2.2 _ old _ (List.mem_map_of_mem member) rfl
    obtain ⟨position, _⟩ := inv.position.delete (ne_of_gt inv.live) keep deleted
    have kept := inv.dict.dictDelete_returned deleted
    refine ⟨kept.inv, kept.iterators_eq.symm ▸ inv.live, position, inv.distinct, ?_, inv.finished⟩
    intro key' has
    apply inv.cover key'
    obtain ⟨d₂, deleted', _, mapEq⟩ := inv.dict.dictDelete key
    obtain rfl : d₂ = d₁ := congrArg Prod.fst (Option.some.inj (deleted'.symm.trans deleted))
    rw [Dict.has_iff] at has ⊢
    intro unbound
    apply has
    rw [mapEq, Function.update_apply]
    split
    · rfl
    · exact unbound
  · cases fired

/-- A worker that reaches no entry does not move the iterator. -/
theorem Inv.worker (inv : s.Inv left) {more : Nat} (still : s.dict.Still (more + 1))
    (fired : s.step (.worker more) = some s') : s'.Inv left := by
  obtain ⟨i, ran, inv'⟩ := inv.dict.rehashMs_still still
  rw [Iteration.step, ran] at fired
  obtain rfl := Option.some.inj fired
  exact ⟨inv', inv.live, inv.position, inv.distinct, inv.cover, inv.finished⟩

/-- Every section that meets the condition keeps the invariant. -/
theorem Inv.step (inv : s.Inv left) {e : IterationEvent} (calm : s.Undisturbed e)
    (fired : s.step e = some s') : ∃ left', s'.Inv left' := by
  cases e with
  | next =>
      cases running : s.done with
      | true =>
          rw [Iteration.step, if_pos running] at fired
          cases fired
      | false =>
          obtain ⟨s₁, ran, after, _⟩ := inv.next running
          obtain rfl : s₁ = s' := Option.some.inj (ran.symm.trans fired)
          exact ⟨_, after⟩
  | lookup key => exact ⟨left, inv.lookup fired⟩
  | delete key => exact ⟨left, inv.delete fired⟩
  | worker more => exact ⟨left, inv.worker calm fired⟩

/-- Calls of `dict_iterator_next` come to the end. -/
theorem Inv.ends (inv : s.Inv left) (running : s.done = false) :
    ∃ n s', runEvents Iteration.step s (List.replicate n .next) = some s' ∧ s'.done = true := by
  induction left generalizing s with
  | nil =>
      obtain ⟨s₁, ran, _, done⟩ := inv.next running
      exact ⟨1, s₁, by rw [List.replicate_one, runEvents, ran]; rfl, done⟩
  | cons e rest ih =>
      obtain ⟨s₁, ran, after, running₁⟩ := inv.next running
      obtain ⟨n, s', later, done⟩ := ih after running₁
      exact ⟨n + 1, s', by rw [List.replicate_succ, runEvents, ran, Option.bind_some, later], done⟩

/-- The chain `f`, `i`, `a` in one bucket, `c` in another, and `g`, whose
insertion starts a rehash. -/
def chainRun : List DictEvent :=
  [addLetter 0, addLetter 8, addLetter 5, addLetter 2, addLetter 6]

end Iteration

end XFireDB
