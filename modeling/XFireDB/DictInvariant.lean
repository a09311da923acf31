import XFireDB.DictTable

/-!
# The dictionary invariant

`Dict.Inv` holds of every dictionary state between two calls, whatever rehash
is under way.  The lemmas below say of each internal function that it has a
result, keeps the invariant, and what it does to `Dict.entries`, the entries of
both tables together.  How the entries are spread over the two tables is never
visible in these statements beyond a permutation.
-/

namespace XFireDB

open Lib

/-- The entries of both tables. -/
def Dict.entries (d : Dict) : List DictEntry := d.primary.entries ++ d.rehash.entries

/-- The tables during a rehash: both allocated, and every primary bucket below
`rehashidx` already moved. -/
structure Dict.Busy (d : Dict) (a b : List (List DictEntry)) : Prop where
  primary : d.primary.Table a
  rehash : d.rehash.Table b
  idx_nonneg : 0 ≤ d.rehashidx
  idx_le : d.rehashidx ≤ d.primary.size
  moved : ∀ i : Nat, (i : Int) < d.rehashidx → a[i]? = some []

structure Dict.Inv (d : Dict) : Prop where
  distinct : (d.entries.map DictEntry.key).Nodup
  busy : d.rehashing = true → ∃ a b, d.Busy a b
  idle : d.rehashing = false →
    d.rehash = dictReset ∧ (d.primary = dictReset ∨ ∃ a, d.primary.Table a)

theorem Dict.Inv.of_perm {d d' : Dict} (inv : d.Inv) (perm : d'.entries.Perm d.entries) :
    (d'.entries.map DictEntry.key).Nodup :=
  (perm.map DictEntry.key).nodup_iff.mpr inv.distinct

/-- Outside a rehash the entries are those of the primary table. -/
theorem Dict.Inv.entries_of_idle {d : Dict} (inv : d.Inv) (off : d.rehashing = false) :
    d.entries = d.primary.entries := by
  rw [Dict.entries, (inv.idle off).1, dictReset_entries, List.append_nil]

theorem dictAlloc_inv : dictAlloc.Inv := by
  have empty : dictAlloc.entries = [] := by
    simp [dictAlloc, Dict.entries]
  refine ⟨by simp [empty], fun h => (by cases h), fun _ => ⟨rfl, Or.inr ?_⟩⟩
  exact ⟨_, DictMap.alloc_table (k := 2) (by decide) rfl⟩

/-! ## Rehashing -/

/-- Over buckets that are not all empty the scan stays inside the array: it
stops after some empty buckets, or finds the first non-empty one. -/
theorem rehashScan_spec {bs : List (List DictEntry)} (idx visits : Int)
    (some_left : ∃ c ∈ bs, c ≠ []) :
    (∃ n : Nat, 0 < n ∧ n ≤ bs.length ∧ rehashScan bs idx visits = some (.stop (idx + n)) ∧
      ∀ i < n, bs[i]? = some []) ∨
    (∃ (n : Nat) (v : Int) (chain : List DictEntry), bs[n]? = some chain ∧ chain ≠ [] ∧
      rehashScan bs idx visits = some (.found (idx + n) v chain) ∧
      ∀ i < n, bs[i]? = some []) := by
  induction bs generalizing idx visits with
  | nil => simp at some_left
  | cons c bs ih =>
      cases c with
      | cons e es =>
          right
          exact ⟨0, visits, e :: es, rfl, by simp, by simp [rehashScan], by simp⟩
      | nil =>
          have rest_left : ∃ c ∈ bs, c ≠ [] := by
            obtain ⟨c, member, nonempty⟩ := some_left
            rcases List.mem_cons.mp member with rfl | later
            · exact absurd rfl nonempty
            · exact ⟨c, later, nonempty⟩
          have step : ∀ {n : Nat}, (∀ i < n, bs[i]? = some []) →
              ∀ i < n + 1, ([] :: bs)[i]? = some ([] : List DictEntry) := by
            intro n below i bound
            cases i with
            | zero => rfl
            | succ i => simpa using below i (by omega)
          by_cases last : visits - 1 = 0
          · left
            refine ⟨1, by decide, by simp, by simp [rehashScan, last], fun i bound => ?_⟩
            exact step (n := 0) (by simp) i bound
          · rcases ih (idx + 1) (visits - 1) rest_left with
              ⟨n, _, le, eq, below⟩ | ⟨n, v, chain, here, nonempty, eq, below⟩
            · left
              refine ⟨n + 1, by omega, by simpa using le, ?_, step below⟩
              rw [rehashScan, if_neg last, eq]
              congr 2
              push_cast
              ring
            · right
              refine ⟨n + 1, v, chain, by simpa using here, nonempty, ?_, step below⟩
              rw [rehashScan, if_neg last, eq]
              congr 2
              push_cast
              ring

/-- Moving one entry puts it in its bucket of the new table. -/
theorem rehashMove_spec {d : Dict} {b : List (List DictEntry)} (t : d.rehash.Table b)
    (e : DictEntry) :
    ∃ m' b', m'.Table b' ∧ m'.entries.Perm (e :: d.rehash.entries) ∧
      rehashMove d e = some { d with
        rehash := m'
        primary := { d.primary with length := d.primary.length - 1 } } := by
  obtain ⟨m', b', pushed, table, _, _, _, perm⟩ := t.push e
  refine ⟨m', b', table, perm, ?_⟩
  rw [DictMap.push] at pushed
  rw [rehashMove]
  rcases read : d.rehash.bucket (d.rehash.index e.key) with - | chain
  · rw [read] at pushed
    cases pushed
  · rw [read] at pushed
    simp only [Option.bind_eq_bind, Option.bind_some, Option.some.injEq] at pushed ⊢
    rw [← pushed]

/-- Moving a whole chain. -/
theorem rehashMove_chain (chain : List DictEntry) {d : Dict} {b : List (List DictEntry)}
    (t : d.rehash.Table b) :
    ∃ m' b', m'.Table b' ∧ m'.entries.Perm (chain ++ d.rehash.entries) ∧
      chain.foldlM rehashMove d = some { d with
        rehash := m'
        primary := { d.primary with length := d.primary.length - chain.length } } := by
  induction chain generalizing d b with
  | nil => exact ⟨d.rehash, b, t, .refl _, by simp⟩
  | cons e chain ih =>
      obtain ⟨m₁, b₁, table₁, perm₁, move⟩ := rehashMove_spec t e
      obtain ⟨m', b', table, perm, rest⟩ := @ih { d with
        rehash := m₁
        primary := { d.primary with length := d.primary.length - 1 } } b₁ table₁
      refine ⟨m', b', table, ?_, ?_⟩
      · refine perm.trans ((perm₁.append_left chain).trans ?_)
        exact List.perm_middle
      · rw [List.foldlM_cons, move, Option.bind_eq_bind, Option.bind_some, rest]
        simp only [List.length_cons, Option.some.injEq, Dict.mk.injEq, DictMap.mk.injEq,
          true_and, and_true]
        push_cast
        ring

/-- One bucket of a rehash: the found chain moves to the new table and its
bucket is cleared.  The invariant of the running rehash is kept. -/
theorem Dict.Busy.move_bucket {d : Dict} {a b : List (List DictEntry)} (run : d.Busy a b)
    {n : Nat} {chain : List DictEntry} (here : a[n]? = some chain)
    (after : d.rehashidx ≤ n) (below : ∀ i < n, a[i]? = some []) :
    ∃ m' b', m'.Table b' ∧
      chain.foldlM rehashMove d = some { d with
        rehash := m'
        primary := { d.primary with length := d.primary.length - chain.length } } ∧
      Dict.Busy { d with
        rehash := m'
        primary := DictMap.setBucket
          { d.primary with length := d.primary.length - chain.length } n []
        rehashidx := n + 1 } (a.set n []) b' ∧
      (Dict.entries { d with
        rehash := m'
        primary := DictMap.setBucket
          { d.primary with length := d.primary.length - chain.length } n [] }).Perm d.entries := by
  obtain ⟨m', b', table, perm, fold⟩ := rehashMove_chain chain run.rehash
  have bound : n < a.length := (List.getElem?_eq_some_iff.mp here).1
  have cleared := run.primary.set_chain [] here (by simp)
  have counter : d.primary.length - (chain.length : Int) + (([] : List DictEntry).length : Int) =
      d.primary.length - chain.length := by simp
  rw [counter] at cleared
  refine ⟨m', b', table, fold, ⟨cleared, table, by simp only; omega, ?_, ?_⟩, ?_⟩
  · have := run.primary.size_eq
    simp only [DictMap.setBucket]
    omega
  · intro i early
    by_cases same : i = n
    · subst same
      simp [bound]
    · rw [List.getElem?_set_ne (Ne.symm same)]
      exact below i (by simp only at early; omega)
  · obtain ⟨rest, before, afterwards⟩ :=
      run.primary.entries_set_chain [] here (d.primary.length - chain.length)
    have left : (DictMap.setBucket { d.primary with
        length := d.primary.length - chain.length } n []).entries.Perm rest := by
      simpa [DictMap.entries, DictMap.setBucket] using afterwards
    simp only [Dict.entries]
    refine (left.append perm).trans ?_
    refine List.Perm.trans ?_ (before.append_right d.rehash.entries).symm
    rw [← List.append_assoc]
    exact List.perm_append_comm.append_right _

/-- A busy primary table with a positive length has a non-empty bucket at or
after `rehashidx`. -/
theorem Dict.Busy.some_left {d : Dict} {a b : List (List DictEntry)} (run : d.Busy a b)
    (pos : 0 < d.primary.length) :
    d.rehashidx < d.primary.size ∧ ∃ c ∈ a.drop d.rehashidx.toNat, c ≠ [] := by
  have counter := run.primary.length_eq
  have nonempty : a.flatten ≠ [] := by
    intro nil
    rw [nil] at counter
    simp at counter
    omega
  obtain ⟨e, member⟩ := List.exists_mem_of_ne_nil _ nonempty
  obtain ⟨c, inArray, inChain⟩ := List.mem_flatten.mp member
  obtain ⟨i, bound, at_⟩ := List.mem_iff_getElem.mp inArray
  have here : a[i]? = some c := by simp [bound, at_]
  have late : ¬ ((i : Int) < d.rehashidx) := by
    intro early
    rw [run.moved i early] at here
    rw [← Option.some.inj here] at inChain
    cases inChain
  have start := run.idx_nonneg
  have sizes := run.primary.size_eq
  refine ⟨by omega, c, ?_, List.ne_nil_of_mem inChain⟩
  apply List.mem_iff_getElem?.mpr
  refine ⟨i - d.rehashidx.toNat, ?_⟩
  rw [List.getElem?_drop, show d.rehashidx.toNat + (i - d.rehashidx.toNat) = i by omega]
  exact here

/-- A rehash has gone on: the same entries, a greater `rehashidx`, and entries
left in the primary table. -/
structure Dict.Ahead (d d' : Dict) : Prop where
  inv : d'.Inv
  perm : d'.entries.Perm d.entries
  on : d'.rehashing = true
  left : 0 < d'.primary.length
  idx_lt : d.rehashidx < d'.rehashidx
  size_eq : d'.primary.size = d.primary.size
  iterators_eq : d'.iterators = d.iterators

/-- A rehash has ended with the same entries. -/
structure Dict.Ended (d d' : Dict) : Prop where
  inv : d'.Inv
  perm : d'.entries.Perm d.entries
  off : d'.rehashing = false
  iterators_eq : d'.iterators = d.iterators

/-- A round of the outer loop with entries left: the visit budget runs out, or
it moves a bucket and ends the rehash or goes on. -/
theorem Dict.Inv.rehash_round {d : Dict} (inv : d.Inv) (on : d.rehashing = true)
    (pos : 0 < d.primary.length) (num : Nat) (visits : Int) :
    ∃ d', (rehashLoop (num + 1) visits d = some (d', 1) ∧ d.Ahead d') ∨
      (rehashLoop (num + 1) visits d = some (d', 0) ∧ d.Ended d') ∨
      (∃ v, rehashLoop (num + 1) visits d = rehashLoop num v d' ∧ d.Ahead d') := by
  obtain ⟨a, b, run⟩ := inv.busy on
  obtain ⟨inside, left⟩ := run.some_left pos
  have start := run.idx_nonneg
  rw [rehashLoop, if_pos pos, if_neg (by omega), run.primary.array_eq, Option.bind_eq_bind,
    Option.bind_some]
  have below : ∀ {n : Nat}, (∀ i < n, (a.drop d.rehashidx.toNat)[i]? = some []) →
      ∀ i < d.rehashidx.toNat + n, a[i]? = some [] := by
    intro n scanned i bound
    by_cases early : (i : Int) < d.rehashidx
    · exact run.moved i early
    · have := scanned (i - d.rehashidx.toNat) (by omega)
      rwa [List.getElem?_drop,
        show d.rehashidx.toNat + (i - d.rehashidx.toNat) = i by omega] at this
  rcases rehashScan_spec d.rehashidx visits left with
    ⟨n, some_seen, le, scan, scanned⟩ | ⟨n, v, chain, here, nonempty, scan, scanned⟩
  · -- the visit budget ran out over empty buckets
    rw [scan]
    refine ⟨{ d with rehashidx := d.rehashidx + n }, Or.inl ⟨rfl, ?_⟩⟩
    refine ⟨?_, .refl _, on, pos, by simp only; omega, rfl, rfl⟩
    refine ⟨inv.distinct, fun _ => ⟨a, b, run.primary, run.rehash, ?_, ?_, ?_⟩,
      fun off => absurd (on.symm.trans off) (by decide)⟩
    · simp only
      omega
    · have := run.primary.size_eq
      rw [List.length_drop] at le
      simp only
      omega
    · intro i early
      exact below scanned i (by simp only at early; omega)
  · -- a non-empty bucket: move it, then finish or go on
    rw [scan]
    have at_ : a[d.rehashidx.toNat + n]? = some chain := by
      rwa [List.getElem?_drop] at here
    obtain ⟨m', b', table, fold, run', perm⟩ :=
      run.move_bucket at_ (by omega) (below scanned)
    have idxEq : (d.rehashidx + (n : Int)).toNat = d.rehashidx.toNat + n := by omega
    have nextEq : d.rehashidx + (n : Int) + 1 = ((d.rehashidx.toNat + n : Nat) : Int) + 1 := by
      omega
    simp only [Option.bind_eq_bind, Option.bind_some, fold, idxEq, nextEq]
    have counter := run'.primary.length_eq
    simp only at counter
    split
    · rename_i drained
      -- the primary table is empty, so the entries are those of the new table
      have none_left : (DictMap.setBucket { d.primary with
          length := d.primary.length - chain.length } (d.rehashidx.toNat + n) []).entries =
            [] := by
        rw [run'.primary.entries_eq]
        rw [drained] at counter
        exact List.eq_nil_of_length_eq_zero (by omega)
      have total : m'.entries.Perm d.entries := by
        simpa only [Dict.entries, none_left, List.nil_append] using perm
      have whole : (Dict.entries { d with
          primary := m'
          rehash := dictReset
          rehashidx := -1
          rehashing := false }).Perm d.entries := by
        simpa only [Dict.entries, dictReset_entries, List.append_nil] using total
      refine ⟨_, Or.inr (Or.inl ⟨rfl, ?_, whole, rfl, rfl⟩)⟩
      exact ⟨inv.of_perm whole, fun h => (by cases h), fun _ => ⟨rfl, Or.inr ⟨b', table⟩⟩⟩
    · rename_i more
      refine ⟨{ d with
        rehash := m'
        primary := DictMap.setBucket { d.primary with
          length := d.primary.length - chain.length } (d.rehashidx.toNat + n) []
        rehashidx := ((d.rehashidx.toNat + n : Nat) : Int) + 1 }, Or.inr (Or.inr ⟨v, rfl, ?_⟩)⟩
      refine ⟨?_, perm, on, ?_, ?_, rfl, rfl⟩
      · exact ⟨inv.of_perm perm, fun _ => ⟨_, _, run'⟩,
          fun off => absurd (on.symm.trans off) (by decide)⟩
      · simp only at more ⊢
        omega
      · simp only
        omega

/-- The rehash loop always has a result; it keeps the invariant and the
entries. -/
theorem Dict.Inv.rehashLoop {d : Dict} (inv : d.Inv) (on : d.rehashing = true)
    (num : Nat) (visits : Int) :
    ∃ d' r, rehashLoop num visits d = some (d', r) ∧ d'.Inv ∧ d'.entries.Perm d.entries ∧
      d'.iterators = d.iterators := by
  induction num generalizing d visits with
  | zero => exact ⟨d, 1, rfl, inv, .refl _, rfl⟩
  | succ num ih =>
      by_cases pos : 0 < d.primary.length
      · obtain ⟨d₁, ⟨loop, ahead⟩ | ⟨loop, ended⟩ | ⟨v, loop, ahead⟩⟩ :=
          inv.rehash_round on pos num visits
        · exact ⟨d₁, 1, loop, ahead.inv, ahead.perm, ahead.iterators_eq⟩
        · exact ⟨d₁, 0, loop, ended.inv, ended.perm, ended.iterators_eq⟩
        · obtain ⟨d', r, rest, keep, perm, iters⟩ := ih ahead.inv ahead.on v
          exact ⟨d', r, loop.trans rest, keep, perm.trans ahead.perm,
            iters.trans ahead.iterators_eq⟩
      · rw [XFireDB.rehashLoop, if_neg pos]
        exact ⟨d, 1, rfl, inv, .refl _, rfl⟩

theorem Dict.Inv.dictRehash {d : Dict} (inv : d.Inv) (num : Nat) :
    ∃ d' r, dictRehash d num = some (d', r) ∧ d'.Inv ∧ d'.entries.Perm d.entries ∧
      d'.iterators = d.iterators := by
  rw [XFireDB.dictRehash]
  by_cases on : d.rehashing = true
  · rw [if_pos on]
    exact inv.rehashLoop on num _
  · rw [if_neg on]
    exact ⟨d, 0, rfl, inv, .refl _, rfl⟩

/-- The foreground step before an operation. -/
theorem Dict.Inv.dictForeground {d : Dict} (inv : d.Inv) :
    ∃ d', dictForeground d = some d' ∧ d'.Inv ∧ d'.entries.Perm d.entries := by
  rw [XFireDB.dictForeground, dictRehashStep]
  split
  · split
    · obtain ⟨d', r, run, keep, perm, _⟩ := inv.dictRehash 1
      exact ⟨d', by rw [run, Option.map_some], keep, perm⟩
    · exact ⟨d, rfl, inv, .refl _⟩
  · exact ⟨d, rfl, inv, .refl _⟩

end XFireDB
