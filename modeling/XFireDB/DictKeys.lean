import XFireDB.DictRaw

/-!
# Keys that an `int` cannot count

`dict_set_key` keeps the length of a key in an `int`.  A key of `2^31 - 1` bytes or
more is not stored as it is: the process ends, or the entry gets the first bytes of
the key only.  The hash functions and `strcmp` work with the whole key, so such an
entry answers to another key than the one it was added under.

For keys that are copied whole the calls are those of the model without the copy,
and the dictionary is a finite map.
-/

namespace XFireDB

open Lib

variable {g : DictGlobals} {d d' : Dict} {key : CStr} {data : DictArg} {t : DictType} {l : Nat}

/-! ## Runs -/

/-- The dictionary after an event, for keys of any length. -/
def dictKeyStep (g : DictGlobals) (d : Dict) : DictEvent → Option Dict
  | .call c => if d.heapHolds c then (d.callKey g c).map Prod.fst else none
  | e => dictStep g d e

/-- The keys that the event stores are copied whole. -/
def DictEvent.Short : DictEvent → Prop
  | .call c => c.Short
  | _ => True

instance (e : DictEvent) : Decidable e.Short :=
  match e with
  | .call c => inferInstanceAs (Decidable c.Short)
  | .rehash _ => inferInstanceAs (Decidable True)
  | .getSafeIterator => inferInstanceAs (Decidable True)
  | .iteratorFree => inferInstanceAs (Decidable True)

theorem dictKeyStep_of_short {e : DictEvent} (short : e.Short) :
    dictKeyStep g d e = dictStep g d e := by
  cases e with
  | call c => simp only [dictKeyStep, dictStep, Dict.callKey_of_short g d short]
  | rehash num => rfl
  | getSafeIterator => rfl
  | iteratorFree => rfl

theorem reachable_of_short (run : Reach (dictKeyStep g) (fun _ e => e.Short) dictAlloc d) :
    Reachable (dictStep g) dictAlloc d := by
  induction run with
  | init => exact .init
  | next _ short fired ih => exact .next ih trivial ((dictKeyStep_of_short short).symm.trans fired)

/-- In every state that a run over keys copied whole reaches, the two tables, the
counters and the position of a rehash describe each other. -/
theorem represented_of_reachable (run : Reach (dictKeyStep g) (fun _ e => e.Short) dictAlloc d) :
    d.Represented :=
  (Dict.inv_of_reachable (reachable_of_short run)).1.represented

/-- A run with a rehash under way, an overwritten key and a failed insertion. -/
def mixedRun : List DictEvent :=
  fillRun ++ [.getSafeIterator, .rehash 1, .call (.update (letterKey 0) ⟨9, 9⟩ .u64), addLetter 1,
    .call (.delete (letterKey 4)), .iteratorFree]

theorem represented_mixedRun :
    ∃ d, runEvents (dictKeyStep .initial) dictAlloc mixedRun = some d ∧ d.rehashing = true ∧
      dictGetSize d = 4 ∧ d.Represented :=
  ⟨_, rfl, rfl, rfl, represented_of_reachable (g := .initial)
    (Reach.of_guardedEvents (fun _ e => decide e.Short) (fun _ _ => of_decide_eq_true) mixedRun
      rfl rfl)⟩

/-! ## The finite map -/

/-- The dictionary refines a finite map: from `dict_alloc`, every run that stores
keys copied whole and whose tables have at most `2^31` buckets has a result, and both
its replies and the map it ends in are those of its client calls alone on the empty
map, whatever rehash batches and safe iterators come between them. -/
theorem dict_run_refines_map (g : DictGlobals) (events : List DictEvent)
    (short : ∀ c ∈ DictEvent.calls events, c.Short) (fits : dictAlloc.runFits g events = true) :
    ∃ d, dictAlloc.run g events =
        some (d, (DictSpec.run (fun _ => none) (DictEvent.calls events)).2) ∧
      d.toMap = (DictSpec.run (fun _ => none) (DictEvent.calls events)).1 := by
  obtain ⟨d, run, _, mapEq⟩ := dictAlloc_inv.run events short fits
  rw [dictAlloc_toMap] at run mapEq
  exact ⟨d, run, mapEq⟩

/-- The insertion of a letter with its number as the value. -/
def addNumber (n : Nat) : DictEvent := .call (.add (letterKey n) ⟨n.toUInt64, 0⟩ .ptr)

/-- Five keys, the last of which starts a rehash; a failed insertion, an update and
deletions while it is under way, batches that finish it, and a live iterator. -/
def sampleDictRun : List DictEvent :=
  [addNumber 0, addNumber 1, addNumber 2, addNumber 4, addNumber 6, .getSafeIterator,
    .call (.lookup (letterKey 4)), addNumber 1, .call (.update (letterKey 2) ⟨3, 9⟩ .u64),
    .iteratorFree, .rehash 1, .call (.delete (letterKey 6)), .call (.lookup (letterKey 2)),
    .rehash 100, .call (.lookup (letterKey 0)), .call (.delete (letterKey 1)),
    .call (.lookup (letterKey 1))]

theorem dict_run_refines_map_sample :
    (dictAlloc.run .initial (sampleDictRun.take 10)).any (fun r => r.1.rehashing) = true ∧
      ∃ d, dictAlloc.run .initial sampleDictRun =
          some (d, [.rc .ok, .rc .ok, .rc .ok, .rc .ok, .rc .ok, .found (some (4, 8)), .rc .err,
            .rc .ok, .deleted (some 6), .found (some (9, 8)), .found (some (0, 8)),
            .deleted (some 1), .found none]) ∧
        d.toMap = (DictSpec.run (fun _ => none) (DictEvent.calls sampleDictRun)).1 := by
  have short : ∀ c ∈ DictEvent.calls sampleDictRun, c.Short := by decide
  have fits : dictAlloc.runFits .initial sampleDictRun = true := by decide
  exact ⟨by decide, dict_run_refines_map .initial sampleDictRun short fits⟩

/-! ## A key that is cut -/

/-- `n + 1` bytes `a`. -/
def manyA (n : Nat) : CStr where
  bytes := 97 :: List.replicate n 97
  nulFree nul := by
    rcases List.mem_cons.mp nul with first | later
    · exact absurd first (by decide)
    · exact absurd (List.eq_of_mem_replicate later) (by decide)

theorem manyA_length (n : Nat) : (manyA n).bytes.length = n + 1 := by
  simp only [manyA, List.length_cons, List.length_replicate]

/-- Of `2^32 + 1` bytes the entry gets the first one. -/
theorem dictSetKey_manyA {n : Nat} (cut : n % 2 ^ 32 = 0) :
    dictSetKey (manyA n) = some (letterKey 0) := by
  have size : (manyA n).bytes.length % 2 ^ 32 = 1 := by
    rw [manyA_length]
    omega
  have first : (manyA n).bytes.take 1 = (letterKey 0).bytes := by
    rw [manyA, List.take_succ_cons, List.take_zero]
    rfl
  simp only [dictSetKey, intCopy, size, first]
  rfl

theorem letterKey_ne_manyA {n : Nat} (long : 0 < n) : letterKey 0 ≠ manyA n := by
  intro same
  have lengths : (letterKey 0).bytes.length = n + 1 := by rw [same, manyA_length]
  have one : (letterKey 0).bytes.length = 1 := rfl
  omega

/-- Tables do not tell the two keys apart. -/
theorem DictMap.index_manyA (m : DictMap) {n : Nat} (cut : n % 2 ^ 32 = 0) :
    m.index (manyA n) = m.index (letterKey 0) := by
  rw [index, index, dictHashKey, dictHashKey, hashKey_of_intCopy (dictSetKey_manyA cut)]

theorem DictMap.chain_manyA (m : DictMap) {n : Nat} (cut : n % 2 ^ 32 = 0) :
    m.chain (manyA n) = m.chain (letterKey 0) := by
  rw [chain, chain, m.index_manyA cut]

/-- An idle dictionary with one chain of entries, all labelled `a`. -/
def chainOfA (l : List DictEntry) : Dict :=
  { dictAlloc with primary := ⟨some [[], l, [], []], 4, 3, l.length⟩ }

section ChainOfA

variable {l : List DictEntry} {n : Nat}

theorem index_chainOfA (l : List DictEntry) : (chainOfA l).primary.index (letterKey 0) = 1 := by
  show (dictHashKey (letterKey 0) dictSeed).toNat &&& 3 = 1
  decide +kernel

theorem chain_chainOfA (l : List DictEntry) :
    (chainOfA l).primary.chain (letterKey 0) = some l := by
  rw [DictMap.chain, index_chainOfA]
  rfl

theorem other_chainOfA (labels : ∀ e ∈ l, e.key = letterKey 0) (long : 0 < n) :
    ∀ e ∈ l, ¬ e.key = manyA n := by
  intro e member
  rw [labels e member]
  exact letterKey_ne_manyA long

/-- The key is not found, whatever was added under it. -/
theorem dictFind_chainOfA (labels : ∀ e ∈ l, e.key = letterKey 0) (cut : n % 2 ^ 32 = 0)
    (long : 0 < n) : dictFind (chainOfA l) (manyA n) = some (chainOfA l, none) := by
  have missing : (l.find? fun e => e.key = manyA n) = none := by
    rw [List.find?_eq_none]
    intro e member
    simpa using other_chainOfA labels long e member
  have allocated : ¬ (chainOfA l).primary.size = 0 := Nat.succ_ne_zero 3
  have fore : dictForeground (chainOfA l) = some (chainOfA l) := rfl
  rw [dictFind_eq, fore, Option.bind_some, dictFindLocked, if_neg allocated,
    DictMap.chain_manyA _ cut, chain_chainOfA]
  simp only [Option.bind_eq_bind, Option.bind_some, missing]
  rfl

/-- The key is added as often as asked. -/
theorem dictAddKey_chainOfA (labels : ∀ e ∈ l, e.key = letterKey 0) (few : l.length < 4)
    (cut : n % 2 ^ 32 = 0) (long : 0 < n) (data : DictArg) (t : DictType) :
    dictAddKey .initial (chainOfA l) (manyA n) data t =
      some (chainOfA (⟨letterKey 0, dictVal data t, dictGetEntryLength t⟩ :: l), .ok) := by
  have fore : dictForeground (chainOfA l) = some (chainOfA l) := rfl
  have room : dictExpandIf .initial (chainOfA l) = (chainOfA l, .ok) := by
    have spare : dictShouldExpand .initial (chainOfA l) = false := by
      simp [dictShouldExpand, chainOfA, few]
    rw [dictExpandIf, spare]
    rfl
  have absent : chainHas l (manyA n) = false := by
    rw [chainHas, List.any_eq_false]
    intro e member
    simpa using other_chainOfA labels long e member
  have index : dictCalcIndex .initial (chainOfA l) (manyA n) = some (chainOfA l, 1) := by
    rw [dictCalcIndex, room]
    simp only [DictMap.chain_manyA _ cut, DictMap.index_manyA _ cut, chain_chainOfA, index_chainOfA,
      Option.bind_eq_bind, Option.bind_some, absent]
    rfl
  have link : dictLinkKey .initial (chainOfA l) (manyA n) =
      some (chainOfA (⟨letterKey 0, 0, 0⟩ :: l), some ⟨false, letterKey 0⟩) := by
    rw [dictLinkKey, fore, dictSetKey_manyA cut]
    simp only [Option.bind_eq_bind, Option.bind_some, dictLinkCopy, index]
    simp [chainOfA, dictAlloc, DictMap.push, DictMap.bucket, DictMap.setBucket]
  have written : (chainOfA (⟨letterKey 0, 0, 0⟩ :: l)).write ⟨false, letterKey 0⟩ (dictVal data t)
      (dictGetEntryLength t) =
        some (chainOfA (⟨letterKey 0, dictVal data t, dictGetEntryLength t⟩ :: l)) := by
    have inPrimary : ¬ (false = true) := Bool.false_ne_true
    rw [Dict.write, if_neg inPrimary, DictMap.write, chain_chainOfA, index_chainOfA]
    simp [chainSet, chainOfA, DictMap.setBucket]
  rw [dictAddKey, rawDictAddKey, rawDictAddBy, link]
  simp only [Option.bind_eq_bind, Option.bind_some, written]

end ChainOfA

theorem cut_two_pow_32 : 2 ^ 32 % 2 ^ 32 = 0 := by decide

/-- The entry of the first byte. -/
def entryA : DictEntry := ⟨letterKey 0, 1, 8⟩

theorem dictAddKey_empty : dictAddKey .initial dictAlloc (manyA (2 ^ 32)) ⟨1, 0⟩ .ptr =
    some (chainOfA [entryA], .ok) :=
  dictAddKey_chainOfA (l := []) (fun _ member => by cases member) (by decide) cut_two_pow_32
    (by decide) ⟨1, 0⟩ .ptr

section CutKey

variable {key : CStr} (added : dictAddKey .initial dictAlloc key ⟨1, 0⟩ .ptr =
  some (chainOfA [entryA], .ok))

include added

theorem callKey_add : dictAlloc.callKey .initial (.add key ⟨1, 0⟩ .ptr) =
    some (chainOfA [entryA], .rc .ok) := by
  rw [Dict.callKey, added, Option.map_some]

omit added in
theorem callKey_lookup (looked : dictFind (chainOfA [entryA]) key =
    some (chainOfA [entryA], none)) :
    (chainOfA [entryA]).callKey .initial (.lookup key) = some (chainOfA [entryA], .found none) := by
  show (dictLookup _ key).map _ = _
  rw [dictLookup, looked]
  rfl

theorem run_addLookup (looked : dictFind (chainOfA [entryA]) key = some (chainOfA [entryA], none)) :
    dictAlloc.run .initial [.call (.add key ⟨1, 0⟩ .ptr), .call (.lookup key)] =
      some (chainOfA [entryA], [.rc .ok, .found none]) := by
  have last : (chainOfA [entryA]).run .initial [.call (.lookup key)] =
      some (chainOfA [entryA], [.found none]) := by
    rw [Dict.run, callKey_lookup looked]
    rfl
  rw [Dict.run, callKey_add added, Option.bind_eq_bind, Option.bind_some]
  dsimp only
  rw [last]
  rfl

theorem runFits_addLookup
    (looked : dictFind (chainOfA [entryA]) key = some (chainOfA [entryA], none)) :
    dictAlloc.runFits .initial [.call (.add key ⟨1, 0⟩ .ptr), .call (.lookup key)] = true := by
  have fits : dictAlloc.tablesFit .initial = true := by decide
  have last : (chainOfA [entryA]).runFits .initial [.call (.lookup key)] = true := by
    rw [Dict.runFits, callKey_lookup looked]
    rfl
  rw [Dict.runFits, callKey_add added, Dict.callFits, fits, Option.all_some]
  dsimp only
  rw [last]
  rfl

theorem runEvents_addTwice (again : dictAddKey .initial (chainOfA [entryA]) key ⟨1, 0⟩ .ptr =
      some (chainOfA [entryA, entryA], .ok)) :
    runEvents (dictKeyStep .initial) dictAlloc
      [.call (.add key ⟨1, 0⟩ .ptr), .call (.add key ⟨1, 0⟩ .ptr)] =
        some (chainOfA [entryA, entryA]) := by
  have second : (chainOfA [entryA]).callKey .initial (.add key ⟨1, 0⟩ .ptr) =
      some (chainOfA [entryA, entryA], .rc .ok) := by
    rw [Dict.callKey, again, Option.map_some]
  have first : dictKeyStep .initial dictAlloc (.call (.add key ⟨1, 0⟩ .ptr)) =
      some (chainOfA [entryA]) := by
    rw [dictKeyStep, if_pos (by rfl), callKey_add added, Option.map_some]
  have next : dictKeyStep .initial (chainOfA [entryA]) (.call (.add key ⟨1, 0⟩ .ptr)) =
      some (chainOfA [entryA, entryA]) := by
    rw [dictKeyStep, if_pos (by rfl), second, Option.map_some]
  rw [runEvents, first, Option.bind_some, runEvents, next, Option.bind_some, runEvents]

end CutKey

/-- A key of `2^32 + 1` bytes is added and looked up. -/
def cutRun : List DictEvent :=
  [.call (.add (manyA (2 ^ 32)) ⟨1, 0⟩ .ptr), .call (.lookup (manyA (2 ^ 32)))]

theorem calls_cutRun (key : CStr) : (DictSpec.run (fun _ => none)
    (DictEvent.calls [.call (.add key ⟨1, 0⟩ .ptr), .call (.lookup key)])).2 =
      [.rc .ok, .found (some (1, 8))] := by
  simp [DictSpec.run, DictEvent.calls, DictSpec.call, dictVal, dictGetEntryLength]

/-- The addition returns OK and the look-up finds nothing, which no finite map does. -/
theorem cut_key_not_found :
    dictAlloc.runFits .initial cutRun = true ∧
      (∃ d, dictAlloc.run .initial cutRun = some (d, [.rc .ok, .found none])) ∧
      (DictSpec.run (fun _ => none) (DictEvent.calls cutRun)).2 =
        [.rc .ok, .found (some (1, 8))] := by
  have looked := dictFind_chainOfA (l := [entryA]) (by simp [entryA]) cut_two_pow_32 (by decide)
  exact ⟨runFits_addLookup dictAddKey_empty looked, ⟨_, run_addLookup dictAddKey_empty looked⟩,
    calls_cutRun _⟩

/-- Added twice, the key is stored twice. -/
theorem cut_key_stored_twice :
    ∃ d, runEvents (dictKeyStep .initial) dictAlloc
        [.call (.add (manyA (2 ^ 32)) ⟨1, 0⟩ .ptr), .call (.add (manyA (2 ^ 32)) ⟨1, 0⟩ .ptr)] =
          some d ∧ ¬ d.Represented := by
  have again := dictAddKey_chainOfA (l := [entryA]) (by simp [entryA]) (by decide) cut_two_pow_32
    (by decide) ⟨1, 0⟩ .ptr
  refine ⟨_, runEvents_addTwice dictAddKey_empty again, ?_⟩
  intro represented
  exact absurd represented.distinct (by decide)

/-! ## What entries can be called -/

/-- Every entry has a label with a property. -/
def DictMap.Labels (P : CStr → Prop) (m : DictMap) : Prop := ∀ e ∈ m.entries, P e.key

structure Dict.Labels (P : CStr → Prop) (d : Dict) : Prop where
  primary : d.primary.Labels P
  rehash : d.rehash.Labels P

section Labels

variable {P : CStr → Prop} {m m' : DictMap} {i : Nat} {chain : List DictEntry}

theorem DictMap.labels_reset : dictReset.Labels P := fun e member => by cases member

theorem DictMap.labels_alloc (size : Nat) : (DictMap.alloc size).Labels P := by
  intro e member
  obtain ⟨chain, isChain, inside⟩ := List.mem_flatten.mp member
  obtain rfl := List.eq_of_mem_replicate isChain
  cases inside

theorem DictMap.Labels.bucket (labels : m.Labels P) (here : m.bucket i = some chain) :
    ∀ e ∈ chain, P e.key := by
  intro e member
  obtain ⟨a, isArray, read⟩ := Option.bind_eq_some_iff.mp here
  apply labels e
  rw [entries, isArray]
  exact List.mem_flatten_of_mem (List.mem_of_getElem? read) member

theorem DictMap.Labels.setBucket (labels : m.Labels P) (i : Nat) (chain_ : ∀ e ∈ chain, P e.key) :
    (m.setBucket i chain).Labels P := by
  intro e member
  rw [entries, DictMap.setBucket] at member
  cases array : m.array with
  | none =>
      rw [array] at member
      cases member
  | some a =>
      rw [array] at member
      obtain ⟨c, isChain, inside⟩ := List.mem_flatten.mp member
      rcases List.mem_or_eq_of_mem_set isChain with old | rfl
      · apply labels e
        rw [entries, array]
        exact List.mem_flatten_of_mem old inside
      · exact chain_ e inside

theorem DictMap.Labels.push (labels : m.Labels P) {e : DictEntry} (label : P e.key)
    (pushed : m.push i e = some m') : m'.Labels P := by
  obtain ⟨chain, here, same⟩ := Option.bind_eq_some_iff.mp pushed
  cases same
  refine labels.setBucket i ?_
  intro e' member
  rcases List.mem_cons.mp member with rfl | old
  · exact label
  · exact labels.bucket here e' old

theorem chainSet_labels {k : CStr} {v : UInt64} {l : Nat} (labels : ∀ e ∈ chain, P e.key) :
    ∀ e ∈ chainSet k v l chain, P e.key := by
  induction chain with
  | nil => exact labels
  | cons e es ih =>
      have first := labels e List.mem_cons_self
      have later := fun e' member => labels e' (List.mem_cons_of_mem e member)
      rw [chainSet]
      split
      · exact List.forall_mem_cons.mpr ⟨first, later⟩
      · exact List.forall_mem_cons.mpr ⟨first, ih later⟩

theorem DictMap.Labels.write (labels : m.Labels P) {k : CStr} {v : UInt64} {l : Nat}
    (written : m.write k v l = some m') : m'.Labels P := by
  obtain ⟨chain, here, same⟩ := Option.bind_eq_some_iff.mp written
  cases same
  exact labels.setBucket _ (chainSet_labels (labels.bucket here))

theorem Dict.Labels.write (labels : d.Labels P) {r : EntryRef} {v : UInt64} {l : Nat}
    (written : d.write r v l = some d') : d'.Labels P := by
  rw [Dict.write] at written
  split at written
  · obtain ⟨m, inner, same⟩ := Option.bind_eq_some_iff.mp written
    cases same
    exact ⟨labels.primary, labels.rehash.write inner⟩
  · obtain ⟨m, inner, same⟩ := Option.bind_eq_some_iff.mp written
    cases same
    exact ⟨labels.primary.write inner, labels.rehash⟩

theorem Dict.Labels.rehashMove (labels : d.Labels P) {e : DictEntry} (label : P e.key)
    (moved : rehashMove d e = some d') : d'.Labels P := by
  obtain ⟨chain, here, same⟩ := Option.bind_eq_some_iff.mp moved
  cases same
  refine ⟨labels.primary, labels.rehash.setBucket _ ?_⟩
  exact List.forall_mem_cons.mpr ⟨label, labels.rehash.bucket here⟩

theorem Dict.Labels.moveAll (labels : d.Labels P) (chain_ : ∀ e ∈ chain, P e.key)
    (moved : chain.foldlM XFireDB.rehashMove d = some d') : d'.Labels P := by
  induction chain generalizing d with
  | nil =>
      cases moved
      exact labels
  | cons e es ih =>
      rw [List.foldlM_cons] at moved
      obtain ⟨d₁, first, later⟩ := Option.bind_eq_some_iff.mp moved
      obtain ⟨label, rest⟩ := List.forall_mem_cons.mp chain_
      exact ih (labels.rehashMove label first) rest later

/-- The chain that the scan finds is one of those it looks at. -/
theorem mem_of_rehashScan {rest : List (List DictEntry)} {idx visits idx' v : Int}
    (found : rehashScan rest idx visits = some (.found idx' v chain)) : chain ∈ rest := by
  induction rest generalizing idx visits with
  | nil => cases found
  | cons c rest ih =>
      cases c with
      | nil =>
          rw [rehashScan] at found
          split at found
          · cases found
          · exact List.mem_cons_of_mem _ (ih found)
      | cons e es =>
          cases found
          exact List.mem_cons_self

theorem Dict.Labels.rehashLoop (labels : d.Labels P) {num : Nat} {visits : Int} {r : Nat}
    (ran : rehashLoop num visits d = some (d', r)) : d'.Labels P := by
  induction num generalizing d visits with
  | zero =>
      cases ran
      exact labels
  | succ num ih =>
      rw [XFireDB.rehashLoop] at ran
      split at ran
      · split at ran
        · cases ran
        · obtain ⟨a, isArray, ran⟩ := Option.bind_eq_some_iff.mp ran
          obtain ⟨scan, scanned, ran⟩ := Option.bind_eq_some_iff.mp ran
          cases scan with
          | stop idx =>
              cases ran
              exact ⟨labels.primary, labels.rehash⟩
          | found idx v chain =>
              obtain ⟨d₁, moved, ran⟩ := Option.bind_eq_some_iff.mp ran
              have member := List.mem_of_mem_drop (mem_of_rehashScan scanned)
              have chain_ : ∀ e ∈ chain, P e.key := by
                intro e inside
                apply labels.primary e
                rw [DictMap.entries, isArray]
                exact List.mem_flatten_of_mem member inside
              have labels₁ := labels.moveAll chain_ moved
              have emptied : (d₁.primary.setBucket idx.toNat []).Labels P :=
                labels₁.primary.setBucket _ fun e inside => by cases inside
              dsimp only at ran
              split at ran
              · cases ran
                exact ⟨labels₁.rehash, DictMap.labels_reset⟩
              · have labels₂ : Dict.Labels P { d₁ with
                    primary := d₁.primary.setBucket idx.toNat []
                    rehashidx := idx + 1 } := ⟨emptied, labels₁.rehash⟩
                exact ih labels₂ ran
      · cases ran
        exact labels

theorem Dict.Labels.foreground (labels : d.Labels P) (fore : dictForeground d = some d') :
    d'.Labels P := by
  rw [dictForeground, dictRehashStep, dictRehash] at fore
  split at fore
  · split at fore
    · obtain ⟨⟨d₁, r⟩, ran, rfl⟩ := Option.map_eq_some_iff.mp fore
      exact labels.rehashLoop ran
    · cases fore
      exact labels
  · cases fore
    exact labels

theorem Dict.Labels.expand (labels : d.Labels P) (size : Nat) : (dictExpand d size).1.Labels P := by
  rw [dictExpand]
  split
  · exact labels
  · split
    · exact labels
    · split
      · exact ⟨DictMap.labels_alloc _, labels.rehash⟩
      · exact ⟨labels.primary, DictMap.labels_alloc _⟩

theorem Dict.Labels.expandIf (labels : d.Labels P) (g : DictGlobals) :
    (dictExpandIf g d).1.Labels P := by
  rw [dictExpandIf]
  split
  · exact labels
  · split
    · exact labels.expand _
    · split
      · exact labels.expand _
      · exact labels

/-- The new entry is called what `dict_set_key` makes of the key. -/
theorem Dict.Labels.linkKey (labels : d.Labels P) {r : Option EntryRef}
    (label : ∀ copy, dictSetKey key = some copy → P copy)
    (ran : dictLinkKey g d key = some (d', r)) : d'.Labels P := by
  obtain ⟨d₁, fore, ran⟩ := Option.bind_eq_some_iff.mp ran
  obtain ⟨⟨d₂, i⟩, index, ran⟩ := Option.bind_eq_some_iff.mp ran
  have labels₂ : d₂.Labels P := dictCalcIndex_expanded index ▸ (labels.foreground fore).expandIf g
  dsimp only at ran
  split at ran
  · cases ran
    exact labels₂
  · split at ran
    · cases ran
    · obtain ⟨copy, copied, ran⟩ := Option.bind_eq_some_iff.mp ran
      split at ran
      · obtain ⟨m, pushed, ran⟩ := Option.bind_eq_some_iff.mp ran
        cases ran
        exact ⟨labels₂.primary, labels₂.rehash.push (label copy copied) pushed⟩
      · obtain ⟨m, pushed, ran⟩ := Option.bind_eq_some_iff.mp ran
        cases ran
        exact ⟨labels₂.primary.push (label copy copied) pushed, labels₂.rehash⟩

theorem Dict.Labels.addKey (labels : d.Labels P) {size : Nat} {rc : Rc}
    (label : ∀ copy, dictSetKey key = some copy → P copy)
    (ran : rawDictAddBy (dictLinkKey g) d key data t size = some (d', rc)) : d'.Labels P := by
  obtain ⟨⟨d₁, r⟩, linked, ran⟩ := Option.bind_eq_some_iff.mp ran
  have labels₁ := labels.linkKey label linked
  cases r with
  | none =>
      cases ran
      exact labels₁
  | some e =>
      obtain ⟨d₂, written, ran⟩ := Option.bind_eq_some_iff.mp ran
      cases ran
      exact labels₁.write written

theorem DictMap.mem_of_chain {e : DictEntry} (here : m.chain key = some chain)
    (member : e ∈ chain) :
    e ∈ m.entries := by
  obtain ⟨a, isArray, read⟩ := Option.bind_eq_some_iff.mp here
  rw [entries, isArray]
  exact List.mem_flatten_of_mem (List.mem_of_getElem? read) member

/-- What `__dict_lookup` finds is an entry of this key. -/
theorem dictFind_mem {r : EntryRef} {e : DictEntry}
    (ran : dictFind d key = some (d', some (r, e))) :
    (e ∈ d'.primary.entries ∨ e ∈ d'.rehash.entries) ∧ e.key = key := by
  obtain ⟨d₁, fore, ran⟩ := Option.bind_eq_some_iff.mp ran
  rw [dictFindLocked] at ran
  split at ran
  · cases ran
  · obtain ⟨chain, here, ran⟩ := Option.bind_eq_some_iff.mp ran
    split at ran
    · rename_i hit found
      cases ran
      exact ⟨Or.inl (DictMap.mem_of_chain here (List.mem_of_find?_eq_some found)),
        by simpa using List.find?_some found⟩
    · split at ran
      · obtain ⟨chain', here', ran⟩ := Option.bind_eq_some_iff.mp ran
        cases found : chain'.find? fun e => e.key = key with
        | none =>
            rw [found] at ran
            cases ran
        | some hit =>
            rw [found] at ran
            cases ran
            exact ⟨Or.inr (DictMap.mem_of_chain here' (List.mem_of_find?_eq_some found)),
              by simpa using List.find?_some found⟩
      · cases ran

/-- A key that no entry is called is not found. -/
theorem Dict.Labels.not_found (labels : d.Labels (· ≠ key)) (v : UInt64 × Nat) :
    d.found key ≠ some (some v) := by
  intro found
  obtain ⟨⟨d₁, w⟩, looked, same⟩ := Option.map_eq_some_iff.mp found
  obtain rfl : w = some v := same
  obtain ⟨⟨d₂, r⟩, ran, same⟩ := Option.bind_eq_some_iff.mp looked
  have labels₂ := labels.foreground (dictFind_foreground ran)
  cases r with
  | none => cases same
  | some hit =>
      obtain ⟨member, isKey⟩ := dictFind_mem ran
      rcases member with first | second
      · exact labels₂.primary _ first isKey
      · exact labels₂.rehash _ second isKey

theorem Dict.labels_of_absent (absent : ¬ d.Has key) : d.Labels (· ≠ key) where
  primary e member isKey := absent ⟨e, List.mem_append_left _ member, isKey⟩
  rehash e member isKey := absent ⟨e, List.mem_append_right _ member, isKey⟩

end Labels

/-! ## The length a look-up returns -/

/-- The dictionary after an event with the calls that carry a length, for keys of
any length. -/
def rawDictKeyStep (g : DictGlobals) (d : Dict) : RawDictEvent → Option Dict
  | .event e => dictKeyStep g d e
  | .rawAdd key data t size =>
      if d.heapHolds (.add key data t) then (rawDictAddKey g d key data t size).map Prod.fst
      else none
  | .rawUpdate key data t l =>
      if d.heapHolds (.update key data t) then (rawDictUpdateKey g d key data t l).map Prod.fst
      else none

/-- The keys that the event stores are copied whole. -/
def RawDictEvent.Short : RawDictEvent → Prop
  | .event e => e.Short
  | .rawAdd key _ _ _ => key.Short
  | .rawUpdate key _ _ _ => key.Short

theorem rawDictKeyStep_of_short {e : RawDictEvent} (short : e.Short) :
    rawDictKeyStep g d e = rawDictStep g d e := by
  cases e with
  | event e => exact dictKeyStep_of_short short
  | rawAdd key data t size =>
      simp only [rawDictKeyStep, rawDictStep, rawDictAddKey_of_short g d short]
  | rawUpdate key data t l =>
      simp only [rawDictKeyStep, rawDictStep, rawDictUpdateKey_of_short g d short]

theorem rawReachable_of_short
    (run : Reach (rawDictKeyStep g) (fun _ e => e.Short) dictAlloc d) :
    Reachable (rawDictStep g) dictAlloc d := by
  induction run with
  | init => exact .init
  | next _ short fired ih =>
      exact .next ih trivial ((rawDictKeyStep_of_short short).symm.trans fired)

/-- With the key in the dictionary nothing is linked. -/
theorem rawDictUpdateKey_of_present (inv : d.Inv) (has : d.Has key) :
    rawDictUpdateKey g d key data t l = rawDictUpdate g d key data t l := by
  obtain ⟨d₁, _, _, ⟨unbound, _⟩ | ⟨r, e, find, _⟩⟩ := inv.dictFind key
  · exact absurd unbound (Dict.has_iff.mp has)
  · simp only [rawDictUpdateKey, rawDictUpdate, rawDictUpdateBy, find, Option.bind_eq_bind,
      Option.bind_some]

/-- An absent key that is cut is not found after the update. -/
theorem Dict.Inv.not_stores_of_cut (inv : d.Inv) (absent : ¬ d.Has key)
    (cut : ¬ key.Short) {rc : Rc}
    (ran : rawDictUpdateKey g d key data t l = some (d', rc)) (v : UInt64) (m : Nat) :
    ¬ d.Stores d' key v m := by
  obtain ⟨d₁, _, perm, ⟨_, find⟩ | ⟨r, e, find, _, _, bound, _⟩⟩ := inv.dictFind key
  · have other : ∀ copy, dictSetKey key = some copy → copy ≠ key := by
      intro copy copied same
      obtain rfl := same
      exact cut (short_of_intCopy copied)
    rw [rawDictUpdateKey, rawDictUpdateBy, find] at ran
    have labels := Dict.labels_of_absent fun has => absent ((Dict.Has.of_perm perm).mp has)
    exact fun stores => (labels.addKey other ran).not_found _ stores.1
  · exact absurd (Dict.has_iff.mpr (by rw [bound]; exact Option.some_ne_none _)) absent

/-- From every state that a run over keys copied whole reaches, a `raw_dict_update` of
any key that returns OK stores the value with the given length exactly if the key was
there, or it is copied whole and the length is the one its type has. -/
theorem rawDictUpdate_stores_iff
    (reached : Reach (rawDictKeyStep g) (fun _ e => e.Short) dictAlloc d)
    (ran : rawDictUpdateKey g d key data t l = some (d', .ok)) :
    d.Stores d' key (dictVal data t) l ↔ d.Has key ∨ (key.Short ∧ l = dictGetEntryLength t) := by
  have sound := Dict.sound_of_reachable (rawReachable_of_short reached)
  by_cases has : d.Has key
  · rw [rawDictUpdateKey_of_present sound.inv has] at ran
    obtain ⟨kept, _, present, _⟩ := sound.inv.rawDictUpdate_returned sound.room ran
    rw [sound.inv.stores_iff kept.inv (present rfl has)]
    exact iff_of_true ⟨rfl, rfl⟩ (Or.inl has)
  · by_cases short : key.Short
    · rw [rawDictUpdateKey_of_short g d short] at ran
      obtain ⟨kept, _, _, absent⟩ := sound.inv.rawDictUpdate_returned sound.room ran
      rw [sound.inv.stores_iff kept.inv (absent rfl has)]
      constructor
      · intro found
        exact Or.inr ⟨short, found.2.symm⟩
      · intro either
        rcases either with there | whole
        · exact absurd there has
        · exact ⟨rfl, whole.2.symm⟩
    · refine iff_of_false (sound.inv.not_stores_of_cut has short ran _ _) ?_
      intro either
      rcases either with there | whole
      · exact has there
      · exact short whole.1

/-- `a` is bound to a value of three bytes. -/
def threeBytes : List RawDictEvent := [.rawAdd (letterKey 0) ⟨7, 0⟩ .ptr 3]

theorem rawDictUpdate_stores_threeBytes :
    ∃ d d', runEvents (rawDictKeyStep .initial) dictAlloc threeBytes = some d ∧
      rawDictUpdateKey .initial d (letterKey 0) ⟨9, 0⟩ .ptr 5 = some (d', .ok) ∧
      d.Stores d' (letterKey 0) (dictVal ⟨9, 0⟩ .ptr) 5 := by
  have short : RawDictEvent.Short (.rawAdd (letterKey 0) ⟨7, 0⟩ .ptr 3) := by
    show (letterKey 0).Short
    decide
  have first : rawDictKeyStep .initial dictAlloc (.rawAdd (letterKey 0) ⟨7, 0⟩ .ptr 3) =
      some (chainOfA [⟨letterKey 0, 7, 3⟩]) := rfl
  exact ⟨_, _, rfl, rfl,
    (rawDictUpdate_stores_iff (g := .initial) (.next .init short first) rfl).mpr
    (Or.inl ⟨⟨letterKey 0, 7, 3⟩, by decide, rfl⟩)⟩

/-- An update that inserts `a` with a length of five stores eight. -/
theorem rawDictUpdate_inserts_eight :
    ∃ d', rawDictUpdateKey .initial dictAlloc (letterKey 0) ⟨9, 0⟩ .ptr 5 = some (d', .ok) ∧
      ¬ Dict.Stores dictAlloc d' (letterKey 0) 9 5 := by
  refine ⟨_, rfl, ?_⟩
  intro found
  rcases found with ⟨found, _⟩
  exact absurd found (by decide)

end XFireDB
