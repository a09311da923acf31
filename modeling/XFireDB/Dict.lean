import XFireDB.Hash

/-!
# The dictionary

`dict.c` as pure state passing.  A bucket is its chain of entries, head first;
a table is the bucket array together with the three counters the source keeps
beside it, and `none` is the `NULL` array.  A step that reads outside an array,
dereferences `NULL` or fails an `assert` has no result (`none`).

`long` counters are unbounded integers; `unsigned long` sizes are computed
modulo `2^64` where `dict_real_size` can wrap.  Locks and the condition
variable are absent: each call here is one that runs without overlap.
-/

namespace XFireDB

/-- `dict_type_t`. -/
inductive DictType
  | ptr
  | u64
  | s64
  | flt
deriving DecidableEq, Repr

/-- The `data` argument of an insertion: the pointer itself and the eight bytes
it points to. -/
structure DictArg where
  addr : UInt64
  pointee : UInt64
deriving DecidableEq, Repr

/-- `struct dict_entry`; the union is its eight bytes.  The `type` field is
never read or written and is left out. -/
structure DictEntry where
  key : CStr
  value : UInt64
  length : Nat
deriving DecidableEq

/-- `struct dict_map`. -/
structure DictMap where
  array : Option (List (List DictEntry))
  size : Nat
  sizemask : Nat
  length : Int
deriving DecidableEq

/-- `struct dict`, without the worker's synchronisation fields. -/
structure Dict where
  primary : DictMap
  rehash : DictMap
  rehashidx : Int
  rehashing : Bool
  iterators : Int
deriving DecidableEq

/-- The file-level settings `dict_resize_ratio` and `dict_can_expand`. -/
structure DictGlobals where
  resizeRatio : Int
  canExpand : Bool
deriving DecidableEq, Repr

/-- Their initial values. -/
def DictGlobals.initial : DictGlobals := ⟨5, true⟩

/-- `DICT_MINIMAL_SIZE`. -/
def dictMinimalSize : Nat := 4

/-! ## Tables -/

/-- `map->array[idx]` read. -/
def DictMap.bucket (m : DictMap) (idx : Nat) : Option (List DictEntry) :=
  m.array.bind fun a => a[idx]?

/-- `map->array[idx] = chain`. -/
def DictMap.setBucket (m : DictMap) (idx : Nat) (chain : List DictEntry) : DictMap :=
  { m with array := m.array.map fun a => a.set idx chain }

/-- `dict_reset`: the all-zero table. -/
def dictReset : DictMap := ⟨none, 0, 0, 0⟩

/-- A freshly allocated table of `size` empty buckets. -/
def DictMap.alloc (size : Nat) : DictMap :=
  ⟨some (List.replicate size []), size, size - 1, 0⟩

/-- `hash & map->sizemask`, a `u32`. -/
def DictMap.index (m : DictMap) (key : CStr) : Nat :=
  (dictHashKey key dictSeed).toNat &&& m.sizemask

/-- `dict_alloc` and `dict_init`. -/
def dictAlloc : Dict where
  primary := DictMap.alloc dictMinimalSize
  rehash := dictReset
  rehashidx := 0
  rehashing := false
  iterators := 0

/-! ## Rehashing -/

/-- Where the scan over `NULL` buckets ends: the visit budget ran out at an
index, or a non-empty bucket was found with some budget left. -/
inductive RehashScan
  | stop (idx : Int)
  | found (idx : Int) (visits : Int) (chain : List DictEntry)
deriving DecidableEq

/-- The inner `while` of `dict_rehash`, over the buckets from `rehashidx` on.
Running off the array has no result. -/
def rehashScan : List (List DictEntry) → Int → Int → Option RehashScan
  | [], _, _ => none
  | [] :: rest, idx, visits =>
      if visits - 1 = 0 then some (.stop (idx + 1)) else rehashScan rest (idx + 1) (visits - 1)
  | (e :: es) :: _, idx, visits => some (.found idx visits (e :: es))

/-- Move one entry to the head of its chain in the new table. -/
def rehashMove (d : Dict) (e : DictEntry) : Option Dict := do
  let idx := d.rehash.index e.key
  let chain ← d.rehash.bucket idx
  some { d with
    rehash := { d.rehash.setBucket idx (e :: chain) with length := d.rehash.length + 1 }
    primary := { d.primary with length := d.primary.length - 1 } }

/-- The outer `while` of `dict_rehash`; the number is its return value. -/
def rehashLoop : Nat → Int → Dict → Option (Dict × Nat)
  | 0, _, d => some (d, 1)
  | num + 1, visits, d =>
      if 0 < d.primary.length then
        -- the assert, and the first array access below it
        if d.rehashidx < 0 ∨ (d.primary.size : Int) ≤ d.rehashidx then none
        else do
          let a ← d.primary.array
          match ← rehashScan (a.drop d.rehashidx.toNat) d.rehashidx visits with
          | .stop idx => some ({ d with rehashidx := idx }, 1)
          | .found idx visits chain => do
              let d ← chain.foldlM rehashMove d
              let d := { d with
                primary := d.primary.setBucket idx.toNat []
                rehashidx := idx + 1 }
              if d.primary.length = 0 then
                some ({ d with
                  primary := d.rehash
                  rehash := dictReset
                  rehashidx := -1
                  rehashing := false }, 0)
              else rehashLoop num visits d
      else some (d, 1)

def dictRehash (d : Dict) (num : Nat) : Option (Dict × Nat) :=
  if d.rehashing then rehashLoop num (num * 10) d else some (d, 0)

/-- `dict_rehash_step`: the foreground step, suppressed by safe iterators. -/
def dictRehashStep (d : Dict) : Option Dict :=
  if d.iterators = 0 then (dictRehash d 1).map Prod.fst else some d

/-- The prologue of insertion, deletion and lookup. -/
def dictForeground (d : Dict) : Option Dict :=
  if d.rehashing then dictRehashStep d else some d

/-! ## Expansion -/

/-- `LONG_MAX` on a 64-bit build. -/
def longMax : Nat := 2 ^ 63 - 1

/-- `dict_real_size` on an `unsigned long`. -/
def dictRealSize (size : Nat) : Nat :=
  if longMax ≤ size then longMax
  else
    let s := (size + (2 ^ 64 - 1)) % 2 ^ 64
    let s := s ||| s >>> 1
    let s := s ||| s >>> 2
    let s := s ||| s >>> 4
    let s := s ||| s >>> 8
    let s := s ||| s >>> 16
    let s := s ||| s >>> 32
    (s + 1) % 2 ^ 64

def dictExpand (d : Dict) (size : Nat) : Dict × Rc :=
  let size' := dictRealSize size
  if d.rehashing ∨ (size : Int) < d.primary.length then (d, .err)
  else if d.primary.size = size' then (d, .err)
  else if d.primary.array = none then ({ d with primary := DictMap.alloc size' }, .ok)
  else ({ d with rehash := DictMap.alloc size', rehashidx := 0, rehashing := true }, .ok)

def dictShouldExpand (g : DictGlobals) (d : Dict) : Bool :=
  decide ((d.primary.size : Int) ≤ d.primary.length) &&
    (g.canExpand || decide (d.primary.length.tdiv d.primary.size < g.resizeRatio))

def dictExpandIf (g : DictGlobals) (d : Dict) : Dict × Rc :=
  if d.rehashing then (d, .ok)
  else if d.primary.size = 0 then dictExpand d dictMinimalSize
  else if dictShouldExpand g d then dictExpand d (d.primary.length * 2).toNat
  else (d, .ok)

/-! ## Insertion -/

/-- The chain of `key` in a table. -/
def DictMap.chain (m : DictMap) (key : CStr) : Option (List DictEntry) :=
  m.bucket (m.index key)

/-- Walk a chain for an entry with this key. -/
def chainHas (chain : List DictEntry) (key : CStr) : Bool :=
  chain.any fun e => e.key = key

/-- Conversion of a `u32` to `int`, as in `return idx`. -/
def intOfU32 (n : Nat) : Int := if n < 2 ^ 31 then n else n - 2 ^ 32

/-- `dict_calc_index`: an index for a new key, or `-1`. -/
def dictCalcIndex (g : DictGlobals) (d : Dict) (key : CStr) : Option (Dict × Int) := do
  let (d, rc) := dictExpandIf g d
  if rc = .err then some (d, -1)
  else
    let chain ← d.primary.chain key
    if chainHas chain key then some (d, -1)
    else if d.rehashing then
      let chain ← d.rehash.chain key
      if chainHas chain key then some (d, -1)
      else some (d, intOfU32 (d.rehash.index key))
    else some (d, intOfU32 (d.primary.index key))

/-- A pointer to an entry: the table it is in, and its key within the chain of
that key. -/
structure EntryRef where
  inRehash : Bool
  key : CStr
deriving DecidableEq

/-- Push an entry on chain `index` of a table. -/
def DictMap.push (m : DictMap) (index : Nat) (e : DictEntry) : Option DictMap := do
  let chain ← m.bucket index
  some { m.setBucket index (e :: chain) with length := m.length + 1 }

/-- `dict_set_key`. -/
def dictSetKey (key : CStr) : Option CStr := intCopy key

/-- The part of `__dict_add` that runs under the lock, with the copy of the key that
the entry gets: link a zeroed entry and return a pointer to it. -/
def dictLinkCopy (g : DictGlobals) (d : Dict) (key : CStr) (copy : Option CStr) :
    Option (Dict × Option EntryRef) := do
  let (d, index) ← dictCalcIndex g d key
  if index = -1 then some (d, none)
  else if index < 0 then none
  else
    let label ← copy
    if d.rehashing then
      let m ← d.rehash.push index.toNat ⟨label, 0, 0⟩
      some ({ d with rehash := m }, some ⟨true, label⟩)
    else
      let m ← d.primary.push index.toNat ⟨label, 0, 0⟩
      some ({ d with primary := m }, some ⟨false, label⟩)

/-- The same for a key that `dict_set_key` copies whole. -/
def dictLinkLocked (g : DictGlobals) (d : Dict) (key : CStr) : Option (Dict × Option EntryRef) :=
  dictLinkCopy g d key (some key)

theorem dictLinkLocked_eq (g : DictGlobals) (d : Dict) (key : CStr) :
    dictLinkLocked g d key = (do
      let (d, index) ← dictCalcIndex g d key
      if index = -1 then some (d, none)
      else if index < 0 then none
      else if d.rehashing then
        let m ← d.rehash.push index.toNat ⟨key, 0, 0⟩
        some ({ d with rehash := m }, some ⟨true, key⟩)
      else
        let m ← d.primary.push index.toNat ⟨key, 0, 0⟩
        some ({ d with primary := m }, some ⟨false, key⟩)) := rfl

/-- `__dict_add` for a key that `dict_set_key` copies whole. -/
def dictLink (g : DictGlobals) (d : Dict) (key : CStr) : Option (Dict × Option EntryRef) := do
  let d ← dictForeground d
  dictLinkLocked g d key

/-- `__dict_add` for any key. -/
def dictLinkKey (g : DictGlobals) (d : Dict) (key : CStr) : Option (Dict × Option EntryRef) := do
  let d ← dictForeground d
  dictLinkCopy g d key (dictSetKey key)

theorem dictLink_eq (g : DictGlobals) (d : Dict) (key : CStr) :
    dictLink g d key = (dictForeground d).bind fun d => dictLinkLocked g d key := rfl

theorem dictLinkKey_of_short (g : DictGlobals) (d : Dict) {key : CStr} (short : key.Short) :
    dictLinkKey g d key = dictLink g d key := by
  simp only [dictLinkKey, dictLink, dictLinkLocked, dictSetKey, intCopy_of_short short]

/-- The value `dict_set_val` stores. -/
def dictVal (data : DictArg) : DictType → UInt64
  | .ptr => data.addr
  | .u64 => data.pointee
  | .s64 => data.pointee
  | .flt => data.pointee

/-- `dict_get_entry_length`. -/
def dictGetEntryLength : DictType → Nat
  | .ptr => 8
  | .u64 => 8
  | .s64 => 8
  | .flt => 8

/-- Write value and length into the entry with this key of a chain. -/
def chainSet (key : CStr) (value : UInt64) (length : Nat) : List DictEntry → List DictEntry
  | [] => []
  | e :: es =>
      if e.key = key then { e with value := value, length := length } :: es
      else e :: chainSet key value length es

def DictMap.write (m : DictMap) (key : CStr) (value : UInt64) (length : Nat) : Option DictMap := do
  let chain ← m.chain key
  some (m.setBucket (m.index key) (chainSet key value length chain))

/-- `dict_set_val(e, data, t); e->length = l` through an entry pointer. -/
def Dict.write (d : Dict) (r : EntryRef) (value : UInt64) (length : Nat) : Option Dict :=
  if r.inRehash then do
    let m ← d.rehash.write r.key value length
    some { d with rehash := m }
  else do
    let m ← d.primary.write r.key value length
    some { d with primary := m }

/-- `raw_dict_add` over a function that links the entry. -/
def rawDictAddBy (link : Dict → CStr → Option (Dict × Option EntryRef)) (d : Dict) (key : CStr)
    (data : DictArg) (t : DictType) (size : Nat) : Option (Dict × Rc) := do
  match ← link d key with
  | (d, none) => some (d, .err)
  | (d, some e) =>
      let d ← d.write e (dictVal data t) size
      some (d, .ok)

def rawDictAdd (g : DictGlobals) (d : Dict) (key : CStr) (data : DictArg) (t : DictType)
    (size : Nat) : Option (Dict × Rc) :=
  rawDictAddBy (dictLink g) d key data t size

def dictAdd (g : DictGlobals) (d : Dict) (key : CStr) (data : DictArg) (t : DictType) :
    Option (Dict × Rc) :=
  rawDictAdd g d key data t (dictGetEntryLength t)

/-! ## Deletion -/

/-- Unlink the first entry with this key from a chain. -/
def chainUnlink (key : CStr) : List DictEntry → Option (DictEntry × List DictEntry)
  | [] => none
  | e :: es =>
      if e.key = key then some (e, es)
      else (chainUnlink key es).map fun (x, rest) => (x, e :: rest)

/-- The body of the table loop of `__dict_delete` for one table. -/
def DictMap.unlink (m : DictMap) (key : CStr) : Option (DictMap × Option DictEntry) := do
  let chain ← m.chain key
  match chainUnlink key chain with
  | some (e, rest) =>
      some ({ m.setBucket (m.index key) rest with length := m.length - 1 }, some e)
  | none => some (m, none)

/-- `__dict_delete`. -/
def dictUnlink (d : Dict) (key : CStr) : Option (Dict × Option DictEntry) := do
  let d ← dictForeground d
  if d.primary.size = 0 then some (d, none)
  else
    match ← d.primary.unlink key with
    | (m, some e) => some ({ d with primary := m }, some e)
    | (_, none) =>
        if d.rehashing then
          let (m, e) ← d.rehash.unlink key
          some ({ d with rehash := m }, e)
        else some (d, none)

/-- `dict_delete` with `free` false: the deleted value. -/
def dictDelete (d : Dict) (key : CStr) : Option (Dict × Option UInt64) := do
  let (d, e) ← dictUnlink d key
  some (d, e.map DictEntry.value)

/-! ## Lookup and update -/

/-- The part of `__dict_lookup` that runs under the lock: a pointer to the entry,
with the entry it points to. -/
def dictFindLocked (d : Dict) (key : CStr) : Option (Dict × Option (EntryRef × DictEntry)) := do
  if d.primary.size = 0 then some (d, none)
  else
    let chain ← d.primary.chain key
    match chain.find? fun e => e.key = key with
    | some e => some (d, some (⟨false, key⟩, e))
    | none =>
        if d.rehashing then
          let chain ← d.rehash.chain key
          some (d, (chain.find? fun e => e.key = key).map fun e => (⟨true, key⟩, e))
        else some (d, none)

/-- `__dict_lookup`. -/
def dictFind (d : Dict) (key : CStr) : Option (Dict × Option (EntryRef × DictEntry)) := do
  let d ← dictForeground d
  dictFindLocked d key

theorem dictFind_eq (d : Dict) (key : CStr) :
    dictFind d key = (dictForeground d).bind fun d => dictFindLocked d key := rfl

/-- `dict_lookup`: the stored value and its size. -/
def dictLookup (d : Dict) (key : CStr) : Option (Dict × Option (UInt64 × Nat)) := do
  let (d, e) ← dictFind d key
  some (d, e.map fun (_, e) => (e.value, e.length))

/-- `raw_dict_update` over a function that links the entry.  A missing key goes
through `dict_add`, which computes the length itself. -/
def rawDictUpdateBy (link : Dict → CStr → Option (Dict × Option EntryRef)) (d : Dict) (key : CStr)
    (data : DictArg) (t : DictType) (l : Nat) : Option (Dict × Rc) := do
  match ← dictFind d key with
  | (d, none) => rawDictAddBy link d key data t (dictGetEntryLength t)
  | (d, some (e, _)) =>
      let d ← d.write e (dictVal data t) l
      some (d, .ok)

def rawDictUpdate (g : DictGlobals) (d : Dict) (key : CStr) (data : DictArg) (t : DictType)
    (l : Nat) : Option (Dict × Rc) :=
  rawDictUpdateBy (dictLink g) d key data t l

def dictUpdate (g : DictGlobals) (d : Dict) (key : CStr) (data : DictArg) (t : DictType) :
    Option (Dict × Rc) :=
  rawDictUpdate g d key data t (dictGetEntryLength t)

/-! ## Keys of any length

The calls as they are for every key: the entry gets the copy that `dict_set_key`
makes of it. -/

def rawDictAddKey (g : DictGlobals) (d : Dict) (key : CStr) (data : DictArg) (t : DictType)
    (size : Nat) : Option (Dict × Rc) :=
  rawDictAddBy (dictLinkKey g) d key data t size

def dictAddKey (g : DictGlobals) (d : Dict) (key : CStr) (data : DictArg) (t : DictType) :
    Option (Dict × Rc) :=
  rawDictAddKey g d key data t (dictGetEntryLength t)

def rawDictUpdateKey (g : DictGlobals) (d : Dict) (key : CStr) (data : DictArg) (t : DictType)
    (l : Nat) : Option (Dict × Rc) :=
  rawDictUpdateBy (dictLinkKey g) d key data t l

def dictUpdateKey (g : DictGlobals) (d : Dict) (key : CStr) (data : DictArg) (t : DictType) :
    Option (Dict × Rc) :=
  rawDictUpdateKey g d key data t (dictGetEntryLength t)

theorem rawDictAddKey_of_short (g : DictGlobals) (d : Dict) {key : CStr} (short : key.Short)
    (data : DictArg) (t : DictType) (size : Nat) :
    rawDictAddKey g d key data t size = rawDictAdd g d key data t size := by
  simp only [rawDictAddKey, rawDictAdd, rawDictAddBy, dictLinkKey_of_short g d short]

theorem rawDictUpdateKey_of_short (g : DictGlobals) (d : Dict) {key : CStr} (short : key.Short)
    (data : DictArg) (t : DictType) (l : Nat) :
    rawDictUpdateKey g d key data t l = rawDictUpdate g d key data t l := by
  simp only [rawDictUpdateKey, rawDictUpdate, rawDictUpdateBy, rawDictAddBy,
    dictLinkKey_of_short g _ short]

/-! ## Clearing, size, iterators -/

/-- `dict_clear`.  Freeing the entries of a table leaves the reset table. -/
def dictClear (d : Dict) : Dict :=
  { d with primary := dictReset, rehash := dictReset, rehashidx := -1, rehashing := false }

def dictGetSize (d : Dict) : Int := d.primary.length + d.rehash.length

/-- `dict_get_safe_iterator`, as far as the dictionary is concerned. -/
def dictGetSafeIterator (d : Dict) : Dict := { d with iterators := d.iterators + 1 }

/-- `dict_iterator_free` of a safe iterator. -/
def dictIteratorFree (d : Dict) : Dict := { d with iterators := d.iterators - 1 }

end XFireDB
