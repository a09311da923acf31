import XFireDB.RString

/-!
# Key slots

`KeyShard`: the slots a node owns and the keys it holds.  A key belongs to the
slot `crc16(key) % 16384`, written in decimal.
-/

namespace XFireDB

/-! ## The checksum -/

def crc16tab : List UInt16 :=
  [ 0x0000, 0x1021, 0x2042, 0x3063, 0x4084, 0x50a5, 0x60c6, 0x70e7,
    0x8108, 0x9129, 0xa14a, 0xb16b, 0xc18c, 0xd1ad, 0xe1ce, 0xf1ef,
    0x1231, 0x0210, 0x3273, 0x2252, 0x52b5, 0x4294, 0x72f7, 0x62d6,
    0x9339, 0x8318, 0xb37b, 0xa35a, 0xd3bd, 0xc39c, 0xf3ff, 0xe3de,
    0x2462, 0x3443, 0x0420, 0x1401, 0x64e6, 0x74c7, 0x44a4, 0x5485,
    0xa56a, 0xb54b, 0x8528, 0x9509, 0xe5ee, 0xf5cf, 0xc5ac, 0xd58d,
    0x3653, 0x2672, 0x1611, 0x0630, 0x76d7, 0x66f6, 0x5695, 0x46b4,
    0xb75b, 0xa77a, 0x9719, 0x8738, 0xf7df, 0xe7fe, 0xd79d, 0xc7bc,
    0x48c4, 0x58e5, 0x6886, 0x78a7, 0x0840, 0x1861, 0x2802, 0x3823,
    0xc9cc, 0xd9ed, 0xe98e, 0xf9af, 0x8948, 0x9969, 0xa90a, 0xb92b,
    0x5af5, 0x4ad4, 0x7ab7, 0x6a96, 0x1a71, 0x0a50, 0x3a33, 0x2a12,
    0xdbfd, 0xcbdc, 0xfbbf, 0xeb9e, 0x9b79, 0x8b58, 0xbb3b, 0xab1a,
    0x6ca6, 0x7c87, 0x4ce4, 0x5cc5, 0x2c22, 0x3c03, 0x0c60, 0x1c41,
    0xedae, 0xfd8f, 0xcdec, 0xddcd, 0xad2a, 0xbd0b, 0x8d68, 0x9d49,
    0x7e97, 0x6eb6, 0x5ed5, 0x4ef4, 0x3e13, 0x2e32, 0x1e51, 0x0e70,
    0xff9f, 0xefbe, 0xdfdd, 0xcffc, 0xbf1b, 0xaf3a, 0x9f59, 0x8f78,
    0x9188, 0x81a9, 0xb1ca, 0xa1eb, 0xd10c, 0xc12d, 0xf14e, 0xe16f,
    0x1080, 0x00a1, 0x30c2, 0x20e3, 0x5004, 0x4025, 0x7046, 0x6067,
    0x83b9, 0x9398, 0xa3fb, 0xb3da, 0xc33d, 0xd31c, 0xe37f, 0xf35e,
    0x02b1, 0x1290, 0x22f3, 0x32d2, 0x4235, 0x5214, 0x6277, 0x7256,
    0xb5ea, 0xa5cb, 0x95a8, 0x8589, 0xf56e, 0xe54f, 0xd52c, 0xc50d,
    0x34e2, 0x24c3, 0x14a0, 0x0481, 0x7466, 0x6447, 0x5424, 0x4405,
    0xa7db, 0xb7fa, 0x8799, 0x97b8, 0xe75f, 0xf77e, 0xc71d, 0xd73c,
    0x26d3, 0x36f2, 0x0691, 0x16b0, 0x6657, 0x7676, 0x4615, 0x5634,
    0xd94c, 0xc96d, 0xf90e, 0xe92f, 0x99c8, 0x89e9, 0xb98a, 0xa9ab,
    0x5844, 0x4865, 0x7806, 0x6827, 0x18c0, 0x08e1, 0x3882, 0x28a3,
    0xcb7d, 0xdb5c, 0xeb3f, 0xfb1e, 0x8bf9, 0x9bd8, 0xabbb, 0xbb9a,
    0x4a75, 0x5a54, 0x6a37, 0x7a16, 0x0af1, 0x1ad0, 0x2ab3, 0x3a92,
    0xfd2e, 0xed0f, 0xdd6c, 0xcd4d, 0xbdaa, 0xad8b, 0x9de8, 0x8dc9,
    0x7c26, 0x6c07, 0x5c64, 0x4c45, 0x3ca2, 0x2c83, 0x1ce0, 0x0cc1,
    0xef1f, 0xff3e, 0xcf5d, 0xdf7c, 0xaf9b, 0xbfba, 0x8fd9, 0x9ff8,
    0x6e17, 0x7e36, 0x4e55, 0x5e74, 0x2e93, 0x3eb2, 0x0ed1, 0x1ef0 ]

/-- `xfiredb_crc16`.  The length is an `int`: from `2^31` bytes on it is
negative and nothing is read. -/
def xfiredbCrc16 (str : CStr) : UInt16 :=
  let len := Int.bmod str.bytes.length (2 ^ 32)
  (str.bytes.take len.toNat).foldl
    (fun crc b => (crc <<< 8) ^^^ crc16tab.getD (((crc >>> 8) ^^^ b.toUInt16) &&& 0x00FF).toNat 0) 0

/-- `Digest.crc16`. -/
def crc16 (str : RStr) : Except Raise UInt16 := (stringValueCStr str).map xfiredbCrc16

/-- `KeyShard.key_to_slot`. -/
def keyToSlot (key : RStr) : Except Raise RStr :=
  (crc16 key).map fun crc => natToS (crc.toNat % 16384)

/-- The slots `'0'..'16383'`. -/
@[irreducible] def allSlots : List RStr := (List.range 16384).map natToS

theorem keyToSlot_mem_allSlots {key slot : RStr} (known : keyToSlot key = .ok slot) :
    slot ∈ allSlots := by
  rw [keyToSlot] at known
  cases crc : crc16 key with
  | error e => simp [crc, Except.map] at known
  | ok c =>
      rw [crc] at known
      obtain rfl := Except.ok.inj known
      unfold allSlots
      exact List.mem_map.mpr ⟨_, List.mem_range.mpr (Nat.mod_lt _ (by decide)), rfl⟩

/-- The digits of a number are the bytes `'0'..'9'`. -/
theorem toNat_of_mem_toDigits {n : Nat} {c : Char} (digit : c ∈ Nat.toDigits 10 n) :
    48 ≤ c.toNat ∧ c.toNat ≤ 57 := by
  have isDigit := Nat.isDigit_of_mem_toDigits (by decide) (by decide) digit
  simpa [Char.isDigit, UInt32.le_iff_toNat_le] using isDigit

theorem isDigit_of_mem_natToS {n : Nat} {b : UInt8} (member : b ∈ natToS n) : isDigit b = true := by
  obtain ⟨c, digit, rfl⟩ := List.mem_map.mp member
  obtain ⟨low, high⟩ := toNat_of_mem_toDigits digit
  generalize c.toNat = m at low high
  interval_cases m <;> rfl

theorem unsigned_of_ne {b : UInt8} (noPlus : b ≠ 43) (noMinus : b ≠ 45) (s : RStr) :
    unsigned (b :: s) = b :: s := by
  unfold unsigned
  split
  · rename_i sign
    exact absurd (List.head_eq_of_cons_eq sign) noPlus
  · rename_i sign
    exact absurd (List.head_eq_of_cons_eq sign) noMinus
  · rfl

theorem natToS_ne_nil (n : Nat) : natToS n ≠ [] := by
  simp [natToS, Nat.toDigits_ne_nil]

/-- A number has no sign. -/
theorem unsigned_natToS (n : Nat) :
    unsigned (natToS n) = natToS n ∧ (natToS n).head? ≠ some 45 := by
  cases shape : natToS n with
  | nil => exact absurd shape (natToS_ne_nil n)
  | cons b rest =>
      have digit : isDigit b = true := isDigit_of_mem_natToS (shape ▸ List.mem_cons_self)
      have noMinus : b ≠ 45 := by
        intro same
        obtain rfl := same
        cases digit
      refine ⟨unsigned_of_ne ?_ noMinus rest, by simpa using noMinus⟩
      intro same
      obtain rfl := same
      cases digit

/-- The digits of a number spell it. -/
theorem foldl_natToS (n : Nat) :
    (natToS n).foldl (fun acc b => 10 * acc + ((b.toNat : Int) - 48)) 0 = n := by
  have spelled : ∀ (l : List Char) (acc : Nat), (∀ c ∈ l, c ∈ Nat.toDigits 10 n) →
      (l.map fun c => UInt8.ofNat c.toNat).foldl
      (fun acc b => 10 * acc + ((b.toNat : Int) - 48)) acc =
        Nat.ofDigitChars 10 l acc := by
    intro l
    induction l with
    | nil =>
        intro acc _
        rw [List.map_nil, List.foldl_nil, Nat.ofDigitChars_nil]
    | cons c l ih =>
        intro acc digits
        obtain ⟨low, high⟩ := toNat_of_mem_toDigits (digits c List.mem_cons_self)
        have byte : (UInt8.ofNat c.toNat).toNat = c.toNat :=
          UInt8.toNat_ofNat_of_lt' (lt_of_le_of_lt high (by decide))
        have next : 10 * (acc : Int) + ((UInt8.ofNat c.toNat).toNat - 48) =
            ((10 * acc + (c.toNat - '0'.toNat) : Nat) : Int) := by
          have zero : '0'.toNat = 48 := rfl
          omega
        rw [List.map_cons, List.foldl_cons, next,
          ih _ fun d member => digits d (List.mem_cons_of_mem c member), Nat.ofDigitChars_cons]
  have whole := spelled (Nat.toDigits 10 n) 0 fun c member => member
  rw [Nat.ofDigitChars_ten_toDigits] at whole
  exact whole

theorem isI_natToS (n : Nat) : isI (natToS n) = true := by
  rw [isI, (unsigned_natToS n).1]
  simpa using ⟨natToS_ne_nil n, fun b member => isDigit_of_mem_natToS member⟩

theorem toI_natToS (n : Nat) : toI (natToS n) = n := by
  obtain ⟨noSign, positive⟩ := unsigned_natToS n
  simp only [toI, noSign, if_neg positive]
  exact foldl_natToS n

theorem isWord_natToS (n : Nat) : IsWord (natToS n) := by
  refine ⟨natToS_ne_nil n, ?_⟩
  intro b member
  obtain ⟨c, digit, rfl⟩ := List.mem_map.mp member
  obtain ⟨low, high⟩ := toNat_of_mem_toDigits digit
  generalize c.toNat = m at low high
  interval_cases m <;> rfl

theorem nulFree_natToS (n : Nat) : 0 ∉ natToS n := by
  intro member
  obtain ⟨c, digit, nul⟩ := List.mem_map.mp member
  obtain ⟨low, high⟩ := toNat_of_mem_toDigits digit
  generalize c.toNat = m at low high nul
  interval_cases m <;> cases nul

theorem natToS_injective : Function.Injective natToS := by
  -- reading the bytes as characters again gives the digits back
  have readBack : ∀ n, (natToS n).map (fun b => Char.ofNat b.toNat) = Nat.toDigits 10 n := by
    intro n
    rw [natToS, List.map_map]
    refine (List.map_congr_left (g := id) ?_).trans (List.map_id _)
    intro c digit
    have small : c.toNat < UInt8.size :=
      lt_of_le_of_lt (toNat_of_mem_toDigits digit).2 (by decide)
    rw [Function.comp_apply, UInt8.toNat_ofNat_of_lt' small, Char.ofNat_toNat, id]
  intro m n same
  have digits : Nat.toDigits 10 m = Nat.toDigits 10 n := by rw [← readBack, ← readBack, same]
  rw [← Nat.ofDigitChars_ten_toDigits (n := m), digits, Nat.ofDigitChars_ten_toDigits]

theorem nodup_allSlots : allSlots.Nodup := by
  unfold allSlots
  exact List.nodup_range.map natToS_injective

theorem length_allSlots : allSlots.length = 16384 := by
  unfold allSlots
  rw [List.length_map, List.length_range]

theorem isWord_of_mem_allSlots {slot : RStr} (member : slot ∈ allSlots) : IsWord slot := by
  unfold allSlots at member
  obtain ⟨n, _, rfl⟩ := List.mem_map.mp member
  exact isWord_natToS n

theorem nulFree_of_mem_allSlots {slot : RStr} (member : slot ∈ allSlots) : 0 ∉ slot := by
  unfold allSlots at member
  obtain ⟨n, _, rfl⟩ := List.mem_map.mp member
  exact nulFree_natToS n

/-- The slot of a key that is a C string. -/
def slotOf (k : CStr) : RStr := natToS ((xfiredbCrc16 k).toNat % 16384)

theorem keyToSlot_toR (k : CStr) : keyToSlot k.toR = .ok (slotOf k) := by
  rw [keyToSlot, crc16, stringValueCStr_toR]
  rfl

/-! ## Ruby sets -/

/-- `Set#add`: insertion keeps the order of first insertion. -/
def setAdd (s : List RStr) (x : RStr) : List RStr := if x ∈ s then s else s ++ [x]

/-- `Set#+` and repeated `Set#add`. -/
def setMerge (s xs : List RStr) : List RStr := xs.foldl setAdd s

theorem nodup_setAdd {s : List RStr} (nodup : s.Nodup) (x : RStr) : (setAdd s x).Nodup := by
  unfold setAdd
  split
  · exact nodup
  · rename_i fresh
    exact List.nodup_append_comm.mp (List.nodup_cons.mpr ⟨fresh, nodup⟩)

theorem mem_setAdd {s : List RStr} {x y : RStr} : y ∈ setAdd s x ↔ y ∈ s ∨ y = x := by
  unfold setAdd
  split
  · rename_i member
    constructor
    · exact Or.inl
    · intro either
      rcases either with old | rfl
      · exact old
      · exact member
  · simp

theorem nodup_setMerge {s : List RStr} (nodup : s.Nodup) (xs : List RStr) :
    (setMerge s xs).Nodup := by
  unfold setMerge
  induction xs generalizing s with
  | nil => exact nodup
  | cons x xs ih => exact ih (nodup_setAdd nodup x)

@[simp] theorem mem_setMerge {s xs : List RStr} {y : RStr} :
    y ∈ setMerge s xs ↔ y ∈ s ∨ y ∈ xs := by
  unfold setMerge
  induction xs generalizing s with
  | nil => simp
  | cons x xs ih =>
      rw [List.foldl_cons, ih, mem_setAdd, List.mem_cons]
      tauto

/-! ## Key shards -/

/-- A `KeyShard`: two Ruby sets, each in insertion order. -/
structure KeyShard where
  slots : List RStr
  keys : List RStr
  slotsNodup : slots.Nodup
  keysNodup : keys.Nodup

namespace KeyShard

/-- `include?`. -/
def includes (shard : KeyShard) (key : RStr) : Except Raise Bool :=
  (keyToSlot key).map fun slot => decide (slot ∈ shard.slots)

/-- A key that the shard can hash is a C string. -/
theorem includes_nulFree {shard : KeyShard} {key : RStr} {b : Bool}
    (included : shard.includes key = .ok b) : ∃ k, stringValueCStr key = .ok k := by
  unfold KeyShard.includes keyToSlot crc16 at included
  cases known : stringValueCStr key with
  | ok k => exact ⟨k, rfl⟩
  | error r => simp [known, Except.map] at included

/-- `add_slots`. -/
def addSlots (shard : KeyShard) (slots : List RStr) : KeyShard :=
  { shard with
    slots := setMerge shard.slots slots
    slotsNodup := nodup_setMerge shard.slotsNodup slots }

/-- `add_key`. -/
def addKey (shard : KeyShard) (key : RStr) : Except Raise KeyShard :=
  (shard.includes key).map fun included =>
    if included then
      { shard with
        keys := setAdd shard.keys key
        keysNodup := nodup_setAdd shard.keysNodup key }
    else shard

/-- `del_key`. -/
def delKey (shard : KeyShard) (key : RStr) : KeyShard :=
  { shard with
    keys := shard.keys.filter (· ≠ key)
    keysNodup := shard.keysNodup.filter _ }

/-- The `delete_if` loop of `reshard`: the slots that stay and the slots removed,
with the counter `num` shared by the iterations. -/
def reshardLoop : Int → List RStr → List RStr × List RStr
  | _, [] => ([], [])
  | num, slot :: rest =>
    let num := num - 1
    let (kept, rm) := reshardLoop num rest
    if 0 ≤ num then (kept, slot :: rm) else (slot :: kept, rm)

theorem reshardLoop_perm (num : Int) (slots : List RStr) :
    ((reshardLoop num slots).1 ++ (reshardLoop num slots).2).Perm slots := by
  induction slots generalizing num with
  | nil => exact List.Perm.nil
  | cons slot rest ih =>
      by_cases more : 0 ≤ num - 1
      · simp only [reshardLoop, more, if_true]
        exact List.perm_middle.trans ((ih (num - 1)).cons slot)
      · simp only [reshardLoop, more, if_false]
        exact (ih (num - 1)).cons slot

/-- The slots that stay are those after the first `num`. -/
theorem reshardLoop_fst (num : Int) (slots : List RStr) :
    (reshardLoop num slots).1 = slots.drop num.toNat := by
  induction slots generalizing num with
  | nil => rw [reshardLoop, List.drop_nil]
  | cons slot rest ih =>
      by_cases more : 0 ≤ num - 1
      · simp only [reshardLoop, more, if_true]
        have count : num.toNat = (num - 1).toNat + 1 := by omega
        rw [count, List.drop_succ_cons]
        exact ih (num - 1)
      · simp only [reshardLoop, more, if_false]
        have count : num.toNat = 0 := by omega
        have countNext : (num - 1).toNat = 0 := by omega
        rw [ih (num - 1), count, countNext, List.drop_zero, List.drop_zero]

/-- A held key that belongs to a removed slot.  The keys of a shard passed
`include?`, so `key_to_slot` does not raise on them. -/
def inSlots (rm : List RStr) (key : RStr) : Bool :=
  match keyToSlot key with
  | .ok slot => decide (slot ∈ rm)
  | .error _ => false

/-- `reshard`: the shard left, the removed slots and the keys that belong to
them. -/
def reshard (shard : KeyShard) (num : Int) : KeyShard × List RStr × List RStr :=
  let loop := reshardLoop num shard.slots
  let rmkeys := shard.keys.filter (inSlots loop.2)
  ({ slots := loop.1
     keys := shard.keys.filter (· ∉ rmkeys)
     slotsNodup :=
       ((reshardLoop_perm num shard.slots).nodup_iff.mpr shard.slotsNodup).of_append_left
     keysNodup := shard.keysNodup.filter _ },
    loop.2, rmkeys)

theorem reshard_slots_perm (shard : KeyShard) (num : Int) :
    ((shard.reshard num).1.slots ++ (shard.reshard num).2.1).Perm shard.slots :=
  reshardLoop_perm num shard.slots

theorem reshard_slots (shard : KeyShard) (num : Int) :
    (shard.reshard num).1.slots = shard.slots.drop num.toNat :=
  reshardLoop_fst num shard.slots

theorem mem_reshard (shard : KeyShard) (num : Int) (slot : RStr) :
    slot ∈ shard.slots ↔ slot ∈ (shard.reshard num).1.slots ∨ slot ∈ (shard.reshard num).2.1 := by
  rw [← (reshard_slots_perm shard num).mem_iff, List.mem_append]

theorem not_mem_reshard_both (shard : KeyShard) (num : Int) {slot : RStr}
    (kept : slot ∈ (shard.reshard num).1.slots) : slot ∉ (shard.reshard num).2.1 := by
  have nodup := (reshard_slots_perm shard num).nodup_iff.mpr shard.slotsNodup
  exact fun removed => List.disjoint_of_nodup_append nodup kept removed

theorem eq_of_slots_keys {shard shard' : KeyShard} (slots : shard.slots = shard'.slots)
    (keys : shard.keys = shard'.keys) : shard = shard' := by
  cases shard
  cases shard'
  cases slots
  cases keys
  rfl

/-- A shard that keeps its slots keeps its keys. -/
theorem reshard_eq_self_iff {shard : KeyShard} {num : Int} :
    (shard.reshard num).1 = shard ↔ num ≤ 0 ∨ shard.slots = [] := by
  constructor
  · intro same
    have kept := shard.reshard_slots num
    rw [same] at kept
    have lengths := congrArg List.length kept
    rw [List.length_drop] at lengths
    by_cases none : shard.slots = []
    · exact Or.inr none
    · have some_ := List.length_pos_iff.mpr none
      exact Or.inl (by omega)
  · intro nothing
    have all : (shard.reshard num).1.slots = shard.slots := by
      rw [reshard_slots]
      rcases nothing with negative | empty
      · rw [Int.toNat_of_nonpos negative, List.drop_zero]
      · rw [empty, List.drop_nil]
    have removed : (shard.reshard num).2.1 = [] := by
      have lengths := (reshard_slots_perm shard num).length_eq
      rw [List.length_append, all] at lengths
      exact List.length_eq_zero_iff.mp (by omega)
    have noSlots : (reshardLoop num shard.slots).2 = [] := removed
    refine eq_of_slots_keys all ?_
    have noKeys : shard.keys.filter (inSlots []) = [] := by
      rw [List.filter_eq_nil_iff]
      intro key _
      unfold inSlots
      split <;> simp
    simp only [reshard, noSlots, noKeys]
    simp

end KeyShard

end XFireDB
