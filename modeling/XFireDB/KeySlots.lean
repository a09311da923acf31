import XFireDB.Hash
import XFireDB.Lib.Crc
import XFireDB.SlotRecord

/-!
# Every key has a slot

`xfiredb_crc16` is the CRC with the polynomial `0x1021`, by a table of 256
words.  Its length is an `int`: of a string of `2^31` bytes or more it sees only
a part.  Whatever the checksum is, the slot of a key is one of those that
`setup_root_node` writes down.
-/

namespace XFireDB

open Lib

/-! ## The table -/

/-- The polynomial of the checksum. -/
def crcPoly : BitVec 16 := 0x1021

/-- Every word of the table is eight shifts of its index. -/
theorem crc16tab_eq_shifts : ∀ i : Fin 256,
    (crc16tab.getD i 0).toBitVec = Crc.shifts crcPoly 8 (BitVec.ofNat 16 i <<< 8) := by
  decide +kernel

/-- The update of `xfiredb_crc16` as C computes it: the `char` is signed and both
operands of the exclusive or are promoted to `int`. -/
def crcUpdate (crc : UInt16) (b : UInt8) : UInt16 :=
  (crc <<< 8) ^^^ crc16tab.getD (((crc.toUInt32 >>> 8) ^^^ signedChar b) &&& 0x00FF).toNat 0

/-- The mask removes the sign extension. -/
theorem signedChar_mod : ∀ i : Fin 256, (signedChar (.ofFin i)).toNat % 256 = i := by
  decide +kernel

theorem crcUpdate_eq (crc : UInt16) (b : UInt8) : crcUpdate crc b =
    (crc <<< 8) ^^^ crc16tab.getD (((crc >>> 8) ^^^ b.toUInt16) &&& 0x00FF).toNat 0 := by
  have char : (signedChar b).toNat % 2 ^ 8 = b.toNat := signedChar_mod b.toFin
  have small : b.toNat % 2 ^ 8 = b.toNat := Nat.mod_eq_of_lt b.toNat_lt
  have index : (((crc.toUInt32 >>> 8) ^^^ signedChar b) &&& 0x00FF).toNat =
      (((crc >>> 8) ^^^ b.toUInt16) &&& 0x00FF).toNat := by
    have mask : ((crc.toUInt32 >>> 8) ^^^ signedChar b).toNat &&& (2 ^ 8 - 1) =
        ((crc >>> 8) ^^^ b.toUInt16).toNat &&& (2 ^ 8 - 1) := by
      rw [Nat.and_two_pow_sub_one_eq_mod, Nat.and_two_pow_sub_one_eq_mod, UInt32.toNat_xor,
        UInt16.toNat_xor, Nat.xor_mod_two_pow, Nat.xor_mod_two_pow, char, UInt8.toNat_toUInt16,
        small]
      rfl
    exact mask
  rw [crcUpdate, index]

/-- One byte by the table is one byte of the bit-by-bit checksum. -/
theorem crcUpdate_toBitVec (crc : UInt16) (b : UInt8) :
    (crcUpdate crc b).toBitVec = Crc.byteStep crcPoly crc.toBitVec b := by
  have index : ((crc >>> 8) ^^^ b.toUInt16).toBitVec = Crc.tableIndex crc.toBitVec b := rfl
  have small : ((crc >>> 8) ^^^ b.toUInt16).toNat < 256 := by
    rw [UInt16.toNat_xor]
    refine Nat.xor_lt_two_pow (n := 8) ?_ ?_
    · have shifted : (crc >>> 8).toNat = crc.toNat >>> 8 := UInt16.toNat_shiftRight crc 8
      rw [shifted, Nat.shiftRight_eq_div_pow]
      have := crc.toNat_lt
      omega
    · rw [UInt8.toNat_toUInt16]
      exact b.toNat_lt
  have masked : (((crc >>> 8) ^^^ b.toUInt16) &&& 0x00FF).toNat =
      ((crc >>> 8) ^^^ b.toUInt16).toNat := by
    have mask : ((crc >>> 8) ^^^ b.toUInt16).toNat &&& (2 ^ 8 - 1) =
        ((crc >>> 8) ^^^ b.toUInt16).toNat := by
      rw [Nat.and_two_pow_sub_one_eq_mod, Nat.mod_eq_of_lt small]
    exact mask
  have word := crc16tab_eq_shifts ⟨_, small⟩
  rw [crcUpdate_eq, masked, UInt16.toBitVec_xor, word, Crc.byteStep_eq crcPoly (by decide), ← index]
  simp only [UInt16.toNat, BitVec.ofNat_toNat, BitVec.setWidth_eq]
  rfl

/-! ## The checksum of a string -/

/-- The number of bytes the loop of `xfiredb_crc16` sees: `strlen` as an `int`. -/
def countedBytes (str : CStr) : Nat := (Int.bmod str.bytes.length (2 ^ 32)).toNat

theorem foldl_crcUpdate (bytes : List UInt8) (crc : UInt16) :
    (bytes.foldl crcUpdate crc).toBitVec = Crc.checksum crcPoly crc.toBitVec bytes := by
  induction bytes generalizing crc with
  | nil => rfl
  | cons b rest ih =>
      rw [List.foldl_cons, ih, crcUpdate_toBitVec, Crc.checksum, Crc.checksum,
        List.foldl_cons]

theorem xfiredbCrc16_eq_foldl (str : CStr) :
    xfiredbCrc16 str = (str.bytes.take (countedBytes str)).foldl crcUpdate 0 := by
  have update : crcUpdate = fun (crc : UInt16) (b : UInt8) =>
      (crc <<< 8) ^^^ crc16tab.getD (((crc >>> 8) ^^^ b.toUInt16) &&& 0x00FF).toNat 0 := by
    funext crc b
    exact crcUpdate_eq crc b
  unfold xfiredbCrc16 countedBytes
  rw [update]

/-- The code computes the checksum of the bytes it sees. -/
theorem xfiredbCrc16_toBitVec (str : CStr) :
    (xfiredbCrc16 str).toBitVec =
      Crc.checksum crcPoly 0 (str.bytes.take (countedBytes str)) := by
  rw [xfiredbCrc16_eq_foldl, foldl_crcUpdate]
  rfl

theorem bmod_of_lt {n : Nat} (short : n < 2 ^ 31) : Int.bmod n (2 ^ 32) = n := by
  apply Int.bmod_eq_of_le <;> omega

/-- Below `2^31` bytes it sees all of them. -/
theorem take_countedBytes {str : CStr} (short : str.bytes.length < 2 ^ 31) :
    str.bytes.take (countedBytes str) = str.bytes := by
  have all : countedBytes str = str.bytes.length := by
    unfold countedBytes
    rw [bmod_of_lt short]
    exact Int.toNat_natCast _
  rw [all, List.take_length]

/-! ## The slots of a root node -/

/-- The record that `setup_root_node` writes. -/
def setupRootNode : RStr := join (lit ":") allSlots

/-- The record names the slots. -/
theorem splitColon_setupRootNode : splitColon setupRootNode = allSlots := by
  apply Slots.splitColon_join
  · intro slot member colon
    unfold allSlots at member
    obtain ⟨n, _, rfl⟩ := List.mem_map.mp member
    exact absurd (isDigit_of_mem_natToS colon) (by decide)
  · intro slot member
    exact (isWord_of_mem_allSlots member).1

/-- A key has the decimal text of a number below 16384 as its slot, and is in
every shard that holds the slots of the record. -/
def CStr.HasSlot (k : CStr) : Prop :=
  (∃ n < 16384, keyToSlot k.toR = .ok (natToS n)) ∧
    ∀ shard : KeyShard, (∀ slot ∈ splitColon setupRootNode, slot ∈ shard.slots) →
      shard.includes k.toR = .ok true

theorem CStr.hasSlot (k : CStr) : k.HasSlot := by
  have known := keyToSlot_toR k
  refine ⟨⟨_, Nat.mod_lt _ (by decide), known⟩, ?_⟩
  intro shard slots
  have member := slots (slotOf k)
  rw [splitColon_setupRootNode] at member
  rw [KeyShard.includes, known]
  exact congrArg Except.ok (decide_eq_true (member (keyToSlot_mem_allSlots known)))

/-- `xfiredb_crc16` is the bit-by-bit checksum exactly where the bytes it counts
have the checksum of the whole string, so for every string of less than `2^31`
bytes.  The slots cover all keys in any case. -/
theorem crc16_covers_iff (k : CStr) :
    ((xfiredbCrc16 k).toBitVec = Crc.checksum crcPoly 0 k.bytes ∧ k.HasSlot) ↔
      k.bytes.length < 2 ^ 31 ∨
        Crc.checksum crcPoly 0 (k.bytes.take (countedBytes k)) =
          Crc.checksum crcPoly 0 k.bytes := by
  rw [xfiredbCrc16_toBitVec]
  constructor
  · intro found
    rcases found with ⟨same, _⟩
    exact Or.inr same
  · intro either
    rcases either with short | same
    · rw [take_countedBytes short]
      exact ⟨rfl, k.hasSlot⟩
    · exact ⟨same, k.hasSlot⟩

/-- A string of `2^31` bytes: a block without effect on the checksum, many times
over, and two bytes. -/
def hugeKey : CStr where
  bytes := (List.replicate 715827882 [0x01, 0x10, 0x21]).flatten ++ [1, 1]
  nulFree := by
    intro nul
    rcases List.mem_append.mp nul with inside | last
    · obtain ⟨block, isBlock, member⟩ := List.mem_flatten.mp inside
      obtain rfl := List.eq_of_mem_replicate isBlock
      exact absurd member (by decide)
    · exact absurd last (by decide)

theorem hugeKey_bytes :
    hugeKey.bytes = (List.replicate 715827882 [0x01, 0x10, 0x21]).flatten ++ [1, 1] := rfl

theorem hugeKey_length : hugeKey.bytes.length = 2 ^ 31 := by
  rw [hugeKey_bytes, List.length_append, List.length_flatten, List.map_replicate,
    List.sum_replicate_nat]
  norm_num

/-- A length of `2^31` is negative as an `int`. -/
theorem bmod_two_pow_31 : (Int.bmod (2 ^ 31 : Nat) (2 ^ 32)).toNat = 0 := by
  have negative : Int.bmod (2 ^ 31 : Nat) (2 ^ 32) < 0 := by
    rw [Int.bmod_def]
    norm_num
  omega

/-- Of this key `xfiredb_crc16` reads nothing. -/
theorem hugeKey_crc16 :
    (xfiredbCrc16 hugeKey).toBitVec ≠ Crc.checksum crcPoly 0 hugeKey.bytes := by
  have nothing : countedBytes hugeKey = 0 := by
    unfold countedBytes
    rw [hugeKey_length, bmod_two_pow_31]
  have fixed : Crc.checksum crcPoly 0 [0x01, 0x10, 0x21] = 0 := by decide +kernel
  rw [xfiredbCrc16_toBitVec, nothing, List.take_zero, hugeKey_bytes, Crc.checksum_append,
    Crc.checksum_replicate crcPoly fixed]
  decide +kernel

end XFireDB
