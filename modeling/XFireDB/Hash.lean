import Mathlib

/-!
# C strings and the key hash

A C string is a byte list without NUL.  `strcmp(a, b) == 0` on such strings is
equality, so the model compares keys with `=`.

`dict_hash_key` and `skiplist_hash_key` are the same C text with the same seed;
both are `hashKey` here.  So are `dict_set_key` and `skiplist_set_key`, which keep
the length of a key in an `int`: both are `intCopy`.
-/

namespace XFireDB

/-- The bytes of a NUL-terminated string, without the terminator. -/
structure CStr where
  bytes : List UInt8
  nulFree : 0 ∉ bytes
deriving DecidableEq

/-- Error codes as the functions return them (`-XFIREDB_OK`, `-XFIREDB_ERR`). -/
inductive Rc
  | ok
  | err
deriving DecidableEq, Repr

/-! ## The values of an `int` -/

/-- The value of an `int`, as which lengths and counters are kept. -/
def int32 (n : Int) : Int := (Int32.ofInt n).toInt

theorem int32_eq_bmod (n : Int) : int32 n = n.bmod (2 ^ 32) := Int32.toInt_ofInt

theorem int32_of_small {n : Int} (low : 0 ≤ n) (high : n < 2 ^ 31) : int32 n = n := by
  rw [int32_eq_bmod]
  exact Int.bmod_eq_of_le (by omega) (by omega)

theorem int32_lt (n : Int) : int32 n < 2 ^ 31 := by
  rw [int32_eq_bmod]
  exact lt_of_lt_of_le (Int.bmod_lt (by decide)) (by decide)

/-- A counter is the number of what it counts as long as that is an `int`. -/
theorem int32_eq_self_iff {n : Int} (low : 0 ≤ n) : int32 n = n ↔ n < 2 ^ 31 := by
  constructor
  · intro same
    rw [← same]
    exact int32_lt n
  · exact int32_of_small low

@[simp] theorem int32_zero : int32 0 = 0 := rfl

/-- Counting on from a counter. -/
theorem int32_add_int32 (a b : Int) : int32 (int32 a + b) = int32 (a + b) := by
  rw [int32_eq_bmod, int32_eq_bmod, int32_eq_bmod, Int.bmod_add_bmod]

theorem int32_succ (n : Nat) : int32 (int32 n + 1) = int32 ((n + 1 : Nat) : Int) := by
  rw [int32_add_int32, Nat.cast_succ]

theorem int32_pred (n : Nat) : int32 (int32 ((n + 1 : Nat) : Int) - 1) = int32 n := by
  rw [Int.sub_eq_add_neg, int32_add_int32, Nat.cast_succ]
  simp

/-! ## The key hash -/

def murmurC1 : UInt32 := 0xcc9e2d51
def murmurC2 : UInt32 := 0x1b873593
def murmurR1 : UInt32 := 15
def murmurR2 : UInt32 := 13
def murmurMix1 : UInt32 := 5
def murmurMix2 : UInt32 := 0xe6546b64

/-- A `u32` load of four key bytes on a little-endian machine. -/
def loadBlock (b0 b1 b2 b3 : UInt8) : UInt32 :=
  b0.toUInt32 ||| (b1.toUInt32 <<< 8) ||| (b2.toUInt32 <<< 16) ||| (b3.toUInt32 <<< 24)

/-- A `char` read from the key and promoted: `char` is signed, so the value is
sign-extended before it is shifted and xored into a `u32`. -/
def signedChar (b : UInt8) : UInt32 :=
  if b < 128 then b.toUInt32 else b.toUInt32 ||| 0xFFFFFF00

/-- One iteration of the block loop of the hash functions. -/
def hashBlock (hash k1 : UInt32) : UInt32 :=
  let k1 := k1 * murmurC1
  let k1 := (k1 <<< murmurR1) ||| (k1 >>> (32 - murmurR1))
  let k1 := k1 * murmurC2
  let hash := hash ^^^ k1
  ((hash <<< murmurR2) ||| (hash >>> (32 - murmurR2))) * murmurMix1 + murmurMix2

/-- The block loop: the hash after all full blocks, and the tail bytes. -/
def hashBlocks : List UInt8 → UInt32 → UInt32 × List UInt8
  | b0 :: b1 :: b2 :: b3 :: rest, hash => hashBlocks rest (hashBlock hash (loadBlock b0 b1 b2 b3))
  | tail, hash => (hash, tail)

/-- `k2` after the fall-through cases of the tail switch, before the mixing. -/
def tailWord : List UInt8 → UInt32
  | [t0, t1, t2] => (signedChar t2 <<< 16) ^^^ (signedChar t1 <<< 8) ^^^ signedChar t0
  | [t0, t1] => (signedChar t1 <<< 8) ^^^ signedChar t0
  | [t0] => signedChar t0
  | _ => 0

/-- The tail switch.  The rotation mixes `MURMUR_R2` and `MURMUR_R1`, as the
source does. -/
def hashTail (hash : UInt32) (tail : List UInt8) : UInt32 :=
  if tail = [] then hash
  else
    let k2 := tailWord tail * murmurC1
    let k2 := (k2 <<< murmurR2) ||| (k2 >>> (32 - murmurR1))
    hash ^^^ (k2 * murmurC2)

/-- The text shared by `dict_hash_key` and `skiplist_hash_key`.  `len` is a
`u32`, so only `strlen(key) mod 2^32` bytes are hashed. -/
def hashKey (key : CStr) (seed : UInt32) : UInt32 :=
  let len := key.bytes.length % 2 ^ 32
  let (hash, tail) := hashBlocks (key.bytes.take len) seed
  let hash := hashTail hash tail
  let hash := hash ^^^ UInt32.ofNat len
  let hash := hash ^^^ (hash >>> 16)
  let hash := hash * 0x85ebca6b
  let hash := hash ^^^ (hash >>> 13)
  let hash := hash * 0xc2b2ae35
  hash ^^^ (hash >>> 16)

def dictSeed : UInt32 := 0x8FE3C9A1
def skiplistSeed : UInt32 := 0x8FE3C9A1

/-- The block that `int length = strlen(key)`, `xfiredb_zalloc(length + 1)` and
`memcpy` leave: of a key of `2^32` bytes or more only the first bytes.  A length
that is negative as an `int`, or the largest `int`, ends the process. -/
def intCopy (key : CStr) : Option CStr :=
  let length := key.bytes.length % 2 ^ 32
  if length < 2 ^ 31 - 1 then
    some ⟨key.bytes.take length, fun member => key.nulFree (List.mem_of_mem_take member)⟩
  else none

/-- The key is copied whole. -/
def CStr.Short (key : CStr) : Prop := key.bytes.length < 2 ^ 31 - 1

instance (key : CStr) : Decidable key.Short := inferInstanceAs (Decidable (_ < _))

theorem intCopy_of_short {key : CStr} (short : key.Short) : intCopy key = some key := by
  have whole : key.bytes.length % 2 ^ 32 = key.bytes.length :=
    Nat.mod_eq_of_lt (lt_trans short (by decide))
  simp only [intCopy, whole, List.take_length]
  exact if_pos short

/-- What the copy leaves is short, whatever the key. -/
theorem short_of_intCopy {key copy : CStr} (copied : intCopy key = some copy) : copy.Short := by
  simp only [intCopy] at copied
  split at copied
  · rename_i small
    obtain rfl := Option.some.inj copied
    exact lt_of_le_of_lt (List.length_take_le _ _) small
  · cases copied

/-- The hash functions read no more of a key than the copy keeps. -/
theorem hashKey_of_intCopy {key copy : CStr} (copied : intCopy key = some copy) (seed : UInt32) :
    hashKey copy seed = hashKey key seed := by
  simp only [intCopy] at copied
  split at copied
  · rename_i small
    obtain rfl := Option.some.inj copied
    have kept : (key.bytes.take (key.bytes.length % 2 ^ 32)).length = key.bytes.length % 2 ^ 32 :=
      List.length_take_of_le (Nat.mod_le _ _)
    simp only [hashKey, kept, Nat.mod_mod, List.take_take, min_self]
  · cases copied

def dictHashKey (key : CStr) (seed : UInt32) : UInt32 := hashKey key seed
def skiplistHashKey (key : CStr) (seed : UInt32) : UInt32 := hashKey key seed

end XFireDB
