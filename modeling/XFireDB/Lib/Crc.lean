import Mathlib

/-!
# Cyclic redundancy checks, a byte at a time from a table

A CRC with the most significant bit first, over a register of `w` bits.  One
shift of the register is linear in exclusive or, so eight shifts of a register
are those of its upper byte, and the rest moved up by eight.
-/

namespace XFireDB.Lib

namespace Crc

variable {w : Nat} (poly : BitVec w)

/-- One shift of the register: subtract the polynomial if the bit shifted out is
set. -/
def shift (crc : BitVec w) : BitVec w := if crc.msb then (crc <<< 1) ^^^ poly else crc <<< 1

/-- The number of shifts of a register. -/
def shifts : Nat → BitVec w → BitVec w
  | 0, crc => crc
  | n + 1, crc => shifts n (shift poly crc)

/-- The bits of one byte, by shifts. -/
def byteStep (crc : BitVec w) (b : UInt8) : BitVec w :=
  shifts poly 8 (crc ^^^ (b.toBitVec.setWidth w <<< (w - 8)))

/-- The bit-by-bit checksum of a byte string. -/
def checksum (init : BitVec w) (bytes : List UInt8) : BitVec w := bytes.foldl (byteStep poly) init

theorem shift_xor (a b : BitVec w) : shift poly (a ^^^ b) = shift poly a ^^^ shift poly b := by
  have shifted : (a ^^^ b) <<< 1 = (a <<< 1) ^^^ (b <<< 1) := BitVec.shiftLeft_xor_distrib ..
  rw [shift, shift, shift, BitVec.msb_xor, shifted]
  cases a.msb <;> cases b.msb
  · rfl
  · simp only [Bool.false_xor, if_true, Bool.false_eq_true, if_false, BitVec.xor_assoc]
  · simp only [Bool.xor_false, if_true, Bool.false_eq_true, if_false]
    rw [BitVec.xor_assoc, BitVec.xor_assoc, BitVec.xor_comm poly]
  · simp only [Bool.xor_self, Bool.false_eq_true, if_false, if_true]
    rw [BitVec.xor_assoc (a <<< 1), BitVec.xor_comm (b <<< 1), ← BitVec.xor_assoc poly,
      BitVec.xor_self, BitVec.zero_xor]

theorem shifts_xor (n : Nat) (a b : BitVec w) :
    shifts poly n (a ^^^ b) = shifts poly n a ^^^ shifts poly n b := by
  induction n generalizing a b with
  | zero => rfl
  | succ n ih => rw [shifts, shifts, shifts, shift_xor, ih]

/-- A register whose upper bits are clear only moves up. -/
theorem shifts_of_clear {n : Nat} {y : BitVec w} (clear : ∀ i, w - n ≤ i → y.getLsbD i = false) :
    shifts poly n y = y <<< n := by
  induction n generalizing y with
  | zero => rw [shifts, BitVec.shiftLeft_zero]
  | succ n ih =>
      have top : y.msb = false := by
        rw [BitVec.msb_eq_getLsbD_last]
        exact clear _ (by omega)
      rw [shifts, shift, top, if_neg Bool.false_ne_true, ih]
      · rw [← BitVec.shiftLeft_add, Nat.add_comm]
      · intro i high
        rw [BitVec.getLsbD_shiftLeft]
        rcases Nat.eq_zero_or_pos i with rfl | pos
        · simp
        · rw [clear (i - 1) (by omega), Bool.and_false]

/-- Eight shifts of a register: those of its upper byte, and the rest moved up. -/
theorem shifts_eight (wide : 8 ≤ w) (x : BitVec w) :
    shifts poly 8 x = (x <<< 8) ^^^ shifts poly 8 ((x >>> (w - 8)) <<< (w - 8)) := by
  have low : ∀ i, w - 8 ≤ i → (x ^^^ ((x >>> (w - 8)) <<< (w - 8))).getLsbD i = false := by
    intro i high
    rw [BitVec.getLsbD_xor, BitVec.getLsbD_shiftLeft, BitVec.getLsbD_ushiftRight,
      Nat.add_sub_cancel' high]
    rcases Nat.lt_or_ge i w with inside | outside
    · simp [inside, Nat.not_lt.mpr high]
    · rw [BitVec.getLsbD_of_ge x i outside, Bool.and_false]
      rfl
  have away : ((x >>> (w - 8)) <<< (w - 8)) <<< 8 = 0#w := by
    rw [← BitVec.shiftLeft_add, Nat.sub_add_cancel wide, BitVec.shiftLeft_eq_zero (le_refl w)]
  have split : x = (x ^^^ ((x >>> (w - 8)) <<< (w - 8))) ^^^ ((x >>> (w - 8)) <<< (w - 8)) := by
    rw [BitVec.xor_assoc, BitVec.xor_self, BitVec.xor_zero]
  have parts : shifts poly 8 x = shifts poly 8 (x ^^^ ((x >>> (w - 8)) <<< (w - 8))) ^^^
      shifts poly 8 ((x >>> (w - 8)) <<< (w - 8)) := by
    rw [← shifts_xor, ← split]
  rw [parts, shifts_of_clear poly low, BitVec.shiftLeft_xor_distrib, away, BitVec.xor_zero]

/-- The upper byte of the register after a byte is added to it. -/
def tableIndex (crc : BitVec w) (b : UInt8) : BitVec w :=
  (crc >>> (w - 8)) ^^^ b.toBitVec.setWidth w

/-- One byte by the table: the word for the upper byte, and the rest moved up. -/
theorem byteStep_eq (wide : 8 ≤ w) (crc : BitVec w) (b : UInt8) :
    byteStep poly crc b =
      (crc <<< 8) ^^^ shifts poly 8 (tableIndex crc b <<< (w - 8)) := by
  have gone : (b.toBitVec.setWidth w <<< (w - 8)) <<< 8 = 0#w := by
    rw [← BitVec.shiftLeft_add, Nat.sub_add_cancel wide, BitVec.shiftLeft_eq_zero (le_refl w)]
  have back : (b.toBitVec.setWidth w <<< (w - 8)) >>> (w - 8) = b.toBitVec.setWidth w := by
    apply BitVec.eq_of_getLsbD_eq
    intro i inside
    rw [BitVec.getLsbD_ushiftRight, BitVec.getLsbD_shiftLeft, BitVec.getLsbD_setWidth,
      BitVec.getLsbD_setWidth]
    rcases Nat.lt_or_ge i 8 with low | high
    · simp [inside, show w - 8 + i < w by omega]
    · rw [BitVec.getLsbD_of_ge b.toBitVec i high]
      simp [BitVec.getLsbD_of_ge b.toBitVec i high]
  rw [byteStep, shifts_eight poly wide, BitVec.shiftLeft_xor_distrib, gone, BitVec.xor_zero,
    BitVec.ushiftRight_xor_distrib, back]
  rfl

/-- The checksum of a string whose prefix leaves the register at its start. -/
theorem checksum_append (init : BitVec w) (xs ys : List UInt8) :
    checksum poly init (xs ++ ys) = checksum poly (checksum poly init xs) ys := List.foldl_append ..

/-- A block that leaves the register as it was may be repeated. -/
theorem checksum_replicate {init : BitVec w} {block : List UInt8}
    (fixed : checksum poly init block = init) (n : Nat) :
    checksum poly init (List.replicate n block).flatten = init := by
  induction n with
  | zero => rfl
  | succ n ih => rw [List.replicate_succ, List.flatten_cons, checksum_append, fixed, ih]

end Crc

end XFireDB.Lib
