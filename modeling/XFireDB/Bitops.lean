import Mathlib

/-!
# Bit operations

`bitops.c` and the swap of `bitops-atomic.c`.  An array of `unsigned long` words is the list of
them.  A step that reads outside of the array, or shifts a word by 64 or more, has no
result (`none`).

`bitOf` reads the array as what it is for: one bit for each number.
-/

namespace XFireDB

/-- `__BITS_PER_LONG`, which is `sizeof(long)`. -/
def bitsPerLong : Nat := 8

/-- `nr / (BITS_PER_LONG-1)`, the word that is addressed. -/
def bitWord (nr : Nat) : Nat := nr / (bitsPerLong - 1)

/-- `nr % BITS_PER_LONG`. -/
def bitIndex (nr : Nat) : Nat := nr % bitsPerLong

/-- `raw_test_bit`, of which `bitops-atomic.c` has a copy. -/
def rawTestBit (bit : Nat) (word : BitVec 64) : Option Nat :=
  if bit < 64 then some ((word >>> bit) &&& 1#64).toNat else none

/-- `__test_bit`. -/
def testBit (nr : Nat) (addr : List (BitVec 64)) : Option Nat := do
  let word ← addr[bitWord nr]?
  rawTestBit (bitIndex nr) word

/-- `__set_bit`. -/
def setBit (nr : Nat) (addr : List (BitVec 64)) : Option (List (BitVec 64)) := do
  let word ← addr[bitWord nr]?
  some (addr.set (bitWord nr) (word ||| 1#64 <<< bitIndex nr))

/-- `__clear_bit`. -/
def clearBit (nr : Nat) (addr : List (BitVec 64)) : Option (List (BitVec 64)) := do
  let word ← addr[bitWord nr]?
  some (addr.set (bitWord nr) (word &&& ~~~(1#64 <<< bitIndex nr)))

/-- `__test_and_clear_bit`. -/
def testAndClearBit (nr : Nat) (addr : List (BitVec 64)) : Option (Nat × List (BitVec 64)) := do
  let word ← addr[bitWord nr]?
  let old ← rawTestBit (bitIndex nr) word
  some (if old ≠ 0 then 1 else 0,
    addr.set (bitWord nr) (word &&& ~~~(1#64 <<< bitIndex nr)))

/-- `__test_and_set_bit`. -/
def testAndSetBit (nr : Nat) (addr : List (BitVec 64)) : Option (Nat × List (BitVec 64)) := do
  let word ← addr[bitWord nr]?
  let old ← rawTestBit (bitIndex nr) word
  some (if old ≠ 0 then 1 else 0, addr.set (bitWord nr) (word ||| 1#64 <<< bitIndex nr))

/-! ## The array as bits -/

/-- Bit `i` of an array of words. -/
def bitOf (addr : List (BitVec 64)) (i : Nat) : Bool :=
  (addr[i / 64]?.getD 0).getLsbD (i % 64)

/-- `after` is `addr` with the bit at `p` replaced by `b`. -/
structure Writes (addr after : List (BitVec 64)) (p : Nat) (b : Bool) : Prop where
  length_eq : after.length = addr.length
  bits : ∀ i, bitOf after i = if i = p then b else bitOf addr i

/-- The bit that the operations address, as a number of the array's bits. -/
def bitPlace (nr : Nat) : Nat := 64 * bitWord nr + bitIndex nr

theorem bitIndex_lt (nr : Nat) : bitIndex nr < 64 := by
  have below : nr % 8 < 8 := Nat.mod_lt nr (by decide)
  rw [bitIndex, bitsPerLong]
  omega

/-- Only the bits below 7 are where their number says. -/
theorem bitPlace_eq_iff (nr : Nat) : bitPlace nr = nr ↔ nr < 7 := by
  rw [bitPlace, bitWord, bitIndex, bitsPerLong]
  omega

theorem bitOf_place {nr : Nat} {addr : List (BitVec 64)} {word : BitVec 64}
    (here : addr[bitWord nr]? = some word) :
    bitOf addr (bitPlace nr) = word.getLsbD (bitIndex nr) := by
  have below := bitIndex_lt nr
  have division : bitPlace nr / 64 = bitWord nr := by
    rw [bitPlace]
    omega
  have remainder : bitPlace nr % 64 = bitIndex nr := by
    rw [bitPlace]
    omega
  rw [bitOf, division, remainder, here, Option.getD_some]

/-- Replacing a word by one that differs in the addressed bit replaces that bit of the
array. -/
theorem writes_set {nr : Nat} {addr : List (BitVec 64)} {word new : BitVec 64} {b : Bool}
    (here : addr[bitWord nr]? = some word)
    (bits : ∀ i < 64, new.getLsbD i = if i = bitIndex nr then b else word.getLsbD i) :
    Writes addr (addr.set (bitWord nr) new) (bitPlace nr) b := by
  have below := bitIndex_lt nr
  have inside : bitWord nr < addr.length := (List.getElem?_eq_some_iff.mp here).1
  constructor
  · exact List.length_set
  · intro i
    have small : i % 64 < 64 := Nat.mod_lt i (by decide)
    have place : i = bitPlace nr ↔ i / 64 = bitWord nr ∧ i % 64 = bitIndex nr := by
      rw [bitPlace]
      omega
    by_cases same : i / 64 = bitWord nr
    · rw [bitOf, bitOf, same, List.getElem?_set_self inside, here, Option.getD_some,
        Option.getD_some, bits _ small]
      simp only [place, same, true_and]
    · have other : i ≠ bitPlace nr := fun equal => same (place.mp equal).1
      rw [bitOf, bitOf, List.getElem?_set_ne (Ne.symm same), if_neg other]

theorem rawTestBit_eq {bit : Nat} (below : bit < 64) (word : BitVec 64) :
    rawTestBit bit word = some (word.getLsbD bit).toNat := by
  rw [rawTestBit, if_pos below, BitVec.toNat_and, BitVec.toNat_ushiftRight, BitVec.toNat_ofNat,
    Nat.shiftRight_eq_div_pow, Nat.and_one_is_mod, ← Nat.toNat_testBit, BitVec.testBit_toNat]

theorem getLsbD_one_shiftLeft {bit i : Nat} (below : i < 64) :
    (1#64 <<< bit).getLsbD i = decide (i = bit) := by
  rw [BitVec.getLsbD_shiftLeft, BitVec.getLsbD_one]
  grind

theorem getLsbD_or_one_shiftLeft (word : BitVec 64) {bit i : Nat} (below : i < 64) :
    (word ||| 1#64 <<< bit).getLsbD i = if i = bit then true else word.getLsbD i := by
  rw [BitVec.getLsbD_or, getLsbD_one_shiftLeft below]
  split <;> simp [*]

theorem getLsbD_and_not_one_shiftLeft (word : BitVec 64) {bit i : Nat} (below : i < 64) :
    (word &&& ~~~(1#64 <<< bit)).getLsbD i = if i = bit then false else word.getLsbD i := by
  rw [BitVec.getLsbD_and, BitVec.getLsbD_not, getLsbD_one_shiftLeft below]
  split <;> simp [*]

theorem ite_toNat_ne_zero (b : Bool) : (if b.toNat ≠ 0 then 1 else 0) = b.toNat := by
  cases b <;> rfl

/-! ## What the operations do -/

/-- The five operations on `addr` read and write bit `p` of it, and no other. -/
structure ActsOn (addr : List (BitVec 64)) (nr p : Nat) : Prop where
  test : testBit nr addr = some (bitOf addr p).toNat
  set : ∃ after, setBit nr addr = some after ∧ Writes addr after p true
  clear : ∃ after, clearBit nr addr = some after ∧ Writes addr after p false
  testAndClear : ∃ after, testAndClearBit nr addr = some ((bitOf addr p).toNat, after) ∧
    Writes addr after p false
  testAndSet : ∃ after, testAndSetBit nr addr = some ((bitOf addr p).toNat, after) ∧
    Writes addr after p true

/-- Inside of the array all five act on the bit that `bitPlace` gives. -/
theorem actsOn_bitPlace {nr : Nat} {addr : List (BitVec 64)} (inside : bitWord nr < addr.length) :
    ActsOn addr nr (bitPlace nr) := by
  obtain ⟨word, here⟩ : ∃ word, addr[bitWord nr]? = some word :=
    ⟨_, List.getElem?_eq_getElem inside⟩
  have old := rawTestBit_eq (bitIndex_lt nr) word
  have set := writes_set here fun i below => getLsbD_or_one_shiftLeft word below
  have clear := writes_set here fun i below => getLsbD_and_not_one_shiftLeft word below
  constructor
  · rw [testBit, here, bitOf_place here]
    exact old
  · refine ⟨_, ?_, set⟩
    rw [setBit, here]
    rfl
  · refine ⟨_, ?_, clear⟩
    rw [clearBit, here]
    rfl
  · refine ⟨_, ?_, clear⟩
    rw [testAndClearBit, here, bitOf_place here]
    simp only [Option.bind_eq_bind, Option.bind_some, old, ite_toNat_ne_zero]
  · refine ⟨_, ?_, set⟩
    rw [testAndSetBit, here, bitOf_place here]
    simp only [Option.bind_eq_bind, Option.bind_some, old, ite_toNat_ne_zero]

theorem bitWord_lt_of_setBit {nr : Nat} {addr after : List (BitVec 64)}
    (wrote : setBit nr addr = some after) : bitWord nr < addr.length := by
  by_contra outside
  rw [setBit, List.getElem?_eq_none (Nat.le_of_not_lt outside)] at wrote
  cases wrote

/-- Below 7 they act on the bit of their number. -/
theorem actsOn_self {nr : Nat} {addr : List (BitVec 64)} (nonempty : 1 ≤ addr.length)
    (small : nr < 7) : ActsOn addr nr nr := by
  have word : bitWord nr = 0 := Nat.div_eq_of_lt small
  have acts : ActsOn addr nr (bitPlace nr) := actsOn_bitPlace (by omega)
  rwa [(bitPlace_eq_iff nr).mpr small] at acts

/-- The operations act on exactly the bit of their number for the numbers below 7, and for
no others. -/
theorem actsOn_self_iff {nr : Nat} {addr : List (BitVec 64)} (nonempty : 1 ≤ addr.length) :
    ActsOn addr nr nr ↔ nr < 7 := by
  constructor
  · intro acts
    obtain ⟨ones, set, setWrites⟩ := acts.set
    obtain ⟨zeros, clear, clearWrites⟩ := acts.clear
    have placed := actsOn_bitPlace (bitWord_lt_of_setBit set)
    obtain ⟨ones', set', setWrites'⟩ := placed.set
    obtain ⟨zeros', clear', clearWrites'⟩ := placed.clear
    obtain rfl := Option.some.inj (set.symm.trans set')
    obtain rfl := Option.some.inj (clear.symm.trans clear')
    rw [← bitPlace_eq_iff]
    -- a bit elsewhere keeps its value in both, so it would be set and clear
    by_contra elsewhere
    have isSet := (setWrites.bits nr).symm.trans (setWrites'.bits nr)
    have isClear := (clearWrites.bits nr).symm.trans (clearWrites'.bits nr)
    rw [if_pos rfl, if_neg (Ne.symm elsewhere)] at isSet isClear
    rw [← isSet] at isClear
    cases isClear
  · exact actsOn_self nonempty

theorem actsOn_self_six : ActsOn [5#64] 6 6 ↔ 6 < 7 :=
  actsOn_self_iff (by decide)

/-- Bit 7 of one word is not reached, and with a second word it is set there. -/
theorem setBit_seven :
    setBit 7 [0#64] = none ∧ setBit 7 [0#64, 0#64] = some [0#64, 128#64] ∧
      ¬ ∀ addr : List (BitVec 64), 1 ≤ addr.length →
        ∀ nr, nr < 64 * addr.length → ActsOn addr nr nr := by
  refine ⟨rfl, rfl, ?_⟩
  intro all
  obtain ⟨after, wrote, -⟩ := (all [0#64] (by decide) 7 (by decide)).set
  cases wrote

/-! ## Swapping -/

/-- `raw_swap_bit`: the exchange of the bits of a mask. -/
def rawSwapBit (bit x y : BitVec 64) : BitVec 64 × BitVec 64 :=
  let x := x ^^^ (y &&& bit)
  let y := y ^^^ (x &&& bit)
  let x := x ^^^ (y &&& bit)
  (x, y)

/-- `1 << (nr % BITS_PER_LONG)`. -/
def swapMask (nr : Nat) : Nat := 1 <<< bitIndex nr

/-- `swap_bit`, on the flags of two atoms.  `__swap_bit` does the same without the locks. -/
def swapBit (nr : Nat) (addr1 addr2 : List (BitVec 64)) :
    Option (List (BitVec 64) × List (BitVec 64)) := do
  let x ← addr1[bitWord nr]?
  let y ← addr2[bitWord nr]?
  let swapped := rawSwapBit (BitVec.ofNat 64 (swapMask nr)) x y
  some (addr1.set (bitWord nr) swapped.1, addr2.set (bitWord nr) swapped.2)

/-- `test_and_swap_bit`, where the mask is what `__raw_test_bit` shifts by. -/
def testAndSwapBit (nr : Nat) (addr1 addr2 : List (BitVec 64)) :
    Option (Nat × List (BitVec 64) × List (BitVec 64)) := do
  let x ← addr1[bitWord nr]?
  let y ← addr2[bitWord nr]?
  let old ← rawTestBit (swapMask nr) x
  let swapped := rawSwapBit (BitVec.ofNat 64 (swapMask nr)) x y
  some (if old ≠ 0 then 1 else 0,
    addr1.set (bitWord nr) swapped.1, addr2.set (bitWord nr) swapped.2)

/-- The three steps exchange the bits of the mask and keep the others. -/
theorem rawSwapBit_getLsbD (bit x y : BitVec 64) (i : Nat) :
    (rawSwapBit bit x y).1.getLsbD i = (if bit.getLsbD i then y.getLsbD i else x.getLsbD i) ∧
    (rawSwapBit bit x y).2.getLsbD i = (if bit.getLsbD i then x.getLsbD i else y.getLsbD i) := by
  simp only [rawSwapBit, BitVec.getLsbD_xor, BitVec.getLsbD_and]
  cases bit.getLsbD i <;> cases x.getLsbD i <;> cases y.getLsbD i <;> decide

/-- `x'` and `y'` are `x` and `y` with bit `nr` exchanged. -/
def Exchanged (nr : Nat) (x y x' y' : BitVec 64) : Prop :=
  ∀ i < 64, x'.getLsbD i = (if i = nr then y.getLsbD i else x.getLsbD i) ∧
    y'.getLsbD i = if i = nr then x.getLsbD i else y.getLsbD i

theorem rawSwapBit_exchanged {nr : Nat} (small : nr < 7) (x y : BitVec 64) :
    Exchanged nr x y (rawSwapBit (BitVec.ofNat 64 (swapMask nr)) x y).1
      (rawSwapBit (BitVec.ofNat 64 (swapMask nr)) x y).2 := by
  intro i below
  have mask : (BitVec.ofNat 64 (swapMask nr)).getLsbD i = decide (i = nr) := by
    have index : bitIndex nr = nr := Nat.mod_eq_of_lt (Nat.lt_succ_of_lt small)
    rw [swapMask, index, BitVec.getLsbD_ofNat, Nat.one_shiftLeft, Nat.testBit_two_pow]
    simp only [below, decide_true, Bool.true_and, eq_comm]
  have bits := rawSwapBit_getLsbD (BitVec.ofNat 64 (swapMask nr)) x y i
  rw [mask] at bits
  simpa only [decide_eq_true_eq] using bits

/-- On two single words, `test_and_swap_bit` returns whether bit `nr` of the first was set,
and exchanges it. -/
def SwapsAndReports (nr : Nat) (x y : BitVec 64) : Prop :=
  ∃ old x' y', testAndSwapBit nr [x] [y] = some (old, [x'], [y']) ∧
    (old ≠ 0 ↔ x.getLsbD nr = true) ∧ Exchanged nr x y x' y'

theorem testAndSwapBit_eq {nr : Nat} (small : nr < 7) (x y : BitVec 64) :
    testAndSwapBit nr [x] [y] =
      if nr < 6 then
        some ((x.getLsbD (2 ^ nr)).toNat,
          [(rawSwapBit (BitVec.ofNat 64 (swapMask nr)) x y).1],
          [(rawSwapBit (BitVec.ofNat 64 (swapMask nr)) x y).2])
      else none := by
  have word : bitWord nr = 0 := Nat.div_eq_of_lt small
  have index : bitIndex nr = nr := Nat.mod_eq_of_lt (Nat.lt_succ_of_lt small)
  have mask : swapMask nr = 2 ^ nr := by rw [swapMask, index, Nat.one_shiftLeft]
  rw [testAndSwapBit, word]
  by_cases below : nr < 6
  · have shift : 2 ^ nr < 64 := Nat.pow_lt_pow_right (by decide : 1 < 2) below
    rw [if_pos below]
    simp only [List.getElem?_cons_zero, Option.bind_eq_bind, Option.bind_some, mask,
      rawTestBit_eq shift, ite_toNat_ne_zero, List.set_cons_zero]
  · obtain rfl : nr = 6 := by omega
    rw [if_neg below, mask]
    rfl

/-- The exchange is right, and the report is where bit `2 ^ nr`, which is the one read,
happens to equal bit `nr`. -/
theorem swapsAndReports_iff {nr : Nat} (small : nr < 7) (x y : BitVec 64) :
    SwapsAndReports nr x y ↔ nr < 6 ∧ x.getLsbD (2 ^ nr) = x.getLsbD nr := by
  have swapped := rawSwapBit_exchanged small x y
  rw [SwapsAndReports, testAndSwapBit_eq small]
  by_cases below : nr < 6
  · rw [if_pos below]
    constructor
    · intro reports
      obtain ⟨old, x', y', ran, report, -⟩ := reports
      obtain ⟨rfl, -, -⟩ := by simpa only [Option.some.injEq, Prod.mk.injEq] using ran
      refine ⟨below, Bool.eq_iff_iff.mpr ?_⟩
      rw [← report]
      cases x.getLsbD (2 ^ nr) <;> decide
    · intro agree
      refine ⟨_, _, _, rfl, ?_, swapped⟩
      rw [agree.2]
      cases x.getLsbD nr <;> decide
  · rw [if_neg below]
    constructor
    · intro reports
      obtain ⟨_, _, _, ran, -⟩ := reports
      cases ran
    · intro agree
      exact absurd agree.1 below

theorem swapsAndReports_six_three : SwapsAndReports 1 6#64 3#64 ↔ 1 < 6 ∧
    (6#64).getLsbD (2 ^ 1) = (6#64).getLsbD 1 :=
  swapsAndReports_iff (by decide) 6#64 3#64

/-- With bit 0 set in `x` alone it is exchanged and the report is 0. -/
theorem testAndSwapBit_zero :
    testAndSwapBit 0 [1#64] [0#64] = some (0, [0#64], [1#64]) ∧
      ¬ ∀ (x y : BitVec 64), ∀ nr < 7, SwapsAndReports nr x y := by
  refine ⟨rfl, ?_⟩
  intro all
  obtain ⟨old, x', y', ran, report, -⟩ := all 1#64 0#64 0 (by decide)
  have zero : 0 = old := congrArg Prod.fst (Option.some.inj ran)
  exact report.mpr rfl zero.symm

end XFireDB
