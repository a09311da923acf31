import XFireDB.Hash
import XFireDB.Lib.Murmur3

/-!
# The key hash and MurmurHash3

The block loop and the finaliser are those of the reference function.  The tail
is not: its rotation shifts left by the distance of the other rotation, and its
bytes are sign-extended.  For a tail without NUL the two words always differ, so
a key of less than `2^32` bytes has the reference hash exactly if its length is
divisible by four.
-/

namespace XFireDB

open Lib

/-! ## The rotation of the tail word -/

/-- The rotation of `k2` in the tail switch. -/
def tailMixed (k2 : UInt32) : UInt32 := (k2 <<< murmurR2) ||| (k2 >>> (32 - murmurR1))

theorem hashTail_eq (hash : UInt32) {tail : List UInt8} (nonempty : tail ≠ []) :
    hashTail hash tail = hash ^^^ (tailMixed (tailWord tail * murmurC1) * murmurC2) :=
  if_neg nonempty

theorem testBit_tailMixed (x : UInt32) {i : Nat} (low : i < 17) :
    (tailMixed x).toNat.testBit (i + 15) = x.toNat.testBit (i + 2) := by
  have high : x.toNat.testBit (17 + (i + 15)) = false :=
    Nat.testBit_lt_two_pow (lt_of_lt_of_le x.toNat_lt (Nat.pow_le_pow_right (by decide) (by omega)))
  have left : (x <<< murmurR2).toNat = x.toNat <<< 13 % 2 ^ 32 := UInt32.toNat_shiftLeft x _
  have right : (x >>> (32 - murmurR1)).toNat = x.toNat >>> 17 := UInt32.toNat_shiftRight x _
  rw [tailMixed, UInt32.toNat_or, left, right, Nat.testBit_or, Nat.testBit_mod_two_pow,
    Nat.testBit_shiftLeft, Nat.testBit_shiftRight, high, Bool.or_false]
  simp only [show i + 15 < 32 by omega, show i + 15 ≥ 13 by omega, decide_true, Bool.true_and]
  congr 1

theorem testBit_rotl (y : UInt32) {i : Nat} (low : i < 17) :
    (Murmur3.rotl y 15).toNat.testBit (i + 15) = y.toNat.testBit i := by
  have high : y.toNat.testBit (17 + (i + 15)) = false :=
    Nat.testBit_lt_two_pow (lt_of_lt_of_le y.toNat_lt (Nat.pow_le_pow_right (by decide) (by omega)))
  have left : (y <<< 15).toNat = y.toNat <<< 15 % 2 ^ 32 := UInt32.toNat_shiftLeft y _
  have right : (y >>> (32 - 15)).toNat = y.toNat >>> 17 := UInt32.toNat_shiftRight y _
  rw [Murmur3.rotl, UInt32.toNat_or, left, right, Nat.testBit_or, Nat.testBit_mod_two_pow,
    Nat.testBit_shiftLeft, Nat.testBit_shiftRight, high, Bool.or_false]
  simp only [show i + 15 < 32 by omega, show i + 15 ≥ 15 by omega, decide_true, Bool.true_and]
  congr 1

/-- If the two rotations give the same word, the low bits of the one factor stand
two places higher in the other. -/
theorem low_of_tailMixed_eq {x y : UInt32} (same : tailMixed x = Murmur3.rotl y 15) {n : Nat}
    (low : n ≤ 17) : x.toNat % 2 ^ (n + 2) / 4 = y.toNat % 2 ^ n := by
  apply Nat.eq_of_testBit_eq
  intro i
  rw [show (4 : Nat) = 2 ^ 2 by rfl, ← Nat.shiftRight_eq_div_pow, Nat.testBit_shiftRight,
    Nat.testBit_mod_two_pow, Nat.testBit_mod_two_pow, Nat.add_comm 2 i]
  rcases Nat.lt_or_ge i n with below | above
  · have bit := congrArg (fun w : UInt32 => w.toNat.testBit (i + 15)) same
    simp only [testBit_tailMixed x (show i < 17 by omega), testBit_rotl y (show i < 17 by omega)]
      at bit
    simp only [below, show i + 2 < n + 2 by omega, decide_true, Bool.true_and, bit]
  · simp only [Nat.not_lt.mpr above, show ¬ i + 2 < n + 2 by omega, decide_false, Bool.false_and]

/-! ## Low bits of the tail words -/

/-- The first `n` bits of the products of two tail words allow the same result. -/
def lowAgree (n : Nat) (w v : UInt32) : Bool :=
  (w * murmurC1).toNat % 2 ^ (n + 2) / 4 = (v * Murmur3.c1).toNat % 2 ^ n

theorem mul_mod_of_mod {a b : UInt32} (c : UInt32) {n : Nat} (le : n ≤ 32)
    (same : a.toNat % 2 ^ n = b.toNat % 2 ^ n) :
    (a * c).toNat % 2 ^ n = (b * c).toNat % 2 ^ n := by
  have dvd : 2 ^ n ∣ 2 ^ 32 := Nat.pow_dvd_pow 2 le
  rw [UInt32.toNat_mul, UInt32.toNat_mul, Nat.mod_mod_of_dvd _ dvd, Nat.mod_mod_of_dvd _ dvd]
  exact Nat.ModEq.mul_right _ same

/-- The low bits of the products depend on those of the words. -/
theorem lowAgree_of_mod {n : Nat} (le : n + 2 ≤ 32) {w w' v v' : UInt32}
    (words : w.toNat % 2 ^ (n + 2) = w'.toNat % 2 ^ (n + 2))
    (words' : v.toNat % 2 ^ n = v'.toNat % 2 ^ n) (agree : lowAgree n w v = true) :
    lowAgree n w' v' = true := by
  rw [lowAgree, decide_eq_true_eq] at agree ⊢
  rw [← mul_mod_of_mod murmurC1 le words, ← mul_mod_of_mod Murmur3.c1 (by omega) words', agree]

/-- A byte further up does not reach the low bits. -/
theorem xor_shiftLeft_mod (a b s : UInt32) {n : Nat} (le : n ≤ s.toNat) (small : s.toNat < 32) :
    ((a <<< s) ^^^ b).toNat % 2 ^ n = b.toNat % 2 ^ n := by
  have dvd : 2 ^ n ∣ 2 ^ 32 := Nat.pow_dvd_pow 2 (by omega)
  rw [UInt32.toNat_xor, UInt32.toNat_shiftLeft, Nat.mod_eq_of_lt small, Nat.xor_mod_two_pow,
    Nat.mod_mod_of_dvd _ dvd, Nat.shiftLeft_eq, Nat.mod_eq_zero_of_dvd, Nat.zero_xor]
  exact (Nat.pow_dvd_pow 2 le).mul_left _

section Tails

variable (t0 t1 t2 : UInt8)

theorem tailWord_two {n : Nat} (le : n ≤ 8) :
    (tailWord [t0, t1]).toNat % 2 ^ n = (tailWord [t0]).toNat % 2 ^ n :=
  xor_shiftLeft_mod (signedChar t1) (signedChar t0) 8 le (by decide)

theorem tailWord_three {n : Nat} (le : n ≤ 16) :
    (tailWord [t0, t1, t2]).toNat % 2 ^ n = (tailWord [t0, t1]).toNat % 2 ^ n := by
  rw [tailWord, UInt32.xor_assoc]
  exact xor_shiftLeft_mod (signedChar t2) (tailWord [t0, t1]) 16 le (by decide)

theorem murmurTail_two {n : Nat} (le : n ≤ 8) :
    (Murmur3.tailWord [t0, t1]).toNat % 2 ^ n = (Murmur3.tailWord [t0]).toNat % 2 ^ n :=
  xor_shiftLeft_mod t1.toUInt32 t0.toUInt32 8 le (by decide)

theorem murmurTail_three {n : Nat} (le : n ≤ 16) :
    (Murmur3.tailWord [t0, t1, t2]).toNat % 2 ^ n = (Murmur3.tailWord [t0, t1]).toNat % 2 ^ n := by
  rw [Murmur3.tailWord, UInt32.xor_assoc]
  exact xor_shiftLeft_mod t2.toUInt32 (Murmur3.tailWord [t0, t1]) 16 le (by decide)

end Tails

/-! ## Tails without NUL -/

/-- The two mixed words of a tail agree. -/
def TailAgrees (tail : List UInt8) : Prop :=
  tailMixed (tailWord tail * murmurC1) = Murmur3.rotl (Murmur3.tailWord tail * Murmur3.c1) 15

instance (tail : List UInt8) : Decidable (TailAgrees tail) := inferInstanceAs (Decidable (_ = _))

theorem TailAgrees.low {tail : List UInt8} (agrees : TailAgrees tail) {n : Nat} (le : n ≤ 17) :
    lowAgree n (tailWord tail) (Murmur3.tailWord tail) = true :=
  decide_eq_true (low_of_tailMixed_eq agrees le)

/-- Six bits leave three first bytes, and none of them is a whole tail. -/
theorem not_agrees_one : ∀ t0 : Fin 256, t0 ≠ 0 → ¬ TailAgrees [.ofFin t0] := by
  decide +kernel

theorem not_agrees_two : ∀ t0 : Fin 256, t0 ≠ 0 →
    lowAgree 6 (tailWord [.ofFin t0]) (Murmur3.tailWord [.ofFin t0]) = true →
    ∀ t1 : Fin 256, t1 ≠ 0 → ¬ TailAgrees [.ofFin t0, .ofFin t1] := by
  decide +kernel

/-- Fourteen bits leave three pairs of bytes in front of a third. -/
theorem not_agrees_three : ∀ t0 : Fin 256, t0 ≠ 0 →
    lowAgree 6 (tailWord [.ofFin t0]) (Murmur3.tailWord [.ofFin t0]) = true →
    ∀ t1 : Fin 256, t1 ≠ 0 →
    lowAgree 14 (tailWord [.ofFin t0, .ofFin t1]) (Murmur3.tailWord [.ofFin t0, .ofFin t1]) = true →
    ∀ t2 : Fin 256, t2 ≠ 0 → ¬ TailAgrees [.ofFin t0, .ofFin t1, .ofFin t2] := by
  decide +kernel

/-- The words of a tail without NUL differ. -/
theorem not_agrees {tail : List UInt8} (nonempty : tail ≠ []) (short : tail.length < 4)
    (nulFree : 0 ∉ tail) : ¬ TailAgrees tail := by
  have byte : ∀ t ∈ tail, t.toFin ≠ 0 := by
    intro t member zero
    exact nulFree ((UInt8.toFin_inj.mp zero : t = 0) ▸ member)
  rcases tail with - | ⟨t0, - | ⟨t1, - | ⟨t2, - | ⟨t3, rest⟩⟩⟩⟩
  · contradiction
  · exact not_agrees_one t0.toFin (byte t0 (by simp))
  · intro agrees
    have first := lowAgree_of_mod (by decide) (tailWord_two t0 t1 (le_refl 8))
      (murmurTail_two t0 t1 (by decide)) (agrees.low (show 6 ≤ 17 by decide))
    exact not_agrees_two t0.toFin (byte t0 (by simp)) first t1.toFin (byte t1 (by simp)) agrees
  · intro agrees
    have pair := lowAgree_of_mod (by decide) (tailWord_three t0 t1 t2 (le_refl 16))
      (murmurTail_three t0 t1 t2 (by decide)) (agrees.low (show 14 ≤ 17 by decide))
    have first := lowAgree_of_mod (by decide)
      ((tailWord_three t0 t1 t2 (by decide)).trans (tailWord_two t0 t1 (le_refl 8)))
      ((murmurTail_three t0 t1 t2 (by decide)).trans (murmurTail_two t0 t1 (by decide)))
      (agrees.low (show 6 ≤ 17 by decide))
    exact not_agrees_three t0.toFin (byte t0 (by simp)) first t1.toFin (byte t1 (by simp)) pair
      t2.toFin (byte t2 (by simp)) agrees
  · simp only [List.length_cons] at short
    omega

/-! ## The hash of a key -/

/-- The word of a key before its length and the finaliser. -/
def hashWord (bytes : List UInt8) (seed : UInt32) : UInt32 :=
  hashTail (hashBlocks bytes seed).1 (hashBlocks bytes seed).2

theorem hashKey_eq (key : CStr) (seed : UInt32) :
    hashKey key seed = Murmur3.fmix (hashWord (key.bytes.take (key.bytes.length % 2 ^ 32)) seed ^^^
      UInt32.ofNat (key.bytes.length % 2 ^ 32)) := by
  rw [hashKey, hashWord]
  generalize key.bytes.length % 2 ^ 32 = len
  generalize hashBlocks (key.bytes.take len) seed = p
  rcases p with ⟨h, tail⟩
  rfl

/-- The hash is the reference one exactly if the words are. -/
theorem hashKey_eq_murmur_iff (key : CStr) (seed : UInt32) :
    hashKey key seed = Murmur3.hash key.bytes seed ↔
      hashWord (key.bytes.take (key.bytes.length % 2 ^ 32)) seed = Murmur3.body key.bytes seed := by
  rw [hashKey_eq, Murmur3.hash, Murmur3.fmix_injective.eq_iff, UInt32.ofNat_mod_size,
    UInt32.xor_left_inj]

/-- One round of a recursion over blocks.  The step is a variable: the kernel
must not compare words by computing with them. -/
theorem brecOn_block {α σ τ : Type}
    (F : (t : List α) → List.below (motive := fun _ => σ → τ) t → σ → τ)
    (f : σ → α → α → α → α → σ)
    (round : ∀ a0 a1 a2 a3 rest below s,
      F (a0 :: a1 :: a2 :: a3 :: rest) below s = below.2.2.2.1 (f s a0 a1 a2 a3))
    (a0 a1 a2 a3 : α) (rest : List α) (s : σ) :
    List.brecOn (motive := fun _ => σ → τ) (a0 :: a1 :: a2 :: a3 :: rest) F s =
      List.brecOn (motive := fun _ => σ → τ) rest F (f s a0 a1 a2 a3) :=
  round a0 a1 a2 a3 rest _ s

theorem hashBlocks_block (b0 b1 b2 b3 : UInt8) (rest : List UInt8) (hash : UInt32) :
    hashBlocks (b0 :: b1 :: b2 :: b3 :: rest) hash =
      hashBlocks rest (hashBlock hash (loadBlock b0 b1 b2 b3)) := by
  delta hashBlocks
  exact brecOn_block hashBlocks._f (fun hash b0 b1 b2 b3 => hashBlock hash (loadBlock b0 b1 b2 b3))
    (fun _ _ _ _ _ _ _ => rfl) b0 b1 b2 b3 rest hash

theorem hashBlocks_short {tail : List UInt8} (short : tail.length < 4) (hash : UInt32) :
    hashBlocks tail hash = (hash, tail) := by
  rcases tail with - | ⟨t0, - | ⟨t1, - | ⟨t2, - | ⟨t3, rest⟩⟩⟩⟩
  · rfl
  · rfl
  · rfl
  · rfl
  · simp only [List.length_cons] at short
    omega

theorem hashBlock_eq (hash : UInt32) (b0 b1 b2 b3 : UInt8) :
    hashBlock hash (loadBlock b0 b1 b2 b3) = Murmur3.mixBlock hash b0 b1 b2 b3 := by
  simp only [hashBlock, loadBlock, murmurC1, murmurC2, murmurR1, murmurR2, murmurMix1, murmurMix2,
    Murmur3.mixBlock, Murmur3.scramble, Murmur3.rotl, Murmur3.block, Murmur3.c1, Murmur3.c2]

/-- The block loop is the reference one. -/
theorem hashBlocks_eq (bytes : List UInt8) (hash : UInt32) :
    hashBlocks bytes hash = foldBlocks Murmur3.mixBlock bytes hash := by
  induction bytes using blocks_induction generalizing hash with
  | short tail short => rw [hashBlocks_short short, foldBlocks_short _ short]
  | block b0 b1 b2 b3 rest ih => rw [hashBlocks_block, hashBlock_eq, ih, foldBlocks]

/-- The word of a byte string without NUL is the reference one exactly if there
is no tail. -/
theorem hashWord_eq_body_iff {bytes : List UInt8} (nulFree : 0 ∉ bytes) (seed : UInt32) :
    hashWord bytes seed = Murmur3.body bytes seed ↔ 4 ∣ bytes.length := by
  obtain ⟨length, suffix⟩ := foldBlocks_tail Murmur3.mixBlock bytes seed
  rw [hashWord, Murmur3.body, hashBlocks_eq, Murmur3.mixTail]
  generalize (foldBlocks Murmur3.mixBlock bytes seed).1 = h
  generalize (foldBlocks Murmur3.mixBlock bytes seed).2 = tail at *
  rcases eq_or_ne tail [] with rfl | nonempty
  · exact iff_of_true rfl (Nat.dvd_of_mod_eq_zero length.symm)
  · have short : tail.length < 4 := length ▸ Nat.mod_lt _ (by decide)
    refine iff_of_false ?_ ?_
    · intro same
      rw [hashTail_eq h nonempty, if_neg nonempty, UInt32.xor_right_inj] at same
      have agrees : TailAgrees tail :=
        Murmur3.mul_injective (c := Murmur3.c2) (d := 0x56ed309b) (by decide) same
      exact not_agrees nonempty short (fun zero => nulFree (suffix.subset zero)) agrees
    · intro divides
      rw [Nat.mod_eq_zero_of_dvd divides] at length
      exact nonempty (List.length_eq_zero_iff.mp length)

/-- Keys without a tail whose length the `u32` of the source holds. -/
def HashesAsMurmur (key : CStr) : Prop := key.bytes.length < 2 ^ 32 ∧ 4 ∣ key.bytes.length

/-- Of a key of `2 ^ 32` bytes or more only the bytes beyond a multiple of
`2 ^ 32` are hashed: the hash of a shorter key, which the reference hash of the
whole key can only meet in a collision. -/
theorem hashKey_eq_murmur_of_short {key : CStr} (short : key.bytes.length < 2 ^ 32)
    (seed : UInt32) : hashKey key seed = Murmur3.hash key.bytes seed ↔ HashesAsMurmur key := by
  rw [hashKey_eq_murmur_iff, Nat.mod_eq_of_lt short, List.take_length, HashesAsMurmur,
    and_iff_right short]
  exact hashWord_eq_body_iff key.nulFree seed

/-- Both functions are the reference hash on these keys, and neither is on another
key of less than `2 ^ 32` bytes. -/
theorem hashKey_murmur_iff (key : CStr) (seed : UInt32) :
    (HashesAsMurmur key → dictHashKey key seed = Murmur3.hash key.bytes seed ∧
        skiplistHashKey key seed = Murmur3.hash key.bytes seed) ∧
      (key.bytes.length < 2 ^ 32 →
        (dictHashKey key seed = Murmur3.hash key.bytes seed ↔ HashesAsMurmur key) ∧
          (skiplistHashKey key seed = Murmur3.hash key.bytes seed ↔ HashesAsMurmur key)) := by
  constructor
  · intro plain
    have hashed := (hashKey_eq_murmur_of_short plain.1 seed).mpr plain
    exact ⟨hashed, hashed⟩
  · intro short
    have exact := hashKey_eq_murmur_of_short short seed
    exact ⟨exact, exact⟩

/-- The one-byte key `a` with seed zero. -/
theorem hash_of_a_is_not_murmur :
    dictHashKey ⟨[97], by decide⟩ 0 ≠ Murmur3.hash [97] 0 := by
  decide +kernel

end XFireDB
