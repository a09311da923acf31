import Mathlib

/-!
# MurmurHash3_x86_32

The reference function on byte strings, and what of it is injective: each
round of the finaliser, and the mixing of a word up to the rotation.
-/

namespace XFireDB.Lib

/-! ## Blocks of four -/

section Blocks

variable {α : Type} {σ : Type}

/-- Fold over the full blocks of four; with what is left behind them. -/
def foldBlocks (f : σ → α → α → α → α → σ) : List α → σ → σ × List α
  | a0 :: a1 :: a2 :: a3 :: rest, s => foldBlocks f rest (f s a0 a1 a2 a3)
  | tail, s => (s, tail)

/-- Induction along the blocks. -/
theorem blocks_induction {P : List α → Prop} (short : ∀ tail, tail.length < 4 → P tail)
    (block : ∀ a0 a1 a2 a3 rest, P rest → P (a0 :: a1 :: a2 :: a3 :: rest)) : ∀ l, P l
  | a0 :: a1 :: a2 :: a3 :: rest => block a0 a1 a2 a3 rest (blocks_induction short block rest)
  | [] => short _ (by simp)
  | [_] => short _ (by simp)
  | [_, _] => short _ (by simp)
  | [_, _, _] => short _ (by simp)

theorem foldBlocks_short (f : σ → α → α → α → α → σ) {tail : List α} (short : tail.length < 4)
    (s : σ) : foldBlocks f tail s = (s, tail) := by
  rcases tail with - | ⟨t0, - | ⟨t1, - | ⟨t2, - | ⟨t3, rest⟩⟩⟩⟩
  · rfl
  · rfl
  · rfl
  · rfl
  · simp only [List.length_cons] at short
    omega

/-- Behind the blocks there are less than four. -/
theorem foldBlocks_tail (f : σ → α → α → α → α → σ) (l : List α) (s : σ) :
    (foldBlocks f l s).2.length = l.length % 4 ∧ (foldBlocks f l s).2 <:+ l := by
  induction l using blocks_induction generalizing s with
  | short tail short =>
      rw [foldBlocks_short f short]
      exact ⟨(Nat.mod_eq_of_lt short).symm, List.suffix_refl tail⟩
  | block a0 a1 a2 a3 rest ih =>
      obtain ⟨length, suffix⟩ := ih (f s a0 a1 a2 a3)
      rw [foldBlocks]
      refine ⟨?_, suffix.trans ⟨[a0, a1, a2, a3], rfl⟩⟩
      rw [length]
      simp only [List.length_cons]
      omega

end Blocks

namespace Murmur3

/-! ## The function -/

def c1 : UInt32 := 0xcc9e2d51
def c2 : UInt32 := 0x1b873593

/-- `ROTL32`. -/
def rotl (x r : UInt32) : UInt32 := (x <<< r) ||| (x >>> (32 - r))

/-- A block of four bytes, little-endian. -/
def block (b0 b1 b2 b3 : UInt8) : UInt32 :=
  b0.toUInt32 ||| (b1.toUInt32 <<< 8) ||| (b2.toUInt32 <<< 16) ||| (b3.toUInt32 <<< 24)

/-- The scrambled form of a word of the input. -/
def scramble (k : UInt32) : UInt32 := rotl (k * c1) 15 * c2

/-- One block. -/
def mixBlock (h : UInt32) (b0 b1 b2 b3 : UInt8) : UInt32 :=
  rotl (h ^^^ scramble (block b0 b1 b2 b3)) 13 * 5 + 0xe6546b64

/-- The tail bytes as a word; they are unsigned. -/
def tailWord : List UInt8 → UInt32
  | [t0, t1, t2] => (t2.toUInt32 <<< 16) ^^^ (t1.toUInt32 <<< 8) ^^^ t0.toUInt32
  | [t0, t1] => (t1.toUInt32 <<< 8) ^^^ t0.toUInt32
  | [t0] => t0.toUInt32
  | _ => 0

/-- The tail. -/
def mixTail (h : UInt32) (tail : List UInt8) : UInt32 :=
  if tail = [] then h else h ^^^ scramble (tailWord tail)

/-- The body: all blocks, then the tail. -/
def body (bytes : List UInt8) (seed : UInt32) : UInt32 :=
  mixTail (foldBlocks mixBlock bytes seed).1 (foldBlocks mixBlock bytes seed).2

/-- `fmix32`. -/
def fmix (h : UInt32) : UInt32 :=
  let h := h ^^^ (h >>> 16)
  let h := h * 0x85ebca6b
  let h := h ^^^ (h >>> 13)
  let h := h * 0xc2b2ae35
  h ^^^ (h >>> 16)

/-- The hash of a byte string. -/
def hash (bytes : List UInt8) (seed : UInt32) : UInt32 :=
  fmix (body bytes seed ^^^ UInt32.ofNat bytes.length)

/-! ## Injectivity -/

/-- The bits of a word are found again from the top. -/
theorem xorShift_bits {w s : Nat} (pos : 0 < s) {x y : BitVec w}
    (same : x ^^^ (x >>> s) = y ^^^ (y >>> s)) (i : Nat) : x.getLsbD i = y.getLsbD i := by
  rcases Nat.lt_or_ge i w with inside | outside
  · have upper := xorShift_bits pos same (s + i)
    have here := congrArg (fun v : BitVec w => v.getLsbD i) same
    simp only [BitVec.getLsbD_xor, BitVec.getLsbD_ushiftRight, upper] at here
    exact Bool.xor_left_inj.mp here
  · rw [BitVec.getLsbD_of_ge x i outside, BitVec.getLsbD_of_ge y i outside]
termination_by w - i

theorem xorShift_injective {s : UInt32} (pos : 0 < s.toNat % 32) :
    Function.Injective fun x : UInt32 => x ^^^ (x >>> s) := by
  intro x y same
  have bits := congrArg UInt32.toBitVec same
  simp only [UInt32.toBitVec_xor, UInt32.toBitVec_shiftRight] at bits
  apply UInt32.toBitVec_inj.mp
  apply BitVec.eq_of_getLsbD_eq
  intro i _
  exact xorShift_bits pos bits i

theorem mul_injective {c d : UInt32} (inverse : c * d = 1) :
    Function.Injective fun x : UInt32 => x * c := by
  intro x y same
  have undone := congrArg (· * d) same
  simpa only [UInt32.mul_assoc, inverse, UInt32.mul_one] using undone

theorem fmix_injective : Function.Injective fmix :=
  (xorShift_injective (s := 16) (by decide)).comp <|
    (mul_injective (d := 0x7ed1b41d) (by decide)).comp <|
      (xorShift_injective (s := 13) (by decide)).comp <|
        (mul_injective (d := 0xa5cb9243) (by decide)).comp <|
          xorShift_injective (s := 16) (by decide)

end Murmur3

end XFireDB.Lib
