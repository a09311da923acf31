import Mathlib

/-!
# Rounding up to a power of two by smearing bits

`y ||| (y >>> k)` for `k = 1, 2, 4, …` copies the highest set bit of `y` into
every lower position.  `Smeared m y x` says how far the copy has got: bit `i`
of `x` is set exactly when one of the `m` bits of `y` from `i` upwards is.
Each doubling step doubles `m`, and a word of at most `m` bits is then
`2 ^ y.size - 1`.
-/

namespace XFireDB.Lib

/-- Bit `i` of `x` collects the bits `i, …, i + m - 1` of `y`. -/
def Smeared (m y x : Nat) : Prop :=
  ∀ i, x.testBit i = true ↔ ∃ j < m, y.testBit (i + j) = true

theorem Smeared.start (y : Nat) : Smeared 1 y y := by
  intro i
  constructor
  · intro set
    exact ⟨0, Nat.one_pos, set⟩
  · intro found
    obtain ⟨j, below, set⟩ := found
    obtain rfl : j = 0 := by omega
    exact set

/-- One smearing step doubles the number of collected bits. -/
theorem Smeared.double {m y x : Nat} (smeared : Smeared m y x) :
    Smeared (m + m) y (x ||| x >>> m) := by
  intro i
  rw [Nat.testBit_or, Nat.testBit_shiftRight, Bool.or_eq_true, smeared i, smeared (m + i)]
  constructor
  · intro either
    rcases either with ⟨j, below, set⟩ | ⟨j, below, set⟩
    · exact ⟨j, by omega, set⟩
    · exact ⟨m + j, by omega, by rwa [show i + (m + j) = m + i + j by omega]⟩
  · intro found
    obtain ⟨j, below, set⟩ := found
    by_cases near : j < m
    · exact Or.inl ⟨j, near, set⟩
    · refine Or.inr ⟨j - m, by omega, ?_⟩
      rwa [show m + i + (j - m) = i + j by omega]

/-- A fully smeared word is all ones below the highest set bit. -/
theorem Smeared.eq_pred_pow {m y x : Nat} (smeared : Smeared m y x) (fits : y < 2 ^ m) :
    x = 2 ^ y.size - 1 := by
  apply Nat.eq_of_testBit_eq
  intro i
  rw [Nat.testBit_two_pow_sub_one]
  apply Bool.eq_iff_iff.mpr
  rw [smeared i, decide_eq_true_iff]
  constructor
  · intro found
    obtain ⟨j, _, set⟩ := found
    have le : 2 ^ (i + j) ≤ y := Nat.ge_two_pow_of_testBit set
    have lt : i + j < y.size := Nat.lt_size.mpr le
    omega
  · intro inside
    have pos : y ≠ 0 := by
      intro same
      obtain rfl := same
      simp at inside
    have sizeLe : y.size ≤ m := Nat.size_le.mpr fits
    refine ⟨y.size - 1 - i, by omega, ?_⟩
    rw [show i + (y.size - 1 - i) = y.size - 1 by omega]
    have low : 2 ^ (y.size - 1) ≤ y := Nat.lt_size.mp (by omega)
    have high : y < 2 ^ (y.size - 1 + 1) := by
      rw [show y.size - 1 + 1 = y.size by omega]
      exact Nat.lt_size_self y
    rw [Nat.testBit_eq_decide_div_mod_eq, decide_eq_true_iff,
      Nat.div_eq_of_lt_le (by omega) (by omega : y < (1 + 1) * 2 ^ (y.size - 1))]

/-- `2 ^ (n - 1).size` is the least power of two that is at least `n`. -/
theorem le_two_pow_size_pred {n : Nat} : n ≤ 2 ^ (n - 1).size := by
  have below := Nat.lt_size_self (n - 1)
  omega

theorem size_pred_le_of_le_two_pow {n k : Nat} (bound : n ≤ 2 ^ k) :
    (n - 1).size ≤ k := by
  apply Nat.size_le.mpr
  have pos : 0 < 2 ^ k := Nat.two_pow_pos k
  omega

end XFireDB.Lib
