import XFireDB.KeyShard

/-!
# Texts in C

What the C library does with the texts the client handles: a text ends at its first
NUL, `strtok` skips empty pieces, and `atoi` is the `long` of `strtol` cut down to an
`int`.
-/

namespace XFireDB

/-- The C string at the start of a buffer that is zero from its end on. -/
def cText (buf : RStr) : RStr := buf.takeWhile (· ≠ 0)

theorem cText_eq_self {s : RStr} (nulFree : 0 ∉ s) : cText s = s := by
  rw [cText, List.takeWhile_eq_self_iff]
  intro b member
  simpa using fun nul : b = 0 => nulFree (nul ▸ member)

theorem cText_cons_of_ne {b : UInt8} (nonzero : b ≠ 0) (s : RStr) :
    cText (b :: s) = b :: cText s :=
  List.takeWhile_cons_of_pos (decide_eq_true nonzero)

theorem cText_nul (s : RStr) : cText (0 :: s) = [] :=
  List.takeWhile_cons_of_neg (by decide)

theorem nulFree_cText (s : RStr) : 0 ∉ cText s := by
  intro member
  simpa using List.mem_takeWhile_imp member

theorem cText_eq_self_iff {s : RStr} : cText s = s ↔ 0 ∉ s :=
  ⟨fun same => same ▸ nulFree_cText s, cText_eq_self⟩

/-- The pieces that repeated calls of `strtok` find. -/
def strtokAll (s : RStr) (delim : UInt8) : List RStr := (s.splitOnP (· = delim)).filter (· ≠ [])

/-- `strtok` finds the words of a line. -/
theorem strtokAll_join {words : List RStr} (areWords : ∀ w ∈ words, w ≠ [] ∧ 32 ∉ w) :
    strtokAll (join (lit " ") words) 32 = words := by
  refine pieces_join (by decide) fun w member => ⟨(areWords w member).1, ?_⟩
  intro b inside
  simpa using fun blank : b = 32 => (areWords w member).2 (blank ▸ inside)

/-! ## Numbers -/

/-- The number that a run of digits spells. -/
def digitsValue (digits : RStr) : Nat := digits.foldl (fun n b => 10 * n + (b.toNat - 48)) 0

/-- `strtol(s, NULL, 10)`, which stops at the bounds of a `long`. -/
def strtol (s : RStr) : Int :=
  let s := s.dropWhile isSpace
  let n : Int := digitsValue ((unsigned s).takeWhile isDigit)
  let signed := if s.head? = some 45 then -n else n
  max (-2 ^ 63) (min (2 ^ 63 - 1) signed)

/-- `atoi`. -/
def atoi (s : RStr) : Int := (strtol s).bmod (2 ^ 32)

/-- A NUL ends the text of a number, as any other byte does that is no digit. -/
theorem strtol_cText (s : RStr) : strtol (cText s) = strtol s := by
  have blanks : ∀ s : RStr, (cText s).dropWhile isSpace = cText (s.dropWhile isSpace) := by
    intro s
    induction s with
    | nil => rfl
    | cons b s ih =>
        rcases eq_or_ne b 0 with rfl | nonzero
        · rw [cText_nul, List.dropWhile_cons_of_neg (by decide), cText_nul, List.dropWhile_nil]
        · rw [cText_cons_of_ne nonzero, List.dropWhile_cons, List.dropWhile_cons]
          split
          · exact ih
          · exact (cText_cons_of_ne nonzero s).symm
  have digits : ∀ s : RStr, (cText s).takeWhile isDigit = s.takeWhile isDigit := by
    intro s
    induction s with
    | nil => rfl
    | cons b s ih =>
        rcases eq_or_ne b 0 with rfl | nonzero
        · rw [cText_nul, List.takeWhile_nil, List.takeWhile_cons_of_neg (by decide)]
        · rw [cText_cons_of_ne nonzero, List.takeWhile_cons, List.takeWhile_cons, ih]
  have sign : ∀ s : RStr, unsigned (cText s) = cText (unsigned s) ∧
      ((cText s).head? = some 45 ↔ s.head? = some 45) := by
    intro s
    cases s with
    | nil => exact ⟨rfl, Iff.rfl⟩
    | cons b s =>
        rcases eq_or_ne b 0 with rfl | nonzero
        · rw [cText_nul]
          exact ⟨rfl, by simp⟩
        · rw [cText_cons_of_ne nonzero]
          refine ⟨?_, Iff.rfl⟩
          rcases eq_or_ne b 43 with rfl | noPlus
          · rfl
          · rcases eq_or_ne b 45 with rfl | noMinus
            · rfl
            · rw [unsigned_of_ne noPlus noMinus, unsigned_of_ne noPlus noMinus,
                cText_cons_of_ne nonzero]
  rw [strtol, strtol]
  simp only [blanks, (sign _).1, digits, (sign _).2]

theorem atoi_cText (s : RStr) : atoi (cText s) = atoi s := by
  rw [atoi, strtol_cText, atoi]

theorem digitsValue_natToS (n : Nat) : digitsValue (natToS n) = n := by
  have cast : ∀ (s : RStr) (acc : Nat), (∀ b ∈ s, isDigit b = true) →
      ((s.foldl (fun n b => 10 * n + (b.toNat - 48)) acc : Nat) : Int) =
        s.foldl (fun n b => 10 * n + ((b.toNat : Int) - 48)) acc := by
    intro s
    induction s with
    | nil => exact fun acc _ => rfl
    | cons b s ih =>
        intro acc digits
        have digit := digits b List.mem_cons_self
        simp only [isDigit, Bool.and_eq_true, decide_eq_true_eq, UInt8.le_iff_toNat_le] at digit
        have low : 48 ≤ b.toNat := digit.1
        rw [List.foldl_cons, List.foldl_cons, ih _ fun c member =>
          digits c (List.mem_cons_of_mem b member)]
        push_cast [low]
        rfl
  have spelled := cast (natToS n) 0 fun b member => isDigit_of_mem_natToS member
  rw [Nat.cast_zero, foldl_natToS] at spelled
  exact_mod_cast spelled

theorem strtol_natToS (n : Nat) : strtol (natToS n) = min (2 ^ 63 - 1) (n : Int) := by
  obtain ⟨noSign, positive⟩ := unsigned_natToS n
  have skip : (natToS n).dropWhile isSpace = natToS n := by
    rw [List.dropWhile_eq_self_iff]
    intro nonempty
    simpa using (isWord_natToS n).2 _ (List.getElem_mem nonempty)
  have whole : (natToS n).takeWhile isDigit = natToS n := by
    rw [List.takeWhile_eq_self_iff]
    exact fun b member => isDigit_of_mem_natToS member
  simp only [strtol, skip, noSign, whole, digitsValue_natToS, if_neg positive]
  omega

theorem atoi_natToS {n : Nat} (small : n < 2 ^ 31) : atoi (natToS n) = n := by
  rw [atoi, strtol_natToS, min_eq_right (by omega)]
  exact Int.bmod_eq_of_le (by omega) (by omega)

/-- A count that is no `int` comes back smaller by at least `2^32`, or not positive. -/
theorem atoi_natToS_le {n : Nat} (large : 2 ^ 31 ≤ n) :
    atoi (natToS n) ≤ 0 ∨ atoi (natToS n) + 2 ^ 32 ≤ n := by
  rw [atoi, strtol_natToS]
  rcases le_total (2 ^ 63 - 1 : Int) n with long | short
  · left
    rw [min_eq_left long]
    decide
  · right
    rw [min_eq_right short]
    have range := @Int.bmod_lt n (2 ^ 32) (by decide)
    have modulus := Int.emod_add_mul_ediv n (2 ^ 32)
    rw [Int.bmod_def] at range ⊢
    split at range <;> omega

end XFireDB
