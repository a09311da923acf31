import XFireDB.Xql

/-!
# Escaped texts

The C client escapes a text into a buffer of twice its length and puts it between
quotes; the server takes the line apart again.  A write outside of the buffer has no
result (`none`).
-/

namespace XFireDB

namespace Client

/-- The letter that stands for a byte behind a backslash. -/
def escapeLetter (c : UInt8) : Option UInt8 :=
  if c = 7 then some 97
  else if c = 8 then some 98
  else if c = 12 then some 102
  else if c = 10 then some 110
  else if c = 13 then some 114
  else if c = 9 then some 116
  else if c = 11 then some 118
  else if c = 92 then some 92
  else if c = 34 then some 34
  else if c = 39 then some 39
  else none

/-- What the `switch` writes for a byte. -/
def escapeByte (c : UInt8) : RStr :=
  match escapeLetter c with
  | some letter => [92, letter]
  | none => [c]

/-- The loop over the text, with what is in the buffer so far. -/
def escapeLoop (size : Int) (out : RStr) : RStr → Option RStr
  | [] => if out.length < size then some out else none
  | c :: src =>
    if (out ++ escapeByte c).length ≤ size then escapeLoop size (out ++ escapeByte c) src else none

/-- `xfiredb_escape_string`: the length is an `int`, and so is its double. -/
def xfiredbEscapeString (src : CStr) : Option RStr :=
  escapeLoop ((2 * src.bytes.length : Int).bmod (2 ^ 32)) [] src.bytes

/-- A line of words and the escaped text between quotes. -/
def escapedLine (words : List RStr) (escaped : RStr) : RStr :=
  join (lit " ") (words ++ [quote escaped])

/-! ## The buffer -/

theorem escapeLoop_eq (size : Int) (out src : RStr) :
    escapeLoop size out src =
      if (out ++ src.flatMap escapeByte).length < size then some (out ++ src.flatMap escapeByte)
      else none := by
  induction src generalizing out with
  | nil => simp [escapeLoop]
  | cons c src ih =>
      rw [escapeLoop, ih, List.flatMap_cons, ← List.append_assoc]
      split
      · rfl
      · rename_i outside
        rw [if_neg]
        rw [List.length_append]
        omega

/-- A length whose double is no `int` gets a buffer that is too small for it. -/
theorem bmod_double (n : Nat) : n < 2 ^ 30 ∧ (2 * n : Int).bmod (2 ^ 32) = 2 * n ∨
    2 ^ 30 ≤ n ∧ (2 * n : Int).bmod (2 ^ 32) ≤ n := by
  have range := @Int.bmod_lt (2 * n : Int) (2 ^ 32) (by decide)
  have modulus := Int.emod_add_mul_ediv (2 * n : Int) (2 ^ 32)
  rw [Int.bmod_def] at range ⊢
  split at range <;> omega

/-- Each byte takes two, but for those that are not escaped. -/
theorem length_escaped (l : RStr) :
    (l.flatMap escapeByte).length + l.countP (escapeLetter · = none) = 2 * l.length := by
  induction l with
  | nil => rfl
  | cons c l ih =>
      rw [List.flatMap_cons, List.length_append, List.countP_cons, List.length_cons, escapeByte]
      cases escapeLetter c <;> simp [-List.length_flatMap] <;> omega

/-- The text is escaped exactly if its double is an `int` and there is a byte that is
not escaped, so that the terminator fits. -/
theorem xfiredbEscapeString_eq (src : CStr) :
    xfiredbEscapeString src =
      if src.bytes.length < 2 ^ 30 ∧ ∃ c ∈ src.bytes, escapeLetter c = none then
        some (src.bytes.flatMap escapeByte)
      else none := by
  have counted := length_escaped src.bytes
  have atMost := List.countP_le_length (p := (escapeLetter · = none)) (l := src.bytes)
  have some_ : (∃ c ∈ src.bytes, escapeLetter c = none) ↔
      0 < src.bytes.countP (escapeLetter · = none) := by
    rw [List.countP_pos_iff]
    simp only [decide_eq_true_eq]
  rw [xfiredbEscapeString, escapeLoop_eq, List.nil_append]
  refine if_congr ?_ rfl rfl
  rw [some_]
  rcases bmod_double src.bytes.length with ⟨small, size⟩ | ⟨large, size⟩
  · rw [size]
    omega
  · omega

/-! ## The line -/

theorem of_escapeLetter {c letter : UInt8} (escaped : escapeLetter c = some letter) :
    letter ≠ 10 := by
  intro same
  obtain rfl := same
  unfold escapeLetter at escaped
  repeat' split at escaped
  all_goals cases escaped

theorem of_not_escaped {c : UInt8} (kept : escapeLetter c = none) :
    c ≠ 10 ∧ c ≠ 34 ∧ c ≠ 92 := by
  refine ⟨?_, ?_, ?_⟩ <;> rintro rfl <;> cases kept

theorem feed_not_mem_escaped (l : RStr) : 10 ∉ l.flatMap escapeByte := by
  rw [List.mem_flatMap]
  intro found
  obtain ⟨c, _, member⟩ := found
  rw [escapeByte] at member
  split at member
  · rename_i letter escaped
    simp [(of_escapeLetter escaped).symm] at member
  · rename_i kept
    exact (of_not_escaped kept).1 (List.mem_singleton.mp member).symm

/-- The quote that closes an escaped text is the one behind it. -/
theorem quoted_escaped (l rest : RStr) :
    quoted (l.flatMap escapeByte ++ 34 :: rest) = some (l.flatMap escapeByte ++ [34], rest) := by
  induction l with
  | nil => simp [quoted]
  | cons c l ih =>
      rw [List.flatMap_cons, List.append_assoc, escapeByte]
      cases escaped : escapeLetter c with
      | some letter =>
          have backslash : ¬(92 : UInt8) = 34 := by decide
          rw [List.cons_append, List.cons_append, List.nil_append, quoted.eq_def]
          simp only [if_neg backslash, true_and, if_pos (of_escapeLetter escaped), ih]
          rfl
      | none =>
          obtain ⟨_, notQuote, notBackslash⟩ := of_not_escaped escaped
          rw [List.singleton_append, quoted.eq_def]
          simp only [notQuote, notBackslash, if_false, false_and, ih, Option.map_some]
          split <;> rfl

theorem feed_not_mem_escapedLine {words : List RStr} (plain : ∀ w ∈ words, PlainWord w) (l : RStr) :
    10 ∉ escapedLine words (l.flatMap escapeByte) := by
  intro member
  rcases mem_join member with blank | ⟨w, isIn, inside⟩
  · exact absurd blank (by decide)
  · rcases List.mem_append.mp isIn with word | last
    · exact absurd ((plain w word).2 10 inside) (by decide)
    · rw [List.mem_singleton] at last
      subst last
      simp only [quote, List.mem_append] at inside
      rcases inside with (front | escaped) | back
      · exact absurd front (by decide)
      · exact feed_not_mem_escaped l escaped
      · exact absurd back (by decide)

theorem tokenize_escapedLine {words : List RStr} (plain : ∀ w ∈ words, PlainWord w) (l : RStr) :
    tokenize (escapedLine words (l.flatMap escapeByte)) = words ++ [l.flatMap escapeByte] := by
  have last : IsToken (quote (l.flatMap escapeByte)) (l.flatMap escapeByte) :=
    isToken_quote fun rest => quoted_escaped l rest
  have areTokens : ∀ f ∈ words.map (fun w => (w, w)) ++
      [(quote (l.flatMap escapeByte), l.flatMap escapeByte)], IsToken f.1 f.2 := by
    intro f member
    rcases List.mem_append.mp member with word | isLast
    · obtain ⟨w, isIn, rfl⟩ := List.mem_map.mp word
      exact (plain w isIn).isToken
    · rw [List.mem_singleton] at isLast
      subst isLast
      exact last
  have joined := tokenize_join areTokens
  rw [List.map_append, List.map_append, List.map_map, List.map_map] at joined
  simpa [escapedLine, Function.comp_def] using joined

/-- Text, command and arguments come through exactly if the escaped text fits into its
buffer. -/
theorem escapedLine_parses_iff (s : CStr) (cmd : RStr) (args : List RStr) (plain : PlainWord cmd)
    (plainArgs : ∀ a ∈ args, PlainWord a) :
    (∃ escaped, xfiredbEscapeString s = some escaped ∧
        10 ∉ escapedLine (cmd :: args) escaped ∧
        parseXql (escapedLine (cmd :: args) escaped) = some ⟨upcase cmd, args ++ [escaped]⟩) ↔
      s.bytes.length < 2 ^ 30 ∧ ∃ c ∈ s.bytes, escapeLetter c = none := by
  have words : ∀ w ∈ cmd :: args, PlainWord w := List.forall_mem_cons.mpr ⟨plain, plainArgs⟩
  rw [xfiredbEscapeString_eq]
  constructor
  · intro found
    obtain ⟨escaped, found, _⟩ := found
    split at found
    · assumption
    · cases found
  · intro fits
    refine ⟨s.bytes.flatMap escapeByte, if_pos fits, feed_not_mem_escapedLine words s.bytes, ?_⟩
    rw [parseXql, tokenize_escapedLine words s.bytes]
    rfl

theorem nulFree_singleQuote : 0 ∉ lit "\"" := by decide

/-- A text of one quote fills its buffer, and the terminator goes behind it. -/
theorem escapedLine_quote :
    ¬ ∃ escaped, xfiredbEscapeString ⟨lit "\"", nulFree_singleQuote⟩ = some escaped ∧
      10 ∉ escapedLine [lit "set", lit "key"] escaped ∧
      parseXql (escapedLine [lit "set", lit "key"] escaped) =
        some ⟨upcase (lit "set"), [lit "key"] ++ [escaped]⟩ := by
  have outside : xfiredbEscapeString ⟨lit "\"", nulFree_singleQuote⟩ = none := by decide
  intro found
  obtain ⟨escaped, found, _⟩ := found
  rw [outside] at found
  cases found

theorem nulFree_mixed : 0 ∉ lit "a\"\\" := by decide

theorem escapedLine_parses_mixed :
    ∃ escaped, xfiredbEscapeString ⟨lit "a\"\\", nulFree_mixed⟩ = some escaped ∧
      10 ∉ escapedLine [lit "set", lit "key"] escaped ∧
      parseXql (escapedLine [lit "set", lit "key"] escaped) =
        some ⟨upcase (lit "set"), [lit "key"] ++ [escaped]⟩ :=
  (escapedLine_parses_iff ⟨lit "a\"\\", nulFree_mixed⟩ (lit "set") [lit "key"]
    (by decide +kernel) (by decide +kernel)).mpr (by decide +kernel)

end Client

end XFireDB
