import XFireDB.ClientEscape

/-!
# The quotation library

The engine and the C client have a copy each of the functions that escape a text and take
the backslashes out again.  The copies differ in the room that the last `realloc` leaves
behind the characters.
-/

namespace XFireDB

namespace QuoteArg

open Client

/-- Where a copy of the library is. -/
inductive Copy
  | engine
  | client

/-- What the last `realloc` adds to the length of the text. -/
def Copy.room : Copy → Nat
  | .engine => 0
  | .client => 1

def strlen (text : RStr) : Nat := (text.takeWhile (· ≠ 0)).length

/-- A length in an `int`. -/
def toInt (len : Nat) : Int := (len : Int).bmod (2 ^ 32)

/-- The bytes of a block of `size` bytes; no block has half of the address space. -/
def block (size : Int) : Option Nat :=
  if (size % 2 ^ 64).toNat < 2 ^ 63 then some (size % 2 ^ 64).toNat else none

/-- `xfiredb_zalloc`: without memory the program aborts, and the block of size zero is
`NULL`. -/
def xfiredbZalloc (size : Int) : Option Nat := block size

/-- `xfiredb_realloc` of a text: without memory there is `NULL`. -/
def xfiredbRealloc (size : Int) : Nat := (block size).getD 0

def xfiredbUnescapeChar (c : UInt8) : UInt8 :=
  if c = 97 then 7
  else if c = 98 then 8
  else if c = 102 then 12
  else if c = 110 then 10
  else if c = 114 then 13
  else if c = 116 then 9
  else if c = 118 then 11
  else c

/-- The characters behind one that the loop has written. -/
def behind (out : RStr) (loop : RStr × RStr) : RStr × RStr := (out ++ loop.1, loop.2)

/-- The loop of `xfiredb_unescape_string` over the memory at `src`: the characters it
writes, and the memory behind the terminator it stops at. -/
def unescapeLoop : RStr → Option (RStr × RStr)
  | [] => none
  | c :: src =>
    if c = 0 then some ([], src)
    else if c = 92 then
      match src with
      | [] => none
      | letter :: src => (unescapeLoop src).map (behind [xfiredbUnescapeChar letter])
    else (unescapeLoop src).map (behind [c])

/-- The loop of `xfiredb_escape_string`. -/
def escapeLoop : RStr → Option (RStr × RStr)
  | [] => none
  | c :: src =>
    if c = 0 then some ([], src) else (escapeLoop src).map (behind (escapeByte c))

/-- What a call does: the bytes of its block, the characters it writes there before the
terminator, the memory behind its argument, and the bytes of the block it returns. -/
structure Call where
  allocated : Option Nat
  written : RStr
  rest : RStr
  returned : Nat

/-- A call that asks for `size` bytes. -/
def Copy.call (copy : Copy) (size : Nat) (loop : RStr × RStr) : Call where
  allocated := xfiredbZalloc (toInt size)
  written := loop.1
  rest := loop.2
  returned := xfiredbRealloc (toInt (strlen loop.1 + copy.room))

/-- `xfiredb_escape_string` on the memory at `src`. -/
def Copy.xfiredbEscapeString (copy : Copy) (src : RStr) : Option Call :=
  (escapeLoop src).map (copy.call (strlen src * 2))

/-- `xfiredb_unescape_string` on the memory at `src`. -/
def Copy.xfiredbUnescapeString (copy : Copy) (src : RStr) : Option Call :=
  (unescapeLoop src).map (copy.call (strlen src))

/-! ## The loops -/

theorem unescapeLoop_nul (src : RStr) : unescapeLoop (0 :: src) = some ([], src) := by
  rw [unescapeLoop.eq_def]
  rfl

theorem unescapeLoop_backslash (letter : UInt8) (src : RStr) :
    unescapeLoop (92 :: letter :: src) =
      (unescapeLoop src).map (behind [xfiredbUnescapeChar letter]) := by
  rw [unescapeLoop.eq_def]
  rfl

theorem unescapeLoop_plain {c : UInt8} (notNul : c ≠ 0) (notBackslash : c ≠ 92) (src : RStr) :
    unescapeLoop (c :: src) = (unescapeLoop src).map (behind [c]) := by
  rw [unescapeLoop.eq_def]
  simp only [if_neg notNul, if_neg notBackslash]

theorem escapeLoop_eq (s beyond : RStr) (nulFree : 0 ∉ s) :
    escapeLoop (s ++ 0 :: beyond) = some (s.flatMap escapeByte, beyond) := by
  induction s with
  | nil => rfl
  | cons c s ih =>
      have others : 0 ∉ s := fun member => nulFree (List.mem_cons_of_mem c member)
      have notNul : c ≠ 0 := fun nul => nulFree (nul ▸ List.mem_cons_self)
      rw [List.cons_append, escapeLoop, if_neg notNul, ih others]
      rfl

theorem unescapeChar_escapeLetter {c letter : UInt8} (escaped : escapeLetter c = some letter) :
    xfiredbUnescapeChar letter = c := by
  unfold escapeLetter at escaped
  repeat' split at escaped
  all_goals first
    | (subst c
       obtain rfl := Option.some.inj escaped
       rfl)
    | cases escaped

/-- One round of the loop takes what `escapeByte` wrote for a byte. -/
theorem unescapeLoop_escapeByte {c : UInt8} (notNul : c ≠ 0) (src : RStr) :
    unescapeLoop (escapeByte c ++ src) = (unescapeLoop src).map (behind [c]) := by
  rw [escapeByte]
  cases escaped : escapeLetter c with
  | some letter =>
      rw [List.cons_append, List.singleton_append, unescapeLoop_backslash,
        unescapeChar_escapeLetter escaped]
  | none =>
      rw [List.singleton_append, unescapeLoop_plain notNul (of_not_escaped escaped).2.2]

theorem unescapeLoop_escaped (s beyond : RStr) (nulFree : 0 ∉ s) :
    unescapeLoop (s.flatMap escapeByte ++ 0 :: beyond) = some (s, beyond) := by
  induction s with
  | nil => exact unescapeLoop_nul beyond
  | cons c s ih =>
      have others : 0 ∉ s := fun member => nulFree (List.mem_cons_of_mem c member)
      have notNul : c ≠ 0 := fun nul => nulFree (nul ▸ List.mem_cons_self)
      rw [List.flatMap_cons, List.append_assoc, unescapeLoop_escapeByte notNul, ih others]
      rfl

theorem nul_not_mem_escaped {s : RStr} (nulFree : 0 ∉ s) : 0 ∉ s.flatMap escapeByte := by
  rw [List.mem_flatMap]
  intro found
  rcases found with ⟨c, isIn, member⟩
  rw [escapeByte] at member
  split at member
  · rename_i letter escaped
    obtain rfl : letter = 0 := by simpa [eq_comm] using member
    obtain rfl : 0 = c := unescapeChar_escapeLetter escaped
    exact nulFree isIn
  · obtain rfl := List.mem_singleton.mp member
    exact nulFree isIn

/-- How many backslashes a text ends in. -/
def backslashes (text : RStr) : Nat := (text.reverse.takeWhile (· = 92)).length

/-- No backslash at the end of an escaped text stands alone. -/
theorem even_backslashes (s : RStr) : Even (backslashes (s.flatMap escapeByte)) := by
  induction s using List.reverseRecOn with
  | nil => exact Even.zero
  | append_singleton s c ih =>
      rw [backslashes, List.flatMap_append, List.flatMap_singleton, List.reverse_append, escapeByte]
      cases escaped : escapeLetter c with
      | some letter =>
          by_cases backslash : letter = 92
          · subst backslash
            change Even (backslashes (s.flatMap escapeByte) + 2)
            exact ih.add even_two
          · simp [backslash]
      | none => simp [(of_not_escaped escaped).2.2]

/-! ## Escaping and back -/

theorem strlen_eq {s : RStr} (nulFree : 0 ∉ s) (beyond : RStr) :
    strlen (s ++ 0 :: beyond) = s.length := by
  have kept : ∀ c ∈ s, decide (c ≠ 0) = true :=
    fun c member => decide_eq_true fun nul => nulFree (nul ▸ member)
  rw [strlen, List.takeWhile_append_of_pos kept]
  simp

theorem strlen_of_nulFree {s : RStr} (nulFree : 0 ∉ s) : strlen s = s.length := by
  have kept : ∀ c ∈ s, decide (c ≠ 0) = true :=
    fun c member => decide_eq_true fun nul => nulFree (nul ▸ member)
  rw [strlen, List.takeWhile_eq_self_iff.mpr kept]

theorem xfiredbEscapeString_eq (copy : Copy) {s : RStr} (nulFree : 0 ∉ s) (beyond : RStr) :
    copy.xfiredbEscapeString (s ++ 0 :: beyond) =
      some (copy.call (s.length * 2) (s.flatMap escapeByte, beyond)) := by
  rw [Copy.xfiredbEscapeString, escapeLoop_eq s beyond nulFree, strlen_eq nulFree]
  rfl

theorem xfiredbUnescapeString_eq (copy : Copy) {s : RStr} (nulFree : 0 ∉ s) (beyond : RStr) :
    copy.xfiredbUnescapeString (s.flatMap escapeByte ++ 0 :: beyond) =
      some (copy.call (s.flatMap escapeByte).length (s, beyond)) := by
  rw [Copy.xfiredbUnescapeString, unescapeLoop_escaped s beyond nulFree,
    strlen_eq (nul_not_mem_escaped nulFree)]
  rfl

theorem flatMap_escapeByte_injective {s t : CStr}
    (same : t.bytes.flatMap escapeByte = s.bytes.flatMap escapeByte) : t = s := by
  have back := unescapeLoop_escaped t.bytes [] t.nulFree
  rw [same, unescapeLoop_escaped s.bytes [] s.nulFree] at back
  cases s
  cases t
  simpa [eq_comm] using back

/-- In both copies the characters of an escaped text are those that give the text back,
the reader stops at their end, and no other text is escaped to them. -/
theorem unescape_escape (copy : Copy) (s : CStr) (beyond : RStr) :
    ∃ escape, copy.xfiredbEscapeString (s.bytes ++ 0 :: beyond) = some escape ∧
      0 ∉ escape.written ∧ Even (backslashes escape.written) ∧
      (∀ beyond', ∃ unescape,
        copy.xfiredbUnescapeString (escape.written ++ 0 :: beyond') = some unescape ∧
          unescape.written = s.bytes ∧ unescape.rest = beyond') ∧
      ∀ (t : CStr) (beyond' : RStr) (escape' : Call),
        copy.xfiredbEscapeString (t.bytes ++ 0 :: beyond') = some escape' →
          escape'.written = escape.written → t = s := by
  refine ⟨_, xfiredbEscapeString_eq copy s.nulFree beyond, nul_not_mem_escaped s.nulFree,
    even_backslashes s.bytes, ?_, ?_⟩
  · intro beyond'
    exact ⟨_, xfiredbUnescapeString_eq copy s.nulFree beyond', rfl, rfl⟩
  · intro t beyond' escape' escaped same
    rw [xfiredbEscapeString_eq copy t.nulFree beyond'] at escaped
    obtain rfl := Option.some.inj escaped
    exact flatMap_escapeByte_injective same

/-! ## The buffers -/

/-- A call writes its characters and the terminator into its block. -/
def Call.Fits (call : Call) : Prop :=
  ∃ size, call.allocated = some size ∧ call.written.length + 1 ≤ size

/-- The block that a call returns has the terminator in it. -/
def Call.Terminated (call : Call) : Prop := 0 ∈ (call.written ++ [0]).take call.returned

/-- What is said of the buffers of a call. -/
def Call.Safe (call : Call) : Prop := call.Fits ∧ call.Terminated

/-- Both buffers are large enough and terminated on the way of a text to its escaped text
and back. -/
def Copy.BuffersHold (copy : Copy) (s : CStr) : Prop :=
  ∃ escape, copy.xfiredbEscapeString (s.bytes ++ [0]) = some escape ∧ escape.Safe ∧
    ∃ unescape, copy.xfiredbUnescapeString (escape.written ++ [0]) = some unescape ∧ unescape.Safe

theorem block_toInt {len : Nat} (small : len < 2 ^ 31) : block (toInt len) = some len := by
  have whole : toInt len = len := Int.bmod_eq_of_le (by omega) (by omega)
  have size : ((len : Int) % 2 ^ 64).toNat = len := by omega
  rw [block, whole, size, if_pos (by omega)]

theorem toInt_range (len : Nat) : -2 ^ 31 ≤ toInt len ∧ toInt len < 2 ^ 31 ∧ toInt len ≤ len := by
  have modulus := Int.emod_add_mul_ediv (len : Int) (2 ^ 32)
  have high := @Int.bmod_lt (len : Int) (2 ^ 32) (by decide)
  have low := @Int.le_bmod (len : Int) (2 ^ 32) (by decide)
  unfold toInt
  rw [Int.bmod_def] at high low ⊢
  split at high <;> omega

/-- No block is larger than the length it was asked for, and a length that is no `int`
gets no block that is half as large. -/
theorem block_toInt_le {len size : Nat} (got : block (toInt len) = some size) :
    size ≤ len ∧ (2 ^ 31 ≤ len → 2 * size ≤ len) := by
  obtain ⟨low, high, most⟩ := toInt_range len
  unfold block at got
  obtain ⟨fits, same⟩ := Option.ite_none_right_eq_some.mp got
  have size_eq := Option.some.inj same
  have modulus := Int.emod_add_mul_ediv (len : Int) (2 ^ 32)
  have whole : toInt len = (len : Int) % 2 ^ 32 ∨ toInt len < 0 := by
    unfold toInt
    rw [Int.bmod_def]
    split <;> omega
  omega

theorem xfiredbRealloc_le (len : Nat) : xfiredbRealloc (toInt len) ≤ len := by
  unfold xfiredbRealloc
  cases got : block (toInt len) with
  | none => exact Nat.zero_le len
  | some size => exact (block_toInt_le got).1

theorem allocated_call (copy : Copy) (size : Nat) (loop : RStr × RStr) :
    (copy.call size loop).allocated = block (toInt size) := by
  rw [Copy.call, xfiredbZalloc]

theorem written_call (copy : Copy) (size : Nat) (loop : RStr × RStr) :
    (copy.call size loop).written = loop.1 := rfl

/-- A block that is at most twice as large as its text is enough for it only as long as the
size is an `int`. -/
theorem fits_iff {copy : Copy} {size : Nat} {loop : RStr × RStr} (most : size ≤ 2 * loop.1.length) :
    (copy.call size loop).Fits ↔ size < 2 ^ 31 ∧ loop.1.length < size := by
  simp only [Call.Fits, allocated_call, written_call]
  constructor
  · intro found
    rcases found with ⟨room, got, enough⟩
    obtain ⟨atMost, half⟩ := block_toInt_le got
    omega
  · intro found
    rcases found with ⟨small, enough⟩
    exact ⟨size, block_toInt small, enough⟩

theorem terminated_iff {call : Call} (nulFree : 0 ∉ call.written) :
    call.Terminated ↔ call.written.length < call.returned := by
  rw [Call.Terminated, List.take_append, List.mem_append]
  have notBefore : 0 ∉ call.written.take call.returned :=
    fun member => nulFree (List.mem_of_mem_take member)
  constructor
  · intro either
    rcases either with before | last
    · exact absurd before notBefore
    · have taken := List.length_pos_of_mem last
      rw [List.length_take] at taken
      omega
  · intro room
    have more : 0 < call.returned - call.written.length := by omega
    exact Or.inr (by rw [List.take_of_length_le more]; exact List.mem_singleton_self 0)

theorem returned_call (copy : Copy) (size : Nat) {loop : RStr × RStr} (nulFree : 0 ∉ loop.1) :
    (copy.call size loop).returned = xfiredbRealloc (toInt (loop.1.length + copy.room)) := by
  rw [Copy.call, strlen_of_nulFree nulFree]

/-- The last `realloc` of the engine's copy cuts the terminator off. -/
theorem engine_not_terminated (size : Nat) {loop : RStr × RStr} (nulFree : 0 ∉ loop.1) :
    ¬ (Copy.engine.call size loop).Terminated := by
  rw [terminated_iff nulFree, returned_call .engine size nulFree]
  exact Nat.not_lt.mpr (xfiredbRealloc_le loop.1.length)

/-- That of the client's keeps it as long as the size is an `int`. -/
theorem client_terminated {size : Nat} {loop : RStr × RStr} (nulFree : 0 ∉ loop.1)
    (small : loop.1.length + 1 < 2 ^ 31) : (Copy.client.call size loop).Terminated := by
  rw [terminated_iff nulFree, returned_call .client size nulFree]
  unfold xfiredbRealloc
  rw [Copy.room, block_toInt small]
  exact Nat.lt_succ_self loop.1.length

/-- Without a byte that is escaped nothing gets longer. -/
theorem length_lt_escaped (l : RStr) :
    l.length < (l.flatMap escapeByte).length ↔ ∃ c ∈ l, escapeLetter c ≠ none := by
  have counted := length_escaped l
  have atMost := List.countP_le_length (p := (escapeLetter · = none)) (l := l)
  have all : l.countP (escapeLetter · = none) = l.length ↔ ∀ c ∈ l, escapeLetter c = none := by
    simp only [List.countP_eq_length, decide_eq_true_eq]
  have found : (∃ c ∈ l, escapeLetter c ≠ none) ↔ ¬ ∀ c ∈ l, escapeLetter c = none := by
    simp only [not_forall, exists_prop, ne_eq]
  rw [found, ← all]
  omega

theorem escaped_lt_double (l : RStr) :
    (l.flatMap escapeByte).length < l.length * 2 ↔ ∃ c ∈ l, escapeLetter c = none := by
  have counted := length_escaped l
  have some_ : (∃ c ∈ l, escapeLetter c = none) ↔ 0 < l.countP (escapeLetter · = none) := by
    rw [List.countP_pos_iff]
    simp only [decide_eq_true_eq]
  rw [some_]
  omega

/-- The escaped text fits as long as a byte is not escaped. -/
theorem escape_fits_iff (copy : Copy) (s rest : RStr) :
    (copy.call (s.length * 2) (s.flatMap escapeByte, rest)).Fits ↔
      s.length < 2 ^ 30 ∧ ∃ c ∈ s, escapeLetter c = none := by
  have counted := length_escaped s
  have atMost := List.countP_le_length (p := (escapeLetter · = none)) (l := s)
  rw [fits_iff (by dsimp only; omega), escaped_lt_double]
  refine and_congr_left' ?_
  omega

/-- What the client sends is the text of a call whose block holds it: the two
accounts of its copy differ only in that this one goes on past the end of the block. -/
theorem client_escapeString_iff (s : CStr) (escaped : RStr) :
    Client.xfiredbEscapeString s = some escaped ↔
      ∃ call, Copy.client.xfiredbEscapeString (s.bytes ++ [0]) = some call ∧
        call.Fits ∧ call.written = escaped := by
  rw [xfiredbEscapeString_eq .client s.nulFree [], Client.xfiredbEscapeString_eq]
  constructor
  · intro found
    split at found
    · rename_i small
      obtain rfl := Option.some.inj found
      exact ⟨_, rfl, (escape_fits_iff .client s.bytes []).mpr small, rfl⟩
    · cases found
  · intro found
    rcases found with ⟨call, made, fits, rfl⟩
    obtain rfl := Option.some.inj made
    exact if_pos ((escape_fits_iff .client s.bytes []).mp fits)

/-- The text fits into the length of its escaped text as long as a byte is escaped. -/
theorem unescape_fits_iff (copy : Copy) {s : RStr} (rest : RStr) (small : s.length < 2 ^ 30) :
    (copy.call (s.flatMap escapeByte).length (s, rest)).Fits ↔ ∃ c ∈ s, escapeLetter c ≠ none := by
  have counted := length_escaped s
  rw [fits_iff (by dsimp only; omega), length_lt_escaped, and_iff_right (by omega)]

/-- In the engine's copy no text has safe buffers. In the client's they are safe exactly
if twice the length of the text is an `int` and the text has bytes of both kinds, those
that are escaped and those that are not. -/
theorem buffers_hold_iff (s : CStr) :
    ¬ Copy.engine.BuffersHold s ∧
      (Copy.client.BuffersHold s ↔ s.bytes.length < 2 ^ 30 ∧
        (∃ c ∈ s.bytes, escapeLetter c = none) ∧ ∃ c ∈ s.bytes, escapeLetter c ≠ none) := by
  constructor
  · intro found
    rcases found with ⟨escape, escaped, ⟨_, terminated⟩, _⟩
    rw [xfiredbEscapeString_eq .engine s.nulFree []] at escaped
    obtain rfl := Option.some.inj escaped
    exact engine_not_terminated _ (nul_not_mem_escaped s.nulFree) terminated
  · have counted := length_escaped s.bytes
    unfold Copy.BuffersHold
    rw [xfiredbEscapeString_eq .client s.nulFree []]
    constructor
    · intro found
      rcases found with ⟨escape, escaped, ⟨fits, _⟩, unescape, unescaped, fits', _⟩
      obtain rfl := Option.some.inj escaped
      rw [written_call, xfiredbUnescapeString_eq .client s.nulFree []] at unescaped
      obtain rfl := Option.some.inj unescaped
      obtain ⟨small, plain⟩ := (escape_fits_iff .client s.bytes []).mp fits
      exact ⟨small, plain, (unescape_fits_iff .client [] small).mp fits'⟩
    · intro found
      rcases found with ⟨small, plain, marked⟩
      have escapeSafe := (escape_fits_iff .client s.bytes []).mpr ⟨small, plain⟩
      have unescapeSafe := (unescape_fits_iff .client [] small).mpr marked
      have room := (escaped_lt_double s.bytes).mpr plain
      refine ⟨_, rfl, ⟨escapeSafe, client_terminated (nul_not_mem_escaped s.nulFree) ?_⟩, _,
        xfiredbUnescapeString_eq .client s.nulFree [],
        ⟨unescapeSafe, client_terminated s.nulFree ?_⟩⟩
      · dsimp only
        omega
      · dsimp only
        omega

/-- The empty text gets no block, and the terminator is written all the same. -/
theorem empty_text_has_no_block :
    ¬ Copy.engine.BuffersHold ⟨[], List.not_mem_nil⟩ := by
  intro found
  obtain ⟨escape, escaped, ⟨⟨size, got, room⟩, _⟩, _⟩ := found
  rw [xfiredbEscapeString_eq .engine List.not_mem_nil []] at escaped
  obtain rfl := Option.some.inj escaped
  rw [allocated_call] at got
  obtain ⟨none_left, _⟩ := block_toInt_le got
  exact absurd (room.trans none_left) (by decide)

end QuoteArg

end XFireDB
