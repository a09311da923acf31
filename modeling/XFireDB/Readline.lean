import XFireDB.ClientQuery
import XFireDB.QuoteArg

/-!
# The line of sizes in memory

`query_readline` on the blocks it allocates.  The line is read into blocks of 1024 bytes, and
all but the first are appended to the result, which grows by `realloc`.  A read or write outside
of a block and a null pointer have no result (`none`).
-/

namespace XFireDB

open Lib

namespace Client

namespace Readline

open QuoteArg (toInt block)

/-- The bytes of a block. -/
abbrev Block := List UInt8

/-- `xfiredb_zalloc`. -/
def zalloc (size : Nat) : Block := List.replicate size 0

/-- `tmp[i] = c`. -/
def write (b : Block) (i : Nat) (c : UInt8) : Option Block :=
  if i < b.length then some (b.set i c) else none

/-- `strlen`, which reads up to the first NUL. -/
def strlen (b : Block) : Option Nat := if 0 ∈ b then some (cText b).length else none

/-- `realloc`.  The bytes it adds are any. -/
def realloc (added : Block → Nat → UInt8) (b : Block) (size : Int) : Option Block :=
  (block size).map fun bytes => b.take bytes ++ (List.range (bytes - b.length)).map (added b)

/-- `strcat`, which copies the terminator too. -/
def strcat (dest src : Block) : Option Block := do
  let len ← strlen dest
  let n ← strlen src
  if len + n < dest.length then
    some (dest.take len ++ src.take (n + 1) ++ dest.drop (len + n + 1))
  else none

/-- `len = strlen(tmp) + strlen(rv) + 1; rv = realloc(rv, len); strcat(rv, tmp)`. -/
def append (added : Block → Nat → UInt8) (rv tmp : Block) : Option Block := do
  let n ← strlen tmp
  let m ← strlen rv
  let rv ← realloc added rv (toInt (n + m + 1))
  strcat rv tmp

section Loop

variable (t : Transport) (added : Block → Nat → UInt8)

/-- The loop over `i`, in which the first argument says how often it still runs: the block, `i`,
and whether the loop was left for `done`. -/
def readChunk : Nat → Nat → Block → Stream UInt8 → Option (Block × Nat × Bool × Stream UInt8)
  | 0, i, tmp, s => some (tmp, i, false, s)
  | room + 1, i, tmp, s =>
    match s.recv t 1 with
    | ([c], s) => if c = 10 then some (tmp, i, true, s) else do
      let tmp ← write tmp i c
      readChunk room (i + 1) tmp s
    | (_, s) => some (tmp, i, true, s)

/-- What is read into a new block, and the terminator that is written on both ways out of the
loop. -/
def fillChunk (s : Stream UInt8) : Option (Block × Bool × Stream UInt8) := do
  let (tmp, i, done, s) ← readChunk t 1022 0 (zalloc 1024) s
  let tmp ← write tmp i 0
  some (tmp, done, s)

/-- Chunk after chunk.  `rv` is `none` as long as it points to the same block as `tmp`.  The
first argument bounds the number of chunks. -/
def readChunks : Nat → Option Block → Stream UInt8 → Option (Block × Stream UInt8)
  | 0, _, _ => none
  | fuel + 1, rv, s => do
    let (tmp, done, s) ← fillChunk t s
    match rv with
    | some rv =>
      let rv ← append added rv tmp
      if done then some (rv, s) else readChunks fuel (some rv) s
    | none =>
      if done then
        let n ← strlen tmp
        let rv ← realloc added tmp (n + 1)
        some (rv, s)
      else readChunks fuel (some tmp) s

/-- `query_readline`. -/
def queryReadline (fuel : Nat) (s : Stream UInt8) : Option (Block × Stream UInt8) :=
  readChunks t added fuel none s

end Loop

/-! ## Blocks that hold a text -/

/-- The block holds a text and its terminator. -/
def Holds (b : Block) (v : RStr) : Prop := 0 ∉ v ∧ ∃ tail, b = v ++ 0 :: tail

theorem holds_nul (bytes tail : RStr) : Holds (bytes ++ 0 :: tail) (cText bytes) := by
  refine ⟨nulFree_cText bytes, ?_⟩
  induction bytes with
  | nil => exact ⟨tail, rfl⟩
  | cons c bytes ih =>
      rcases eq_or_ne c 0 with rfl | nonzero
      · rw [cText_nul]
        exact ⟨bytes ++ 0 :: tail, rfl⟩
      · obtain ⟨tail', same⟩ := ih
        rw [cText_cons_of_ne nonzero, List.cons_append, same]
        exact ⟨tail', rfl⟩

variable {b rv tmp : Block} {v w : RStr} {added : Block → Nat → UInt8}

theorem Holds.strlen (holds : Holds b v) : strlen b = some v.length := by
  obtain ⟨nulFree, tail, rfl⟩ := holds
  have text : cText (v ++ 0 :: tail) = v := by
    have kept : ∀ c ∈ v, decide (c ≠ 0) = true :=
      fun c member => decide_eq_true fun nul => nulFree (nul ▸ member)
    rw [cText, List.takeWhile_append_of_pos kept]
    simp
  rw [Readline.strlen, if_pos (by simp), text]

/-- A text is put behind another one in a block that is large enough for both. -/
theorem Holds.strcat {tail : Block} (nulFree : 0 ∉ v) (src : Holds tmp w)
    (fits : w.length ≤ tail.length) :
    strcat (v ++ 0 :: tail) tmp = some (v ++ w ++ 0 :: tail.drop w.length) := by
  have dest : Holds (v ++ 0 :: tail) v := ⟨nulFree, tail, rfl⟩
  have size : (v ++ 0 :: tail).length = v.length + (tail.length + 1) := by simp
  have later : (v ++ 0 :: tail).drop (v.length + w.length + 1) = tail.drop w.length := by
    rw [Nat.add_assoc, ← List.drop_drop, List.drop_left, List.drop_succ_cons]
  rw [Readline.strcat, dest.strlen, src.strlen]
  obtain ⟨_, tail', rfl⟩ := src
  have moved : (w ++ 0 :: tail').take (w.length + 1) = w ++ [0] := by
    simp [List.take_append]
  simp only [Option.bind_eq_bind, Option.bind_some]
  rw [if_pos (by omega), List.take_left, moved, later]
  simp

/-! ## Growing blocks -/

theorem block_of_lt {bytes : Nat} (small : bytes < 2 ^ 31) : block bytes = some bytes := by
  have size : ((bytes : Int) % 2 ^ 64).toNat = bytes := by omega
  rw [block, size, if_pos (by omega)]

/-- A length that is no `int` is negative as one. -/
theorem block_toInt_none {len : Nat} (large : 2 ^ 31 ≤ len) (low : len < 2 ^ 32) :
    block (toInt len) = none := by
  obtain ⟨least, most, _⟩ := QuoteArg.toInt_range len
  have same : toInt len % 2 ^ 32 = len % 2 ^ 32 := Int.bmod_emod
  rw [block, if_neg]
  omega

/-- A block that is still large enough keeps its text. -/
theorem Holds.realloc (holds : Holds b v) {size : Int} {bytes : Nat}
    (got : block size = some bytes) (room : v.length < bytes) (added : Block → Nat → UInt8) :
    ∃ tail, Readline.realloc added b size = some (v ++ 0 :: tail) ∧
      tail.length = bytes - (v.length + 1) := by
  obtain ⟨_, tail, rfl⟩ := holds
  have kept : (v ++ 0 :: tail).take bytes = v ++ 0 :: tail.take (bytes - (v.length + 1)) := by
    obtain ⟨more, rfl⟩ := Nat.exists_eq_add_of_lt room
    have left : v.length + more + 1 - (v.length + 1) = more := by omega
    rw [left, Nat.add_assoc, List.take_length_add_append, List.take_succ_cons]
  refine ⟨tail.take (bytes - (v.length + 1)) ++
    (List.range (bytes - (v ++ 0 :: tail).length)).map (added (v ++ 0 :: tail)), ?_, ?_⟩
  · rw [Readline.realloc, got, Option.map_some, kept, List.append_assoc, List.cons_append]
  · simp
    omega

/-- Appending a text, in a block of exactly the size that is needed. -/
theorem Holds.append (result : Holds rv v) (chunk : Holds tmp w)
    (size : w.length + v.length + 1 < 2 ^ 32) :
    append added rv tmp =
      if w.length + v.length + 1 < 2 ^ 31 then some (v ++ w ++ [0]) else none := by
  rw [Readline.append, chunk.strlen, result.strlen, Option.bind_eq_bind, Option.bind_some,
    Option.bind_eq_bind, Option.bind_some]
  rcases Nat.lt_or_ge (w.length + v.length + 1) (2 ^ 31) with small | large
  · obtain ⟨tail, grown, left⟩ := result.realloc (QuoteArg.block_toInt small)
      (by omega) added
    have full : tail.length = w.length := by omega
    rw [if_pos small, grown, Option.bind_some, Holds.strcat result.1 chunk full.ge, ← full,
      List.drop_length]
  · rw [if_neg (Nat.not_lt.mpr large), Readline.realloc, block_toInt_none large size,
      Option.map_none, Option.bind_none]

/-! ## One chunk -/

variable {t : Transport}

theorem length_readBuffer_le (room : Nat) (s : Stream UInt8) :
    (readBuffer t room s).1.length ≤ room := by
  induction room generalizing s with
  | zero => exact le_rfl
  | succ room ih =>
      obtain ⟨rest, clock⟩ := s
      cases rest with
      | nil => simp [readBuffer, Stream.recv]
      | cons c rest =>
          rw [readBuffer, Stream.recv_one]
          dsimp only
          split
          · exact Nat.zero_le _
          · exact Nat.succ_le_succ (ih _)

/-- What is read stands in the block behind what has been read before. -/
theorem readChunk_eq (room : Nat) (v tail : RStr) (fits : room ≤ tail.length) (s : Stream UInt8) :
    readChunk t room v.length (v ++ tail) s =
      some (v ++ (readBuffer t room s).1 ++ tail.drop (readBuffer t room s).1.length,
        v.length + (readBuffer t room s).1.length, (readBuffer t room s).2) := by
  induction room generalizing v tail s with
  | zero => simp [readChunk, readBuffer]
  | succ room ih =>
      obtain ⟨rest, clock⟩ := s
      cases rest with
      | nil => simp [readChunk, readBuffer, Stream.recv]
      | cons c rest =>
          rw [readChunk, readBuffer, Stream.recv_one]
          dsimp only
          split
          · simp
          · cases tail with
            | nil => cases fits
            | cons old tail =>
                have stored : write (v ++ old :: tail) v.length c = some (v ++ [c] ++ tail) := by
                  rw [write, if_pos (by simp)]
                  simp
                have next := ih (v ++ [c]) tail (Nat.le_of_succ_le_succ fits) ⟨rest, clock + 1⟩
                rw [List.length_append, List.length_singleton] at next
                rw [stored, Option.bind_eq_bind, Option.bind_some, next]
                simp
                omega

/-- A chunk holds the text that is read. -/
theorem fillChunk_eq (s : Stream UInt8) :
    ∃ tmp, Holds tmp (cText (readBuffer t 1022 s).1) ∧
      fillChunk t s = some (tmp, (readBuffer t 1022 s).2) := by
  have short := length_readBuffer_le (t := t) 1022 s
  have size : (zalloc 1024).length = 1024 := List.length_replicate
  have read := readChunk_eq (t := t) 1022 [] (zalloc 1024) (by omega) s
  rw [List.nil_append, List.length_nil, Nat.zero_add, List.nil_append] at read
  generalize readBuffer t 1022 s = found at short read
  obtain ⟨bytes, done, s'⟩ := found
  dsimp only at short read
  have room : bytes.length < (zalloc 1024).length := by omega
  refine ⟨bytes ++ 0 :: (zalloc 1024).drop (bytes.length + 1), holds_nul _ _, ?_⟩
  have ended : write (bytes ++ (zalloc 1024).drop bytes.length) bytes.length 0 =
      some (bytes ++ 0 :: (zalloc 1024).drop (bytes.length + 1)) := by
    rw [List.drop_eq_getElem_cons room, write, if_pos (by simpa using room),
      List.set_append_right _ _ le_rfl, Nat.sub_self, List.set_cons_zero]
  rw [fillChunk, read, Option.bind_eq_bind, Option.bind_some]
  dsimp only
  rw [ended]
  rfl

/-! ## The line -/

theorem length_cText_le (s : RStr) : (cText s).length ≤ s.length :=
  (List.takeWhile_sublist _).length_le

/-- The blocks hold what is read, as long as their sizes are `int`s. -/
theorem readChunks_eq (holds : Holds rv v) (small : v.length + 1 < 2 ^ 31) (fuel : Nat)
    (s : Stream UInt8) :
    readChunks t added fuel (some rv) s =
      (Client.queryReadline t fuel v s).map fun found => (found.1 ++ [0], found.2) := by
  induction fuel generalizing rv v s with
  | zero => rfl
  | succ fuel ih =>
      obtain ⟨tmp, chunk, filled⟩ := fillChunk_eq (t := t) s
      have short := length_readBuffer_le (t := t) 1022 s
      rw [readChunks, Client.queryReadline, filled, Option.bind_eq_bind, Option.bind_some]
      generalize readBuffer t 1022 s = found at short chunk
      obtain ⟨bytes, done, s'⟩ := found
      dsimp only at short chunk ⊢
      have size := (length_cText_le bytes).trans short
      rw [holds.append chunk (by omega), List.length_append]
      rcases Nat.lt_or_ge ((cText bytes).length + v.length + 1) (2 ^ 31) with fits | large
      · have both : Holds (v ++ cText bytes ++ [0]) (v ++ cText bytes) := by
          refine ⟨?_, [], rfl⟩
          rw [List.mem_append, not_or]
          exact ⟨holds.1, chunk.1⟩
        rw [if_pos fits, if_neg (by omega), Option.bind_eq_bind, Option.bind_some]
        cases done with
        | true => rfl
        | false =>
            refine ih both ?_ s'
            rw [List.length_append]
            omega
      · rw [if_neg (by omega), if_pos (by omega)]
        rfl

/-- The loop in memory is the loop on texts. -/
theorem queryReadline_eq (fuel : Nat) (s : Stream UInt8) :
    queryReadline t added fuel s =
      (Client.queryReadline t fuel [] s).map fun found => (found.1 ++ [0], found.2) := by
  cases fuel with
  | zero => rfl
  | succ fuel =>
      obtain ⟨tmp, chunk, filled⟩ := fillChunk_eq (t := t) s
      have short := length_readBuffer_le (t := t) 1022 s
      rw [queryReadline, readChunks, Client.queryReadline, filled, Option.bind_eq_bind,
        Option.bind_some]
      generalize readBuffer t 1022 s = found at short chunk
      obtain ⟨bytes, done, s'⟩ := found
      dsimp only at short chunk ⊢
      have size := (length_cText_le bytes).trans short
      have fits : ¬ 2 ^ 31 ≤ (cText bytes).length + 1 := by omega
      rw [List.nil_append, if_neg fits]
      cases done with
      | true =>
          obtain ⟨tail, shrunk, last⟩ := chunk.realloc
            (block_of_lt (show (cText bytes).length + 1 < 2 ^ 31 by omega))
            (Nat.lt_succ_self _) added
          rw [Nat.sub_self, List.length_eq_zero_iff] at last
          rw [if_pos rfl, if_pos rfl, chunk.strlen, Option.bind_eq_bind, Option.bind_some,
            ← Nat.cast_succ, shrunk, last]
          rfl
      | false => exact readChunks_eq chunk (by omega) fuel s'

/-- The line without its end, in a block of its size, and the stream behind the line. -/
def ReadsLine (t : Transport) (added : Block → Nat → UInt8) (bytes : RStr) (clock : Nat) : Prop :=
  ∀ fuel, bytes.length < fuel → ∃ clock',
    queryReadline t added fuel ⟨bytes, clock⟩ =
      some (bytes.takeWhile (· ≠ 10) ++ [0], ⟨(bytes.dropWhile (· ≠ 10)).tail, clock'⟩)

/-- What `query_readline` does with a stream that has a line in it. -/
theorem queryReadline_of_mem {bytes : RStr} (nulFree : 0 ∉ bytes) (feed : 10 ∈ bytes)
    (clock : Nat) {fuel : Nat} (enough : bytes.length < fuel) :
    queryReadline t added fuel ⟨bytes, clock⟩ =
      if (bytes.takeWhile (· ≠ 10)).length + 1 < 2 ^ 31 then
        some (bytes.takeWhile (· ≠ 10) ++ [0], ⟨(bytes.dropWhile (· ≠ 10)).tail,
          clock + (bytes.takeWhile (· ≠ 10)).length + 1⟩)
      else none := by
  obtain ⟨line, rest, rfl, noFeed⟩ := List.eq_append_cons_of_mem feed
  rw [List.mem_append, not_or] at nulFree
  have kept : ∀ c ∈ line, decide (c ≠ 10) = true :=
    fun c member => decide_eq_true fun same => noFeed (same ▸ member)
  have taken : (line ++ 10 :: rest).takeWhile (· ≠ 10) = line := by
    rw [List.takeWhile_append_of_pos kept, List.takeWhile_cons_of_neg (by decide), List.append_nil]
  have dropped : ((line ++ 10 :: rest).dropWhile (· ≠ 10)).tail = rest := by
    rw [List.dropWhile_append_of_pos kept, List.dropWhile_cons_of_neg (by decide), List.tail_cons]
  rw [List.length_append] at enough
  rw [taken, dropped, queryReadline_eq,
    queryReadline_line noFeed nulFree.1 rest (by omega) [] clock, List.length_nil, Nat.zero_add,
    List.nil_append]
  split <;> rfl

theorem ReadsLine.short {bytes : RStr} {clock : Nat} (reads : ReadsLine t added bytes clock)
    (nulFree : 0 ∉ bytes) (feed : 10 ∈ bytes) :
    (bytes.takeWhile (· ≠ 10)).length + 1 < 2 ^ 31 := by
  obtain ⟨clock', found⟩ := reads (bytes.length + 1) (Nat.lt_succ_self _)
  rw [queryReadline_of_mem nulFree feed clock (Nat.lt_succ_self _)] at found
  exact (Option.ite_none_right_eq_some.mp found).1

/-- The whole line is read, and in bounds, exactly if its length with the terminator is an
`int`. -/
theorem readsLine_iff (t : Transport) (added : Block → Nat → UInt8) {bytes : RStr}
    (nulFree : 0 ∉ bytes) (feed : 10 ∈ bytes) (clock : Nat) :
    ReadsLine t added bytes clock ↔ (bytes.takeWhile (· ≠ 10)).length + 1 < 2 ^ 31 := by
  constructor
  · intro reads
    exact reads.short nulFree feed
  · intro short fuel enough
    exact ⟨_, (queryReadline_of_mem nulFree feed clock enough).trans (if_pos short)⟩

/-- The line with its terminator is not an `int` long any more. -/
theorem longLine_not_read :
    ¬ ReadsLine Transport.complete (fun _ _ => 0) (List.replicate (2 ^ 31 - 1) 97 ++ [10]) 0 := by
  intro reads
  generalize size : 2 ^ 31 - 1 = n at reads
  have short := reads.short ?_ (List.mem_append_right _ List.mem_cons_self)
  · rw [List.takeWhile_append_of_pos ?_, List.takeWhile_cons_of_neg (by decide), List.append_nil,
      List.length_replicate] at short
    · omega
    · intro c member
      rw [List.eq_of_mem_replicate member]
      rfl
  · rw [List.mem_append, not_or]
    exact ⟨fun member => absurd (List.eq_of_mem_replicate member) (by decide), by decide⟩

/-- A line of exactly two chunks. -/
theorem readsLine_twoChunks :
    ReadsLine Transport.complete (fun _ _ => 7) (List.replicate 2044 97 ++ [10, 98]) 0 := by
  refine (readsLine_iff Transport.complete (fun _ _ => 7) ?_ ?_ 0).mpr ?_
  · rw [List.mem_append, not_or]
    exact ⟨fun member => absurd (List.eq_of_mem_replicate member) (by decide), by decide⟩
  · exact List.mem_append_right _ List.mem_cons_self
  · have bound := (List.takeWhile_sublist (fun c : UInt8 => decide (c ≠ 10))
      (l := List.replicate 2044 97 ++ [10, 98])).length_le
    rw [List.length_append, List.length_replicate] at bound
    simp only [List.length_cons, List.length_nil] at bound
    omega

end Readline

end Client

end XFireDB
