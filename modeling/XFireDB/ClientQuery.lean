import XFireDB.Lib.Reads
import XFireDB.CText
import XFireDB.Engine

/-!
# Replies on the way to a C client

The worker writes a line of sizes and then the lines of a reply.  The C client reads
the first line byte by byte, splits it at spaces, and asks for each result with one
`recv` (or `SSL_read`) of its size.  The transport may give less than it is asked for.

A read or write through a null pointer, a failed assertion and a failed allocation
have no result (`none`).
-/

namespace XFireDB

open Lib

/-! ## The worker -/

/-- The strings of a reply. -/
def Reply.strings : Reply → List RStr
  | .text v => [v]
  | .lines v => v

/-- What `WorkerPool` writes for a reply. -/
def Reply.written : Reply → RStr
  | .lines v => puts (join (lit " ") (v.map fun s => natToS (s.length + 1))) ++ (v.map puts).flatten
  | .text v => puts (natToS (v.length + 1)) ++ puts v

/-! ## The client -/

namespace Client

variable (t : Transport)

/-- Fill a buffer up to the end of the line, and say whether it has been reached. -/
def readBuffer : Nat → Stream UInt8 → RStr × Bool × Stream UInt8
  | 0, s => ([], false, s)
  | room + 1, s =>
    match s.recv t 1 with
    | ([c], s) =>
      if c = 10 then ([], true, s)
      else
        let found := readBuffer room s
        (c :: found.1, found.2)
    | (_, s) => ([], true, s)

/-- `query_readline`: buffer after buffer is appended to `rv`, whose length is an
`int`.  The first argument bounds the number of buffers. -/
def queryReadline : Nat → RStr → Stream UInt8 → Option (RStr × Stream UInt8)
  | 0, _, _ => none
  | fuel + 1, rv, s =>
    let (tmp, done, s) := readBuffer t 1022 s
    let rv := rv ++ cText tmp
    if 2 ^ 31 ≤ rv.length + 1 then none
    else if done then some (rv, s)
    else queryReadline fuel rv s

/-- `str_count_occurences`: the pointer has moved on when the character is compared. -/
def strCountOccurences : RStr → UInt8 → Nat
  | [], _ => 0
  | [_], _ => 0
  | _ :: b :: rest, x => (if b = x then 1 else 0) + strCountOccurences (b :: rest) x

/-- `last_comma < (a_str + strlen(a_str) - 1)`.  Without an occurrence `last_comma` is
null, which is below every address. -/
def lastBefore (s : RStr) (delim : UInt8) : Bool := s.getLast? ≠ some delim

/-- `str_split`. -/
def strSplit (s : RStr) (delim : UInt8) : Option (List RStr) :=
  let count := s.count delim + (if lastBefore s delim then 1 else 0) + 1
  let tokens := strtokAll s delim
  if tokens.length ≤ count ∧ tokens.length = count - 1 then some tokens else none

/-- The loop over the results.  `zalloc(0)` is null, a negative size cannot be
allocated, and without a byte the terminator goes in front of the buffer. -/
def readResults : List RStr → Stream UInt8 → Option (List RStr × Stream UInt8)
  | [], s => some ([], s)
  | text :: sizes, s =>
    let size := atoi text
    if size ≤ 0 then none
    else
      match s.recv t size.toNat with
      | ([], _) => none
      | (buf, s) => (readResults sizes s).map fun found => (cText buf.dropLast :: found.1, found.2)

/-- `__query` and `ssl_query` after the query has been sent. -/
def query (s : Stream UInt8) : Option (List RStr × Stream UInt8) :=
  match queryReadline t (s.rest.length + 1) [] s with
  | none => none
  | some (buf, s) =>
    let len := strCountOccurences buf 32 + 1
    match strSplit buf 32 with
    | none => none
    | some sizes => if sizes.length < len then none else readResults t (sizes.take len) s

/-! ## The line of sizes -/

variable {t}

theorem readBuffer_of_lt {l : RStr} (noFeed : 10 ∉ l) (rest : RStr) {room : Nat}
    (fits : l.length < room) (i : Nat) :
    readBuffer t room ⟨l ++ 10 :: rest, i⟩ = (l, true, ⟨rest, i + l.length + 1⟩) := by
  induction l generalizing room i with
  | nil =>
      obtain ⟨room, rfl⟩ := Nat.exists_eq_add_of_lt fits
      simp [readBuffer, Stream.recv_one]
  | cons b l ih =>
      rw [List.length_cons] at fits
      obtain ⟨noFeedHere, noFeed⟩ := List.ne_and_not_mem_of_not_mem_cons noFeed
      cases room with
      | zero => cases fits
      | succ room =>
          rw [List.cons_append, readBuffer, Stream.recv_one]
          dsimp only
          rw [if_neg (Ne.symm noFeedHere), ih noFeed (by omega) (i + 1), List.length_cons,
            Nat.add_right_comm i 1, Nat.add_assoc i l.length 1]

theorem readBuffer_of_le {l : RStr} (noFeed : 10 ∉ l) (rest : RStr) {room : Nat}
    (long : room ≤ l.length) (i : Nat) :
    readBuffer t room ⟨l ++ 10 :: rest, i⟩ =
      (l.take room, false, ⟨l.drop room ++ 10 :: rest, i + room⟩) := by
  induction room generalizing l i with
  | zero => rfl
  | succ room ih =>
      cases l with
      | nil => cases long
      | cons b l =>
          rw [List.length_cons] at long
          obtain ⟨noFeedHere, noFeed⟩ := List.ne_and_not_mem_of_not_mem_cons noFeed
          rw [List.cons_append, readBuffer, Stream.recv_one]
          dsimp only
          rw [if_neg (Ne.symm noFeedHere), ih noFeed (by omega) (i + 1), List.take_succ_cons,
            List.drop_succ_cons, Nat.add_right_comm i 1, Nat.add_assoc i room 1]

/-- The client reads a line whose length with the terminator is an `int`. -/
theorem queryReadline_line {l : RStr} (noFeed : 10 ∉ l) (nulFree : 0 ∉ l) (rest : RStr)
    {fuel : Nat} (enough : l.length < fuel) (rv : RStr) (i : Nat) :
    queryReadline t fuel rv ⟨l ++ 10 :: rest, i⟩ =
      if rv.length + l.length + 1 < 2 ^ 31 then some (rv ++ l, ⟨rest, i + l.length + 1⟩)
      else none := by
  induction fuel generalizing l rv i with
  | zero => cases enough
  | succ fuel ih =>
      rcases Nat.lt_or_ge l.length 1022 with fits | long
      · rw [queryReadline, readBuffer_of_lt noFeed rest fits]
        dsimp only
        rw [cText_eq_self nulFree, List.length_append, if_pos rfl]
        split <;> split <;> first | rfl | omega
      · have nulFreeHere : 0 ∉ l.take 1022 := fun member => nulFree (List.mem_of_mem_take member)
        have nulFreeLater : 0 ∉ l.drop 1022 := fun member => nulFree (List.mem_of_mem_drop member)
        have noFeedLater : 10 ∉ l.drop 1022 := fun member => noFeed (List.mem_of_mem_drop member)
        have later : (l.drop 1022).length = l.length - 1022 := List.length_drop
        have here : (l.take 1022).length = 1022 := List.length_take_of_le long
        rw [queryReadline, readBuffer_of_le noFeed rest long]
        dsimp only
        rw [cText_eq_self nulFreeHere, ih noFeedLater nulFreeLater (by omega), List.length_append,
          here, later, List.append_assoc, List.take_append_drop, if_neg Bool.false_ne_true]
        have clock : i + 1022 + (l.length - 1022) + 1 = i + l.length + 1 := by omega
        rw [clock]
        rcases Nat.lt_or_ge (rv.length + l.length + 1) (2 ^ 31) with short | tooLong
        · rw [if_neg (by omega), if_pos (by omega), if_pos short]
        · rw [if_neg (Nat.not_lt.mpr tooLong)]
          split
          · rfl
          · exact if_neg (by omega)

theorem strCountOccurences_eq (s : RStr) (x : UInt8) : strCountOccurences s x = s.tail.count x := by
  induction s with
  | nil => rfl
  | cons a s ih =>
      cases s with
      | nil => rfl
      | cons b s =>
          rw [strCountOccurences, ih, List.tail_cons, List.tail_cons, List.count_cons, Nat.add_comm]
          simp only [beq_iff_eq]

/-- A line of words has one blank less than it has words. -/
theorem count_join {words : List RStr} (areWords : ∀ w ∈ words, w ≠ [] ∧ 32 ∉ w) :
    (join (lit " ") words).count 32 = words.length - 1 := by
  induction words with
  | nil => rfl
  | cons w rest ih =>
      have none := List.count_eq_zero.mpr (areWords w List.mem_cons_self).2
      cases rest with
      | nil => rw [join_singleton, none, List.length_singleton]
      | cons w' rest' =>
          rw [join_cons, List.count_append, none, List.count_cons_self,
            ih fun v member => areWords v (List.mem_cons_of_mem w member)]
          simp only [List.length_cons]
          omega

/-- The counter skips the first byte, which is no blank. -/
theorem strCountOccurences_join {words : List RStr} (areWords : ∀ w ∈ words, w ≠ [] ∧ 32 ∉ w)
    (some : words ≠ []) : strCountOccurences (join (lit " ") words) 32 + 1 = words.length := by
  have counted := count_join areWords
  rw [strCountOccurences_eq]
  cases words with
  | nil => exact absurd rfl some
  | cons w rest =>
      obtain ⟨nonempty, noBlank⟩ := areWords w List.mem_cons_self
      obtain ⟨b, w', rfl⟩ := List.exists_cons_of_ne_nil nonempty
      have first : join (lit " ") ((b :: w') :: rest) =
        b :: (join (lit " ") ((b :: w') :: rest)).tail := by
        cases rest with
        | nil => rw [join_singleton, List.tail_cons]
        | cons v rest' => rw [join_cons, List.cons_append, List.tail_cons]
      rw [first, List.count_cons_of_ne (List.ne_of_not_mem_cons noBlank).symm] at counted
      rw [counted, List.length_cons, Nat.add_sub_cancel]

theorem lastBefore_join {words : List RStr} (areWords : ∀ w ∈ words, w ≠ [] ∧ 32 ∉ w) :
    lastBefore (join (lit " ") words) 32 = true := by
  induction words with
  | nil => rfl
  | cons w rest ih =>
      obtain ⟨nonempty, noBlank⟩ := areWords w List.mem_cons_self
      cases rest with
      | nil =>
          rw [join_singleton, lastBefore]
          simpa using fun last => noBlank (List.mem_of_getLast? last)
      | cons w' rest' =>
          have later := ih fun v member => areWords v (List.mem_cons_of_mem w member)
          have rest_ne : join (lit " ") (w' :: rest') ≠ [] := by
            have nonempty' := (areWords w' (by simp)).1
            cases rest' with
            | nil => rwa [join_singleton]
            | cons _ _ => simp [join_cons, nonempty']
          rw [lastBefore] at later ⊢
          rw [join_cons, List.getLast?_append_of_ne_nil _ (List.cons_ne_nil _ _),
            List.getLast?_cons_of_ne_nil rest_ne]
          exact later

/-- The splitter agrees with the counter except on the empty line, for which it
expects a word. -/
theorem strSplit_join {words : List RStr} (areWords : ∀ w ∈ words, w ≠ [] ∧ 32 ∉ w) :
    strSplit (join (lit " ") words) 32 = if words = [] then none else some words := by
  cases words with
  | nil => rfl
  | cons w rest =>
      have counted := count_join areWords
      have last : lastBefore (join (lit " ") (w :: rest)) 32 = true :=
        lastBefore_join areWords
      rw [strSplit, strtokAll_join areWords, counted, last, if_pos rfl,
        if_neg (List.cons_ne_nil w rest)]
      exact if_pos (by simp)

/-- The sizes the worker announces. -/
def sizeWords (strings : List RStr) : List RStr := strings.map fun s => natToS (s.length + 1)

def sizeLine (strings : List RStr) : RStr := join (lit " ") (sizeWords strings)

theorem sizeWords_words (strings : List RStr) : ∀ w ∈ sizeWords strings, w ≠ [] ∧ 32 ∉ w := by
  intro w member
  obtain ⟨v, _, rfl⟩ := List.mem_map.mp member
  obtain ⟨nonempty, inside⟩ := isWord_natToS (v.length + 1)
  exact ⟨nonempty, fun blank => absurd (inside 32 blank) (by decide)⟩

theorem not_mem_sizeLine (strings : List RStr) {b : UInt8} (noBlank : b ≠ 32)
    (noDigit : isDigit b = false) : b ∉ sizeLine strings := by
  intro member
  rcases mem_join member with blank | ⟨w, isIn, inWord⟩
  · exact noBlank (by simpa [lit] using blank)
  · obtain ⟨v, _, rfl⟩ := List.mem_map.mp isIn
    simp [isDigit_of_mem_natToS inWord] at noDigit

theorem length_le_length_sizeLine (strings : List RStr) :
    strings.length ≤ (sizeLine strings).length + 1 := by
  have counted := count_join (sizeWords_words strings)
  have bound := List.count_le_length (a := 32) (l := sizeLine strings)
  rw [sizeLine] at bound ⊢
  rw [counted, sizeWords, List.length_map] at bound
  rw [sizeWords]
  omega

theorem written_eq (r : Reply) :
    r.written = sizeLine r.strings ++ 10 :: (r.strings.map puts).flatten := by
  have ends : puts (sizeLine r.strings) = sizeLine r.strings ++ [10] :=
    if_neg fun last => not_mem_sizeLine r.strings (by decide) (by decide)
      (List.mem_of_getLast? last)
  have regroup : r.written = puts (sizeLine r.strings) ++ (r.strings.map puts).flatten := by
    cases r with
    | text v => simp [Reply.written, Reply.strings, sizeLine, sizeWords, join_singleton]
    | lines v => simp [Reply.written, Reply.strings, sizeLine, sizeWords]
  rw [regroup, ends, List.append_assoc, List.singleton_append]

/-- After the line of sizes the client is left with the results. -/
theorem query_written (r : Reply) (later : RStr) (i : Nat) :
    query t ⟨r.written ++ later, i⟩ =
      if r.strings ≠ [] ∧ (sizeLine r.strings).length + 1 < 2 ^ 31 then
        readResults t (sizeWords r.strings)
          ⟨(r.strings.map puts).flatten ++ later, i + (sizeLine r.strings).length + 1⟩
      else none := by
  have words := sizeWords_words r.strings
  have stream : r.written ++ later =
      sizeLine r.strings ++ 10 :: ((r.strings.map puts).flatten ++ later) := by
    rw [written_eq, List.append_assoc, List.cons_append]
  have enough : (sizeLine r.strings).length < (r.written ++ later).length + 1 := by
    rw [stream, List.length_append]
    omega
  have line := queryReadline_line (t := t) (not_mem_sizeLine r.strings (by decide) (by decide))
    (not_mem_sizeLine r.strings (by decide) (by decide))
    ((r.strings.map puts).flatten ++ later) enough [] i
  rw [List.length_nil, Nat.zero_add, List.nil_append, ← stream] at line
  rw [query, line]
  split
  · rename_i tooLong
    rw [if_neg fun both => ?_]
    rw [if_pos both.2] at tooLong
    cases tooLong
  · rename_i buf s read
    split at read
    · rename_i short
      cases read
      have split := strSplit_join words
      rw [← sizeLine] at split
      rw [split]
      have empty : sizeWords r.strings = [] ↔ r.strings = [] := List.map_eq_nil_iff
      rcases eq_or_ne r.strings [] with none | some
      · rw [if_pos (empty.mpr none), if_neg fun both => both.1 none]
      · have count := strCountOccurences_join words fun none => some (empty.mp none)
        rw [← sizeLine] at count
        rw [if_neg fun none => some (empty.mp none), if_pos ⟨some, short⟩]
        dsimp only
        rw [count, if_neg (Nat.lt_irrefl _), List.take_length]
    · cases read

/-! ## The results -/

/-- What the client makes of the bytes of a result: the last one is overwritten. -/
def result (buf : RStr) : RStr := cText buf.dropLast

/-- The texts announce these sizes, and none of them is empty. -/
def Announces (texts : List RStr) (sizes : List Nat) : Prop :=
  List.Forall₂ (fun text (size : Nat) => 0 < size ∧ atoi text = size) texts sizes

/-- Where there are bytes enough, the results are what the reads give. -/
theorem readResults_eq {texts : List RStr} {sizes : List Nat} (announced : Announces texts sizes)
    {s : Stream UInt8} (enough : sizes.sum ≤ s.rest.length) :
    readResults t texts s =
      some ((s.recvAll t sizes).1.map result, (s.recvAll t sizes).2) := by
  induction announced generalizing s with
  | nil => rfl
  | @cons text size texts sizes here _ ih =>
      rw [List.sum_cons] at enough
      have atMost := t.le s.clock size
      have more := t.pos s.clock size here.1
      have some : (s.recv t size).1 ≠ [] := by
        rw [← List.length_pos_iff, Stream.recv]
        simp only [List.length_take]
        omega
      have rest : sizes.sum ≤ (s.recv t size).2.rest.length := by
        rw [Stream.recv]
        simp only [List.length_drop]
        omega
      rw [readResults, here.2, if_neg (by omega), Int.toNat_natCast]
      split
      · rename_i none
        exact absurd (congrArg Prod.fst none) some
      · rename_i buf s' _ got
        have same : s' = (s.recv t size).2 := by rw [got]
        rw [same, ih rest, Stream.recvAll, got]
        rfl

/-- Where the results are found, every size is positive, and the reads are made with
these sizes. -/
theorem of_readResults {texts : List RStr} {s s' : Stream UInt8} {results : List RStr}
    (found : readResults t texts s = some (results, s')) :
    ∃ sizes : List Nat, Announces texts sizes ∧
      results = (s.recvAll t sizes).1.map result ∧ s' = (s.recvAll t sizes).2 := by
  induction texts generalizing s results with
  | nil =>
      cases found
      exact ⟨[], List.Forall₂.nil, rfl, rfl⟩
  | cons text texts ih =>
      rw [readResults] at found
      split at found
      · cases found
      · rename_i pos
        split at found
        · cases found
        · rename_i buf s'' _ got
          obtain ⟨⟨later, last⟩, rest, same⟩ := Option.map_eq_some_iff.mp found
          cases same
          obtain ⟨sizes, sizes_eq, later_eq, last_eq⟩ := ih rest
          refine ⟨(atoi text).toNat :: sizes, List.Forall₂.cons (by omega) sizes_eq, ?_, ?_⟩
          · rw [Stream.recvAll, got, List.map_cons, later_eq]
            rfl
          · rw [Stream.recvAll, got, last_eq]

/-! ## What the sizes say -/

/-- What each string of a reply takes on the wire. -/
def lengths (strings : List RStr) : List Nat := strings.map fun s => s.length + 1

theorem sum_lengths_cons (v : RStr) (strings : List RStr) :
    (lengths (v :: strings)).sum = v.length + 1 + (lengths strings).sum := by
  rw [lengths, List.map_cons, List.sum_cons, lengths]

theorem announces_lengths {strings : List RStr} (short : ∀ v ∈ strings, v.length + 1 < 2 ^ 31) :
    Announces (sizeWords strings) (lengths strings) := by
  rw [Announces, sizeWords, lengths, List.forall₂_map_left_iff, List.forall₂_map_right_iff,
    List.forall₂_same]
  intro v member
  exact ⟨Nat.succ_pos _, atoi_natToS (short v member)⟩

/-- The client asks for as much as has been sent, or for much less. -/
theorem sum_of_announces {strings : List RStr} {sizes : List Nat}
    (announced : Announces (sizeWords strings) sizes) :
    ((∀ v ∈ strings, v.length + 1 < 2 ^ 31) ∧ sizes = lengths strings) ∨
      sizes.sum + 2 ^ 31 ≤ (lengths strings).sum := by
  induction strings generalizing sizes with
  | nil =>
      cases announced
      exact Or.inl ⟨fun v member => absurd member List.not_mem_nil, rfl⟩
  | cons v strings ih =>
      rw [sizeWords, List.map_cons] at announced
      cases announced with
      | @cons _ size _ sizes here rest =>
          obtain ⟨pos, announced⟩ := here
          have later := ih rest
          rw [sum_lengths_cons, List.sum_cons]
          rcases Nat.lt_or_ge (v.length + 1) (2 ^ 31) with small | large
          · rw [atoi_natToS small] at announced
            have same : size = v.length + 1 := by omega
            rcases later with ⟨short, rfl⟩ | much
            · exact Or.inl ⟨List.forall_mem_cons.mpr ⟨small, short⟩, by rw [same]; rfl⟩
            · exact Or.inr (by omega)
          · have less := atoi_natToS_le large
            have atMost : sizes.sum ≤ (lengths strings).sum := by
              rcases later with ⟨_, rfl⟩ | much <;> omega
            exact Or.inr (by omega)

/-- A result with its terminator is no longer than it has been asked for. -/
theorem sum_results_le (s : Stream UInt8) {texts : List RStr} {sizes : List Nat}
    (announced : Announces texts sizes) :
    (lengths ((s.recvAll t sizes).1.map result)).sum ≤ sizes.sum := by
  induction announced generalizing s with
  | nil => exact le_rfl
  | @cons text size texts sizes here _ ih =>
      have later := ih (s.recv t size).2
      have bytes : (s.recv t size).1.length ≤ size := by
        have atMost := t.le s.clock size
        rw [Stream.recv, List.length_take]
        omega
      have cut : (result (s.recv t size).1).length ≤ (s.recv t size).1.length - 1 := by
        rw [result, cText, ← List.length_dropLast]
        exact (List.takeWhile_sublist _).length_le
      have pos := here.1
      rw [Stream.recvAll, List.map_cons, sum_lengths_cons, List.sum_cons]
      omega

/-! ## What the lines take -/

theorem length_puts (v : RStr) :
    (puts v).length = if v.getLast? = some 10 then v.length else v.length + 1 := by
  unfold puts
  split
  · rfl
  · rw [List.length_append, List.length_singleton]

theorem sum_lengths_le (strings : List RStr) :
    (lengths strings).sum ≤ (strings.map puts).flatten.length + strings.length := by
  induction strings with
  | nil => exact le_rfl
  | cons v strings ih =>
      have line := length_puts v
      rw [sum_lengths_cons, List.map_cons, List.flatten_cons, List.length_append, List.length_cons]
      split at line <;> omega

theorem length_flatten_le (strings : List RStr) :
    (strings.map puts).flatten.length ≤ (lengths strings).sum := by
  induction strings with
  | nil => exact le_rfl
  | cons v strings ih =>
      have line := length_puts v
      rw [sum_lengths_cons, List.map_cons, List.flatten_cons, List.length_append]
      split at line <;> omega

/-- The sizes are right exactly if no string brings its own line end. -/
theorem length_flatten_eq_iff (strings : List RStr) :
    (strings.map puts).flatten.length = (lengths strings).sum ↔
      ∀ v ∈ strings, v.getLast? ≠ some 10 := by
  induction strings with
  | nil => exact iff_of_true rfl fun v member => absurd member List.not_mem_nil
  | cons v strings ih =>
      have line := length_puts v
      have later := length_flatten_le strings
      rw [List.forall_mem_cons, ← ih, sum_lengths_cons, List.map_cons, List.flatten_cons,
        List.length_append]
      split at line
      · rename_i ended
        constructor
        · intro same
          omega
        · intro both
          exact absurd ended both.1
      · rename_i open_
        constructor
        · intro same
          exact ⟨open_, by omega⟩
        · intro both
          omega

theorem map_length_puts {strings : List RStr} (lines : ∀ v ∈ strings, v.getLast? ≠ some 10) :
    (strings.map puts).map List.length = lengths strings := by
  rw [List.map_map, lengths]
  refine List.map_congr_left fun v member => ?_
  rw [Function.comp_apply, length_puts, if_neg (lines v member)]

theorem result_puts {v : RStr} (line : v.getLast? ≠ some 10) : result (puts v) = cText v := by
  rw [result, puts, if_neg line, List.dropLast_concat]

/-! ## Decoding -/

/-- The reply fits into the sizes of the client's types. -/
def Fits (strings : List RStr) : Prop :=
  (sizeLine strings).length + 1 < 2 ^ 31 ∧ ∀ v ∈ strings, v.length + 1 < 2 ^ 31

instance (strings : List RStr) : Decidable (Fits strings) :=
  inferInstanceAs (Decidable (_ ∧ ∀ v ∈ strings, v.length + 1 < 2 ^ 31))

/-- Complete reads of a reply that fits give its strings. -/
theorem query_of_full {r : Reply} (some_ : r.strings ≠ []) (fits : Fits r.strings)
    (lines : ∀ v ∈ r.strings, v.getLast? ≠ some 10) {i : Nat}
    (full : Stream.Full t (i + (sizeLine r.strings).length + 1) (lengths r.strings))
    (later : RStr) :
    query t ⟨r.written ++ later, i⟩ =
      some (r.strings.map cText,
        ⟨later, i + (sizeLine r.strings).length + 1 + r.strings.length⟩) := by
  have sizes := map_length_puts lines
  have enough : (lengths r.strings).sum ≤ ((r.strings.map puts).flatten ++ later).length := by
    rw [List.length_append, (length_flatten_eq_iff r.strings).mpr lines]
    exact Nat.le_add_right _ _
  have reads := Stream.recvAll_of_full t (r.strings.map puts) later
    (i + (sizeLine r.strings).length + 1) (sizes ▸ full)
  rw [sizes, List.length_map] at reads
  have texts : (r.strings.map puts).map result = r.strings.map cText := by
    rw [List.map_map]
    exact List.map_congr_left fun v member => result_puts (lines v member)
  rw [query_written, if_pos ⟨some_, fits.1⟩,
    readResults_eq (announces_lengths fits.2) enough, reads]
  dsimp only
  rw [texts]

/-- What the client needs to find anything. -/
theorem of_query {r : Reply} {later : RStr} {i : Nat} {results : List RStr} {s : Stream UInt8}
    (found : query t ⟨r.written ++ later, i⟩ = some (results, s)) :
    r.strings ≠ [] ∧ (sizeLine r.strings).length + 1 < 2 ^ 31 ∧
      readResults t (sizeWords r.strings)
        ⟨(r.strings.map puts).flatten ++ later, i + (sizeLine r.strings).length + 1⟩ =
          some (results, s) := by
  rw [query_written] at found
  split at found
  · rename_i both
    exact ⟨both.1, both.2, found⟩
  · cases found

/-- A reply comes through complete reads exactly if it is not the empty array and its
sizes are small enough. -/
theorem query_complete_iff (r : Reply) (clean : ∀ v ∈ r.strings, 0 ∉ v ∧ 10 ∉ v) (later : RStr)
    (i : Nat) :
    (query Transport.complete ⟨r.written ++ later, i⟩).map Prod.fst = some r.strings ↔
      r.strings ≠ [] ∧ Fits r.strings := by
  constructor
  · intro decoded
    obtain ⟨⟨results, s⟩, found, rfl⟩ := Option.map_eq_some_iff.mp decoded
    obtain ⟨some, line, read⟩ := of_query found
    obtain ⟨sizes, announced, same, _⟩ := of_readResults read
    have atMost := sum_results_le ⟨(r.strings.map puts).flatten ++ later,
      i + (sizeLine r.strings).length + 1⟩ (t := Transport.complete) announced
    rw [← same] at atMost
    rcases sum_of_announces announced with ⟨short, _⟩ | much
    · exact ⟨some, line, short⟩
    · omega
  · intro found
    obtain ⟨some_, fits⟩ := found
    have lines : ∀ v ∈ r.strings, v.getLast? ≠ some 10 := by
      intro v member last
      exact (clean v member).2 (List.mem_of_getLast? last)
    have texts : r.strings.map cText = r.strings := by
      refine (List.map_congr_left (g := id) ?_).trans (List.map_id _)
      intro v member
      exact cText_eq_self (clean v member).1
    rw [query_of_full some_ fits lines (Stream.full_complete _ _) later, Option.map_some, texts]

/-- `MREF` of a key without a sub-key is answered by an empty array, at which the
assertion in `str_split` fails. -/
theorem query_empty_array :
    ¬ (query Transport.complete ⟨(Reply.lines []).written, 0⟩).map Prod.fst =
      some (Reply.lines []).strings := by
  decide

theorem query_complete_pair :
    (query Transport.complete ⟨(Reply.lines [lit "+ab", lit "-nil"]).written ++ lit "2", 0⟩).map
      Prod.fst = some [lit "+ab", lit "-nil"] :=
  (query_complete_iff (.lines [lit "+ab", lit "-nil"]) (by decide) (lit "2") 0).mpr (by decide)

/-! ## Packets -/

/-- The client finds the same results as with complete reads, and the next reply behind
them. -/
def SameResults (t : Transport) (r : Reply) (i : Nat) : Prop :=
  ∀ later, ∃ results clock clock',
    query t ⟨r.written ++ later, i⟩ = some (results, ⟨later, clock⟩) ∧
      query Transport.complete ⟨r.written ++ later, i⟩ = some (results, ⟨later, clock'⟩)

/-- Where the reads end at the next reply, as many bytes have been taken as there are. -/
theorem taken_of_query {r : Reply} {b : UInt8} {i clock : Nat} {results : List RStr}
    (found : query t ⟨r.written ++ [b], i⟩ = some (results, ⟨[b], clock⟩)) :
    ∃ sizes, Announces (sizeWords r.strings) sizes ∧
      Stream.taken t (i + (sizeLine r.strings).length + 1) sizes =
        (r.strings.map puts).flatten.length := by
  obtain ⟨_, _, read⟩ := of_query found
  obtain ⟨sizes, announced, _, last⟩ := of_readResults read
  have rest := congrArg Stream.rest last
  rw [Stream.rest_recvAll] at rest
  have length := congrArg List.length rest
  simp only [List.length_drop, List.length_append, List.length_singleton] at length
  exact ⟨sizes, announced, by omega⟩

/-- Packets make no difference exactly if every result comes in one piece, and the reply
is one that complete reads take apart. -/
theorem sameResults_iff (t : Transport) (r : Reply) (some : r.strings ≠ []) (i : Nat) :
    SameResults t r i ↔
      Fits r.strings ∧ (∀ v ∈ r.strings, v.getLast? ≠ .some 10) ∧
        Stream.Full t (i + (sizeLine r.strings).length + 1) (lengths r.strings) := by
  constructor
  · intro same
    obtain ⟨results, _, _, found, complete⟩ := same [0]
    obtain ⟨_, line, _⟩ := of_query found
    have strings := length_le_length_sizeLine r.strings
    have sent := sum_lengths_le r.strings
    have inAll : Fits r.strings ∧ (r.strings.map puts).flatten.length =
      (lengths r.strings).sum := by
      obtain ⟨sizes, announced, taken⟩ := taken_of_query complete
      rw [(Stream.taken_eq_sum_iff _ _ _).mpr (Stream.full_complete _ _)] at taken
      rcases sum_of_announces announced with ⟨short, rfl⟩ | much
      · exact ⟨⟨line, short⟩, taken.symm⟩
      · omega
    obtain ⟨fits, total⟩ := inAll
    have full : Stream.Full t (i + (sizeLine r.strings).length + 1) (lengths r.strings) := by
      obtain ⟨sizes, announced, taken⟩ := taken_of_query found
      have atMost := Stream.taken_le t (i + (sizeLine r.strings).length + 1) sizes
      rcases sum_of_announces announced with ⟨_, rfl⟩ | much
      · exact (Stream.taken_eq_sum_iff _ _ _).mp (taken.trans total)
      · omega
    exact ⟨fits, (length_flatten_eq_iff r.strings).mp total, full⟩
  · intro found later
    obtain ⟨fits, lines, full⟩ := found
    exact ⟨_, _, _, query_of_full some fits lines full later,
      query_of_full some fits lines (Stream.full_complete _ _) later⟩

/-- One byte in each packet. -/
def bytewise : Transport where
  count _ n := min 1 n
  pos _ _ pos := Nat.lt_min.mpr ⟨Nat.one_pos, pos⟩
  le _ n := Nat.min_le_right 1 n

/-- The client takes the first packet for the whole result. -/
theorem not_sameResults_bytewise : ¬ SameResults bytewise (.text (lit "+ab")) 0 := by
  intro same
  obtain ⟨results, clock, _, found, _⟩ := same []
  have rest : (query bytewise ⟨(Reply.text (lit "+ab")).written ++ [], 0⟩).map
      (fun found => found.2.rest) = some (lit "ab\n") := by decide
  rw [found] at rest
  cases rest

theorem sameResults_complete : SameResults Transport.complete (.text (lit "+ab")) 0 :=
  (sameResults_iff Transport.complete (.text (lit "+ab")) (by decide) 0).mpr
    ⟨by decide, by decide, Stream.full_complete _ _⟩

end Client

end XFireDB
