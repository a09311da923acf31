import XFireDB.Hash

/-!
# Ruby strings

The server reads its requests from sockets in binary mode, so a Ruby string is
a list of bytes here.  This module has the `String` methods the server uses, the
exceptions they raise, and the passage to C strings: `StringValueCStr` raises an
`ArgumentError` on a string that contains a NUL.
-/

namespace XFireDB

abbrev RStr : Type := List UInt8

instance RStr.decidableMem (x : RStr) (l : List RStr) : Decidable (x ∈ l) := inferInstance

/-- The bytes of a literal of the source. -/
def lit (s : String) : RStr := s.toList.map fun c => UInt8.ofNat c.toNat

/-- The exceptions the modelled code raises.  `noReply` is none of Ruby's: the bus
thread that served a query has died and the reader of its socket waits on. -/
inductive Raise
  | argumentError
  | typeError
  | rangeError
  | noMethodError
  | indexError
  | illegalKey (message : RStr)
  | illegalCommand (message : RStr)
  | noReply
deriving DecidableEq, Repr

/-- `StringValueCStr`. -/
def stringValueCStr (s : RStr) : Except Raise CStr :=
  if h : 0 ∈ s then .error .argumentError else .ok ⟨s, h⟩

/-- `rb_str_new2`. -/
def CStr.toR (s : CStr) : RStr := s.bytes

theorem stringValueCStr_toR (s : CStr) : stringValueCStr s.toR = .ok s := by
  rw [stringValueCStr, dif_neg (show 0 ∉ s.toR from s.nulFree)]
  rfl

theorem CStr.toR_injective : Function.Injective CStr.toR := by
  intro a b same
  have known := stringValueCStr_toR a
  rw [same, stringValueCStr_toR] at known
  exact (Except.ok.inj known).symm

theorem toR_of_stringValueCStr {key : RStr} {k : CStr} (known : stringValueCStr key = .ok k) :
    k.toR = key := by
  unfold stringValueCStr at known
  split at known
  · cases known
  · rw [← Except.ok.inj known]
    rfl

theorem mem_of_raises {s : RStr} {e : Raise} (raises : stringValueCStr s = .error e) : 0 ∈ s := by
  by_contra proper
  simp [stringValueCStr, proper] at raises

theorem not_mem_of_ok {s : RStr} {c : CStr} (proper : stringValueCStr s = .ok c) : 0 ∉ s := by
  intro nul
  simp [stringValueCStr, nul] at proper

/-- `Integer#to_s` of a natural number. -/
def natToS (n : Nat) : RStr := (Nat.toDigits 10 n).map fun c => UInt8.ofNat c.toNat

/-- `Integer#to_s`. -/
def intToS : Int → RStr
  | .ofNat n => natToS n
  | .negSucc n => lit "-" ++ natToS (n + 1)

def isDigit (b : UInt8) : Bool := 48 ≤ b && b ≤ 57

/-- The text after an optional sign, as `[-+]?` matches it. -/
def unsigned : RStr → RStr
  | 43 :: rest => rest
  | 45 :: rest => rest
  | s => s

/-- `String#is_i?`: an optional sign and at least one digit. -/
def isI (s : RStr) : Bool := unsigned s ≠ [] && (unsigned s).all isDigit

/-- `String#to_i` of a text that passes `is_i?`. -/
def toI (s : RStr) : Int :=
  let n : Int := (unsigned s).foldl (fun acc b => 10 * acc + (b.toNat - 48)) 0
  if s.head? = some 45 then -n else n

/-- `String#quote`. -/
def quote (s : RStr) : RStr := lit "\"" ++ s ++ lit "\""

/-- The pieces between occurrences of `..`, the last one included. -/
def splitDotsFrom (cur : RStr) : RStr → List RStr
  | 46 :: 46 :: rest => cur.reverse :: splitDotsFrom [] rest
  | b :: rest => splitDotsFrom (b :: cur) rest
  | [] => [cur.reverse]

/-- `split('..')`: trailing empty pieces are dropped. -/
def splitDots (s : RStr) : List RStr :=
  ((splitDotsFrom [] s).reverse.dropWhile (· = [])).reverse

/-- The bytes that Ruby counts as whitespace. -/
def isSpace (b : UInt8) : Bool := b == 32 || (9 ≤ b && b ≤ 13)

/-- `split(' ')`: the runs of bytes between whitespace. -/
def splitSpace (s : RStr) : List RStr := (s.splitOnP isSpace).filter (· ≠ [])

/-- `join(sep)`. -/
def join (sep : RStr) (parts : List RStr) : RStr := sep.intercalate parts

/-- `chomp`: one line end is removed. -/
def chomp (s : RStr) : RStr :=
  match s.reverse with
  | 10 :: 13 :: rest => rest.reverse
  | 10 :: rest => rest.reverse
  | 13 :: rest => rest.reverse
  | _ => s

/-- `puts`. -/
def puts (s : RStr) : RStr := if s.getLast? = some 10 then s else s ++ [10]

/-- `puts s` at one end of a socket, `gets.chomp` at the other: the first line
of `s`, less a carriage return at its end. -/
def wireLine (s : RStr) : RStr := chomp (s.takeWhile (· ≠ 10))

/-- `upcase`, which changes ASCII letters only. -/
def upcase (s : RStr) : RStr := s.map fun b => if 97 ≤ b ∧ b ≤ 122 then b - 32 else b

/-! ## Words survive the wire -/

/-- A word of a space separated line. -/
def IsWord (w : RStr) : Prop := w ≠ [] ∧ ∀ b ∈ w, isSpace b = false

instance (w : RStr) : Decidable (IsWord w) :=
  inferInstanceAs (Decidable (w ≠ [] ∧ ∀ b ∈ w, isSpace b = false))

theorem mem_of_mem_splitOnP {p : UInt8 → Bool} {s part : RStr} {b : UInt8}
    (member : part ∈ s.splitOnP p) (inside : b ∈ part) : b ∈ s ∧ p b = false := by
  induction s generalizing part with
  | nil =>
      rw [List.splitOnP_nil, List.mem_singleton] at member
      subst member
      cases inside
  | cons c s ih =>
      rw [List.splitOnP_cons_eq_if_modifyHead] at member
      split at member
      · rcases List.mem_cons.mp member with rfl | member
        · cases inside
        · obtain ⟨within, other⟩ := ih member inside
          exact ⟨List.mem_cons_of_mem c within, other⟩
      · rename_i notSep
        cases pieces : s.splitOnP p with
        | nil => exact absurd pieces (List.splitOnP_ne_nil p s)
        | cons first rest =>
            rw [pieces, List.modifyHead_cons, List.mem_cons] at member
            rcases member with rfl | member
            · rcases List.mem_cons.mp inside with rfl | inside
              · exact ⟨List.mem_cons_self, by simpa using notSep⟩
              · obtain ⟨within, other⟩ := ih (pieces ▸ List.mem_cons_self) inside
                exact ⟨List.mem_cons_of_mem c within, other⟩
            · obtain ⟨within, other⟩ := ih (pieces ▸ List.mem_cons_of_mem first member) inside
              exact ⟨List.mem_cons_of_mem c within, other⟩

theorem isWord_of_mem_splitSpace {s word : RStr} (member : word ∈ splitSpace s) : IsWord word := by
  rw [splitSpace, List.mem_filter] at member
  obtain ⟨inside, nonempty⟩ := member
  exact ⟨by simpa using nonempty, fun b isIn => (mem_of_mem_splitOnP inside isIn).2⟩

/-- Whitespace at the end does not matter. -/
theorem splitSpace_append_spaces (s : RStr) {t : RStr} (spaces : ∀ b ∈ t, isSpace b = true) :
    splitSpace (s ++ t) = splitSpace s := by
  induction t generalizing s with
  | nil => rw [List.append_nil]
  | cons b t ih =>
      have regroup : s ++ b :: t = (s ++ [b]) ++ t := by simp
      have last : (s ++ [b]).splitOnP isSpace = s.splitOnP isSpace ++ [[]] :=
        List.splitOnP_append_cons s [] (spaces b List.mem_cons_self)
      rw [regroup, ih _ fun c member => spaces c (List.mem_cons_of_mem b member)]
      rw [splitSpace, last, List.filter_append, splitSpace]
      simp

theorem join_cons (w w' : RStr) (rest : List RStr) :
    join (lit " ") (w :: w' :: rest) = w ++ 32 :: join (lit " ") (w' :: rest) := by
  simp [join, List.intercalate_cons_cons, lit]

theorem join_singleton (sep w : RStr) : join sep [w] = w := by
  simp [join]

/-- Splitting at blanks undoes joining with blanks, whatever else counts as blank. -/
theorem pieces_join {p : UInt8 → Bool} (blank : p 32 = true) {words : List RStr}
    (areWords : ∀ w ∈ words, w ≠ [] ∧ ∀ b ∈ w, p b = false) :
    ((join (lit " ") words).splitOnP p).filter (· ≠ []) = words := by
  induction words with
  | nil => simp [join]
  | cons w rest ih =>
      obtain ⟨nonempty, inside⟩ := areWords w List.mem_cons_self
      have keeps : ∀ l : List RStr, (w :: l).filter (· ≠ []) = w :: l.filter (· ≠ []) := by
        intro l
        exact List.filter_cons_of_pos (decide_eq_true nonempty)
      cases rest with
      | nil =>
          rw [join_singleton, List.splitOnP_eq_singleton inside, keeps, List.filter_nil]
      | cons w' rest' =>
          rw [join_cons, List.splitOnP_append_cons_of_forall_mem inside 32 blank,
            keeps, ih fun v member => areWords v (List.mem_cons_of_mem w member)]

/-- Splitting undoes joining with spaces. -/
theorem splitSpace_join {words : List RStr} (areWords : ∀ w ∈ words, IsWord w) :
    splitSpace (join (lit " ") words) = words :=
  pieces_join (by decide) areWords

/-- A line without line ends passes unchanged. -/
theorem wireLine_eq_self {s : RStr} (noFeed : 10 ∉ s) (noReturn : 13 ∉ s) : wireLine s = s := by
  have whole : s.takeWhile (· ≠ 10) = s := by
    rw [List.takeWhile_eq_self_iff]
    intro b member
    simpa using fun same : b = 10 => noFeed (same ▸ member)
  rw [wireLine, whole, chomp]
  split
  · rename_i rest h
    exact absurd (List.mem_reverse.mp (h ▸ List.mem_cons_self)) noFeed
  · rename_i rest h
    exact absurd (List.mem_reverse.mp (h ▸ List.mem_cons_self)) noFeed
  · rename_i rest h
    exact absurd (List.mem_reverse.mp (h ▸ List.mem_cons_self)) noReturn
  · rfl

theorem mem_join {sep : RStr} {parts : List RStr} {b : UInt8} (member : b ∈ join sep parts) :
    b ∈ sep ∨ ∃ p ∈ parts, b ∈ p := by
  induction parts with
  | nil => simp [join] at member
  | cons p rest ih =>
      cases rest with
      | nil =>
          have inPart : b ∈ p := by simpa [join] using member
          exact Or.inr ⟨p, List.mem_cons_self, inPart⟩
      | cons q rest' =>
          rw [join, List.intercalate_cons_cons, List.mem_append, List.mem_append] at member
          rcases member with (inPart | inSep) | later
          · exact Or.inr ⟨p, List.mem_cons_self, inPart⟩
          · exact Or.inl inSep
          · rcases ih later with inSep | ⟨r, inRest, inPart⟩
            · exact Or.inl inSep
            · exact Or.inr ⟨r, List.mem_cons_of_mem p inRest, inPart⟩

/-- Words that are joined with spaces pass unchanged. -/
theorem wireLine_join {words : List RStr} (areWords : ∀ w ∈ words, IsWord w) :
    wireLine (join (lit " ") words) = join (lit " ") words := by
  have clean : ∀ b, isSpace b = true → b ≠ 32 → b ∉ join (lit " ") words := by
    intro b space notBlank member
    rcases mem_join member with blank | ⟨w, isIn, inWord⟩
    · exact notBlank (by simpa [lit] using blank)
    · simp [(areWords w isIn).2 b inWord] at space
  exact wireLine_eq_self (clean 10 (by decide) (by decide)) (clean 13 (by decide) (by decide))

end XFireDB
