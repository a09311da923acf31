import XFireDB.CText

/-!
# The two decoders of a reply line

`xfiredb_result_parse` of the C client and `Result#process` of the Ruby client tell
from the first byte of a line what kind of reply it is.  A reading is what a caller
can learn from either.
-/

namespace XFireDB

/-! ## Numbers in Ruby -/

/-- The digits of a number, with single underscores between them. -/
def rubyDigits : RStr → RStr
  | b :: 95 :: rest => if isDigit b then b :: rubyDigits rest else []
  | b :: rest => if isDigit b then b :: rubyDigits rest else []
  | [] => []

/-- The text after the prefix of a decimal number. -/
def afterPrefix : RStr → RStr
  | 48 :: 100 :: rest => rest
  | 48 :: 68 :: rest => rest
  | s => s

/-- `String#to_i`. -/
def rubyToI (s : RStr) : Int :=
  let s := s.dropWhile isSpace
  let n : Int := digitsValue (rubyDigits (afterPrefix (unsigned s)))
  if s.head? = some 45 then -n else n

/-- The text starts with an underscore and a digit. -/
def moreDigits : RStr → Bool
  | 95 :: c :: _ => isDigit c
  | _ => false

/-- A digit follows the first run of digits after an underscore. -/
def underscored (s : RStr) : Bool :=
  s.takeWhile isDigit ≠ [] && moreDigits (s.dropWhile isDigit)

theorem isDigit_of_mem_rubyDigits (s : RStr) : ∀ b ∈ rubyDigits s, isDigit b = true := by
  fun_induction rubyDigits s with
  | case1 b rest digit ih => exact List.forall_mem_cons.mpr ⟨digit, ih⟩
  | case2 b rest noDigit => simp
  | case3 b rest _ digit ih => exact List.forall_mem_cons.mpr ⟨digit, ih⟩
  | case4 b rest _ noDigit => simp
  | case5 => simp

theorem rubyDigits_cons_of_neg {b : UInt8} (noDigit : ¬isDigit b = true) (rest : RStr) :
    rubyDigits (b :: rest) = [] := by
  unfold rubyDigits
  split <;> simp_all

theorem underscored_cons_of_neg {b : UInt8} (noDigit : ¬isDigit b = true) (rest : RStr) :
    underscored (b :: rest) = false := by
  rw [underscored, List.takeWhile_cons_of_neg noDigit]
  rfl

theorem underscored_cons_of_pos {b : UInt8} (digit : isDigit b = true) (rest : RStr) :
    underscored (b :: rest) = moreDigits (rest.dropWhile isDigit) := by
  rw [underscored, List.takeWhile_cons_of_pos digit, List.dropWhile_cons_of_pos digit]
  rfl

/-- Ruby reads the first run of digits as C does, and goes on behind an underscore. -/
theorem rubyDigits_eq (s : RStr) :
    rubyDigits s = s.takeWhile isDigit ++
      (if underscored s then rubyDigits (s.dropWhile isDigit).tail else []) := by
  fun_induction rubyDigits s with
  | case1 b rest digit _ =>
      rw [underscored_cons_of_pos digit, List.takeWhile_cons_of_pos digit,
        List.dropWhile_cons_of_pos digit, List.takeWhile_cons_of_neg (by decide),
        List.dropWhile_cons_of_neg (by decide), List.tail_cons, List.singleton_append]
      cases rest with
      | nil => rfl
      | cons c rest =>
          rw [moreDigits]
          split
          · rfl
          · rename_i noDigit
            rw [rubyDigits_cons_of_neg noDigit]
  | case2 b rest noDigit =>
      rw [List.takeWhile_cons_of_neg noDigit, underscored_cons_of_neg noDigit]
      rfl
  | case3 b rest shape digit ih =>
      have under : underscored (b :: rest) = underscored rest := by
        rw [underscored_cons_of_pos digit]
        cases rest with
        | nil => rfl
        | cons c rest =>
            cases digit' : isDigit c with
            | true => rw [underscored_cons_of_pos digit', List.dropWhile_cons_of_pos digit']
            | false =>
                have noDigit : ¬isDigit c = true := by simp [digit']
                rw [underscored_cons_of_neg noDigit, List.dropWhile_cons_of_neg noDigit]
                unfold moreDigits
                split
                · rename_i under
                  exact absurd under (shape _)
                · rfl
      rw [List.takeWhile_cons_of_pos digit, List.dropWhile_cons_of_pos digit, under, ih,
        List.cons_append]
  | case4 b rest _ noDigit =>
      rw [List.takeWhile_cons_of_neg noDigit, underscored_cons_of_neg noDigit]
      rfl
  | case5 => rfl

theorem rubyDigits_ne_nil {s : RStr} (under : underscored s = true) :
    rubyDigits (s.dropWhile isDigit).tail ≠ [] := by
  rw [underscored, Bool.and_eq_true] at under
  obtain ⟨_, more⟩ := under
  unfold moreDigits at more
  split at more
  · rename_i c rest shape
    rw [shape, List.tail_cons, rubyDigits_eq, List.takeWhile_cons_of_pos more]
    exact List.cons_ne_nil _ _
  · cases more

/-! ## The value of digits -/

theorem digitsValue_append (l l' : RStr) :
    digitsValue (l ++ l') = digitsValue l * 10 ^ l'.length + digitsValue l' := by
  have from_ : ∀ (l : RStr) (acc : Nat),
      l.foldl (fun n b => 10 * n + (b.toNat - 48)) acc = acc * 10 ^ l.length + digitsValue l := by
    intro l
    induction l with
    | nil =>
        intro acc
        simp [digitsValue]
    | cons b l ih =>
        intro acc
        rw [List.foldl_cons, digitsValue, List.foldl_cons, ih, ih, List.length_cons, pow_succ]
        ring
  rw [digitsValue, List.foldl_append, from_]
  rfl

theorem digitsValue_eq_zero_iff {l : RStr} (digits : ∀ b ∈ l, isDigit b = true) :
    digitsValue l = 0 ↔ ∀ b ∈ l, b = 48 := by
  induction l with
  | nil => simp [digitsValue]
  | cons b l ih =>
      obtain ⟨digit, digits⟩ := List.forall_mem_cons.mp digits
      have first : digitsValue [b] = 0 ↔ b = 48 := by
        rw [isDigit, Bool.and_eq_true, decide_eq_true_eq, UInt8.le_iff_toNat_le] at digit
        have low : 48 ≤ b.toNat := digit.1
        rw [← UInt8.toNat_inj]
        simp only [digitsValue, List.foldl_cons, List.foldl_nil, UInt8.reduceToNat]
        omega
      have whole := digitsValue_append [b] l
      rw [List.singleton_append] at whole
      rw [whole, Nat.add_eq_zero_iff, Nat.mul_eq_zero, List.forall_mem_cons, ← ih digits, first]
      simp

/-! ## Two readings of a number -/

/-- Ruby reads digits that C leaves: behind `0d`, or behind an underscore. -/
def readsOn (u : RStr) : Bool := afterPrefix u ≠ u || underscored u

/-- Every digit Ruby reads is a zero. -/
def spellsZero (u : RStr) : Bool := (rubyDigits (afterPrefix u)).all (· = 48)

theorem spellsZero_iff (u : RStr) :
    spellsZero u = true ↔ digitsValue (rubyDigits (afterPrefix u)) = 0 := by
  rw [digitsValue_eq_zero_iff (isDigit_of_mem_rubyDigits _), spellsZero, List.all_eq_true]
  simp only [decide_eq_true_eq]

theorem rubyDigits_of_not_readsOn {u : RStr} (plain : readsOn u = false) :
    rubyDigits (afterPrefix u) = u.takeWhile isDigit := by
  rw [readsOn, Bool.or_eq_false_iff, decide_eq_false_iff_not, not_not] at plain
  rw [plain.1, rubyDigits_eq, plain.2, if_neg Bool.false_ne_true, List.append_nil]

theorem digitsValue_of_readsOn {u : RStr} (more : readsOn u = true) :
    digitsValue (u.takeWhile isDigit) < digitsValue (rubyDigits (afterPrefix u)) ∨
      digitsValue (u.takeWhile isDigit) = 0 ∧ digitsValue (rubyDigits (afterPrefix u)) = 0 := by
  rcases eq_or_ne (afterPrefix u) u with same | prefixed
  · have under : underscored u = true := by simpa [readsOn, same] using more
    have next := rubyDigits_ne_nil under
    rw [same, rubyDigits_eq, if_pos under, digitsValue_append]
    generalize digitsValue (u.takeWhile isDigit) = r
    generalize rubyDigits (u.dropWhile isDigit).tail = l at next
    have ten : 10 ≤ 10 ^ l.length := Nat.le_self_pow (List.length_pos_iff.mpr next).ne' 10
    have atLeast : r * 10 ≤ r * 10 ^ l.length := Nat.mul_le_mul_left r ten
    omega
  · have zero : digitsValue (u.takeWhile isDigit) = 0 := by
      unfold afterPrefix at prefixed
      split at prefixed
      · rfl
      · rfl
      · exact absurd rfl prefixed
    omega

/-- The text of a number, without blanks and sign. -/
def unsignedText (s : RStr) : RStr := unsigned (s.dropWhile isSpace)

def InInt (n : Int) : Prop := -2 ^ 31 ≤ n ∧ n < 2 ^ 31

theorem rubyToI_eq (s : RStr) :
    rubyToI s = if (s.dropWhile isSpace).head? = some 45
      then -(digitsValue (rubyDigits (afterPrefix (unsignedText s))) : Int)
      else digitsValue (rubyDigits (afterPrefix (unsignedText s))) := rfl

theorem strtol_eq (s : RStr) :
    strtol s = max (-2 ^ 63) (min (2 ^ 63 - 1) (if (s.dropWhile isSpace).head? = some 45
      then -(digitsValue ((unsignedText s).takeWhile isDigit) : Int)
      else digitsValue ((unsignedText s).takeWhile isDigit))) := rfl

theorem atoi_of_small {s : RStr} (small : InInt (strtol s)) : atoi s = strtol s :=
  Int.bmod_eq_of_le (by have := small.1; omega) (by have := small.2; omega)

/-- Both clients read an `int` alike exactly if Ruby finds no more digits than C does,
or only zeros. -/
theorem atoi_eq_rubyToI_iff {s : RStr} (small : InInt (rubyToI s)) :
    atoi s = rubyToI s ↔ readsOn (unsignedText s) = false ∨ spellsZero (unsignedText s) = true := by
  have spelled : atoi s = rubyToI s ↔ digitsValue ((unsignedText s).takeWhile isDigit) =
      digitsValue (rubyDigits (afterPrefix (unsignedText s))) := by
    have atMost : digitsValue ((unsignedText s).takeWhile isDigit) ≤
        digitsValue (rubyDigits (afterPrefix (unsignedText s))) := by
      cases more : readsOn (unsignedText s) with
      | false => rw [rubyDigits_of_not_readsOn more]
      | true =>
          have found := digitsValue_of_readsOn more
          omega
    rw [rubyToI_eq] at small ⊢
    obtain ⟨low, high⟩ := small
    split at low
    · rename_i minus
      rw [if_pos minus] at high ⊢
      have short : strtol s = -(digitsValue ((unsignedText s).takeWhile isDigit) : Int) := by
        rw [strtol_eq, if_pos minus]
        omega
      rw [atoi_of_small (by rw [short]; constructor <;> omega), short]
      omega
    · rename_i plus
      rw [if_neg plus] at high ⊢
      have short : strtol s = digitsValue ((unsignedText s).takeWhile isDigit) := by
        rw [strtol_eq, if_neg plus]
        omega
      rw [atoi_of_small (by rw [short]; constructor <;> omega), short]
      omega
  rw [spelled, spellsZero_iff]
  cases more : readsOn (unsignedText s) with
  | false =>
      rw [rubyDigits_of_not_readsOn more]
      exact iff_of_true rfl (Or.inl rfl)
  | true =>
      have found := digitsValue_of_readsOn more
      constructor
      · intro same
        exact Or.inr (by omega)
      · intro either
        rcases either with ⟨⟨⟩⟩ | zero
        omega

namespace Client

/-! ## The C client -/

inductive ResultType
  | string
  | fixnum
  | status
  | bool
deriving DecidableEq, Repr

/-- The union `data`; without a pointer it is zero. -/
inductive ResultData
  | ptr (s : RStr)
  | null
  | si (n : Int)
  | boolean (b : Bool)
deriving DecidableEq, Repr

def resultNil : Nat := 1
def resultOK : Nat := 2
def resultMsg : Nat := 4
def resultSuccess : Nat := 8

/-- `struct xfiredb_result`. -/
structure XfiredbResult where
  data : ResultData
  type : ResultType
  status : Nat
deriving DecidableEq, Repr

/-- The text behind a `-` at the front. -/
def withoutMinus : RStr → RStr
  | 45 :: tail => tail
  | s => s

/-- The branch of the status codes.  Only the comparison leaves out the `-`. -/
def parseStatus (ptr : RStr) : XfiredbResult :=
  let tmp := withoutMinus ptr
  if tmp = lit "OK" then ⟨.null, .status, resultOK ||| resultSuccess⟩
  else if tmp = lit "nil" then ⟨.null, .status, resultNil⟩
  else ⟨.ptr ptr, .status, resultMsg⟩

/-- `xfiredb_result_parse` of one result. -/
def xfiredbResultParse (line : RStr) : XfiredbResult :=
  let ptr := cText line
  match ptr with
  | 43 :: tail => ⟨.ptr tail, .string, resultSuccess⟩
  | 38 :: _ => ⟨.boolean (ptr = lit "&true"), .bool, resultSuccess⟩
  | 37 :: tail => ⟨.si (atoi tail), .fixnum, resultSuccess⟩
  | _ => parseStatus ptr

/-! ## The Ruby client -/

inductive RubyData
  | str (s : RStr)
  | bool (b : Bool)
  | int (n : Int)
  | nil
deriving DecidableEq, Repr

def statusOK : Nat := 1
def statusSuccess : Nat := 2
def statusNull : Nat := 4
def statusMsg : Nat := 8

/-- `Result` after `process`. -/
structure RubyResult where
  data : RubyData
  status : Nat
deriving DecidableEq, Repr

/-- `process_default`. -/
def processDefault (data : RStr) : RubyResult :=
  let data := withoutMinus data
  if data = lit "OK" then ⟨.str data, statusOK ||| statusSuccess⟩
  else if data = lit "nil" then ⟨.nil, statusNull⟩
  else ⟨.str data, statusMsg⟩

/-- `Result#process`. -/
def process (data : RStr) : RubyResult :=
  match data with
  | 43 :: tail => ⟨.str tail, statusSuccess⟩
  | 38 :: _ =>
    ⟨if data = lit "&true" then .bool true else if data = lit "&false" then .bool false
      else .str data, statusSuccess⟩
  | 37 :: tail => ⟨.int (rubyToI tail), statusSuccess⟩
  | _ => processDefault data

/-! ## Readings -/

/-- What a reply says. -/
inductive Reading
  | string (s : RStr)
  | number (n : Int)
  | boolean (b : Bool)
  | ok
  | nil
  | message (s : RStr)
deriving DecidableEq, Repr

/-- What the accessors of the C client say; the type tells which data there is. -/
def XfiredbResult.reading (r : XfiredbResult) : Option Reading :=
  match r.type, r.data with
  | .string, .ptr s => some (.string s)
  | .fixnum, .si n => some (.number n)
  | .bool, .boolean b => some (.boolean b)
  | .status, data =>
    if r.status &&& resultOK ≠ 0 then some .ok
    else if r.status &&& resultNil ≠ 0 then some .nil
    else match data with
      | .ptr s => if r.status &&& resultMsg ≠ 0 then some (.message s) else none
      | _ => none
  | _, _ => none

def XfiredbResult.success (r : XfiredbResult) : Bool := r.status &&& resultSuccess ≠ 0

/-- What the methods of a Ruby result say. -/
def RubyResult.reading (r : RubyResult) : Option Reading :=
  if r.status &&& statusOK ≠ 0 then some .ok
  else if r.status &&& statusNull ≠ 0 then some .nil
  else
    match r.data with
    | .str s =>
      if r.status &&& statusMsg ≠ 0 then some (.message s) else some (.string s)
    | .bool b => some (.boolean b)
    | .int n => some (.number n)
    | .nil => none

def RubyResult.success (r : RubyResult) : Bool := r.status &&& statusSuccess = statusSuccess

/-- Two readings are alike if they are of one kind and carry the same payload; numbers
only if the exact one is an `int`. -/
def Alike : Option Reading → Option Reading → Prop
  | some (.number m), some (.number n) => InInt n → m = n
  | some r, some r' => r = r'
  | _, _ => False

/-- Both clients read the line alike. -/
def Agree (line : RStr) : Prop :=
  Alike (xfiredbResultParse line).reading (process line).reading ∧
    (xfiredbResultParse line).success = (process line).success

/-! ## Status codes -/

/-- What a status code says whose text after the sign is `text`. -/
def statusReading (text payload : RStr) : Reading :=
  if text = lit "OK" then .ok else if text = lit "nil" then .nil else .message payload

theorem parseStatus_reads (ptr : RStr) :
    (parseStatus ptr).reading = some (statusReading (withoutMinus ptr) ptr) ∧
      (parseStatus ptr).success = decide (withoutMinus ptr = lit "OK") := by
  unfold parseStatus statusReading
  dsimp only
  split
  · rename_i ok
    simp [XfiredbResult.reading, XfiredbResult.success, resultOK, resultSuccess, ok]
  · rename_i notOK
    split <;>
      simp [XfiredbResult.reading, XfiredbResult.success, resultOK, resultNil, resultMsg,
        resultSuccess, notOK]

theorem processDefault_reads (data : RStr) :
    (processDefault data).reading =
        some (statusReading (withoutMinus data) (withoutMinus data)) ∧
      (processDefault data).success = decide (withoutMinus data = lit "OK") := by
  unfold processDefault statusReading
  dsimp only
  split
  · rename_i ok
    simp [RubyResult.reading, RubyResult.success, statusOK, statusSuccess, ok]
  · rename_i notOK
    split <;>
      simp [RubyResult.reading, RubyResult.success, statusOK, statusNull, statusMsg,
        statusSuccess, notOK]

theorem alike_statusReading (text payload data : RStr) :
    Alike (some (statusReading text payload)) (some (statusReading data data)) ↔
      statusReading text payload = statusReading data data := by
  unfold statusReading
  split
  · exact Iff.rfl
  · split <;> exact Iff.rfl

theorem statusReading_eq_ok_iff {text payload : RStr} :
    statusReading text payload = .ok ↔ text = lit "OK" := by
  unfold statusReading
  split
  · rename_i ok
    exact iff_of_true rfl ok
  · rename_i notOK
    split <;> exact iff_of_false (fun same => by cases same) notOK

/-- Status codes that are read alike have the same text, unless both are messages. -/
theorem of_statusReading_eq {text payload data : RStr}
    (same : statusReading text payload = statusReading data data) :
    text = data ∧ (data = lit "OK" ∨ data = lit "nil") ∨ payload = data := by
  unfold statusReading at same
  split at same
  · rename_i ok
    split at same
    · rename_i ok'
      exact Or.inl ⟨ok.trans ok'.symm, Or.inl ok'⟩
    · split at same <;> cases same
  · split at same
    · rename_i nil
      split at same
      · cases same
      · split at same
        · rename_i nil'
          exact Or.inl ⟨nil.trans nil'.symm, Or.inr nil'⟩
        · cases same
    · split at same
      · cases same
      · split at same
        · cases same
        · exact Or.inr (Reading.message.inj same)

/-- A text with nothing in front is read alike exactly if C sees all of it. -/
theorem statusReading_cText_iff (data : RStr) :
    statusReading (cText data) (cText data) = statusReading data data ↔ 0 ∉ data := by
  rw [← cText_eq_self_iff]
  constructor
  · intro same
    rcases of_statusReading_eq same with ⟨whole, _⟩ | whole
    · exact whole
    · exact whole
  · intro whole
    rw [whole]

/-- The sign stays in the C client's message. -/
theorem statusReading_minus_iff (tail : RStr) :
    statusReading (cText tail) (45 :: cText tail) = statusReading tail tail ↔
      tail = lit "OK" ∨ tail = lit "nil" := by
  constructor
  · intro same
    rcases of_statusReading_eq same with ⟨_, code⟩ | longer
    · exact code
    · have nulFree : 0 ∉ tail := by
        rw [← longer]
        exact List.not_mem_cons_of_ne_of_not_mem (by decide) (nulFree_cText tail)
      rw [cText_eq_self nulFree] at longer
      exact absurd longer (List.cons_ne_self 45 tail)
  · rintro (rfl | rfl) <;> decide

/-! ## Agreement -/

/-- The lines both clients read alike. -/
def Readable : RStr → Prop
  | 43 :: tail => 0 ∉ tail
  | 38 :: tail => tail = lit "true" ∨ tail = lit "false"
  | 37 :: tail => InInt (rubyToI tail) →
      readsOn (unsignedText tail) = false ∨ spellsZero (unsignedText tail) = true
  | 45 :: tail => tail = lit "OK" ∨ tail = lit "nil"
  | line => 0 ∉ line

theorem Readable.of_ne {b : UInt8} (noPlus : b ≠ 43) (noAnd : b ≠ 38) (noPercent : b ≠ 37)
    (noMinus : b ≠ 45) (tail : RStr) : Readable (b :: tail) ↔ 0 ∉ b :: tail := by
  unfold Readable
  split <;> simp_all

theorem xfiredbResultParse_of_ne {b : UInt8} (noPlus : b ≠ 43) (noAnd : b ≠ 38)
    (noPercent : b ≠ 37) (tail : RStr) :
    xfiredbResultParse (b :: tail) = parseStatus (cText (b :: tail)) := by
  rcases eq_or_ne b 0 with rfl | nonzero
  · rw [xfiredbResultParse, cText_nul]
  · rw [xfiredbResultParse, cText_cons_of_ne nonzero]
    split <;> simp_all

theorem process_of_ne {b : UInt8} (noPlus : b ≠ 43) (noAnd : b ≠ 38) (noPercent : b ≠ 37)
    (tail : RStr) : process (b :: tail) = processDefault (b :: tail) := by
  unfold process
  split <;> simp_all

theorem withoutMinus_of_ne {b : UInt8} (noMinus : b ≠ 45) (tail : RStr) :
    withoutMinus (b :: tail) = b :: tail := by
  unfold withoutMinus
  split <;> simp_all

theorem success_parsed (data : ResultData) (type : ResultType) :
    (XfiredbResult.mk data type resultSuccess).success = true := by
  simp [XfiredbResult.success, resultSuccess]

theorem success_processed (data : RubyData) :
    (RubyResult.mk data statusSuccess).success = true := by
  simp [RubyResult.success, statusSuccess]

theorem reading_processed (data : RubyData) : (RubyResult.mk data statusSuccess).reading =
    match data with
    | .str s => some (.string s)
    | .bool b => some (.boolean b)
    | .int n => some (.number n)
    | .nil => none := by
  cases data <;> simp [RubyResult.reading, statusSuccess, statusOK, statusNull, statusMsg]

/-- Where both replies are successful, only the readings count. -/
theorem agree_of_success {line : RStr} {data : ResultData} {type : ResultType} {data' : RubyData}
    (parsed : xfiredbResultParse line = ⟨data, type, resultSuccess⟩)
    (processed : process line = ⟨data', statusSuccess⟩) :
    Agree line ↔ Alike (XfiredbResult.mk data type resultSuccess).reading
      (RubyResult.mk data' statusSuccess).reading := by
  rw [Agree, parsed, processed, success_parsed, success_processed]
  exact and_iff_left rfl

theorem agree_string (tail : RStr) : Agree (43 :: tail) ↔ 0 ∉ tail := by
  have parsed : xfiredbResultParse (43 :: tail) = ⟨.ptr (cText tail), .string, resultSuccess⟩ := by
    rw [xfiredbResultParse, cText_cons_of_ne (by decide)]
    rfl
  rw [agree_of_success parsed rfl, reading_processed, ← cText_eq_self_iff]
  exact ⟨fun alike => Reading.string.inj alike, congrArg Reading.string⟩

theorem agree_boolean (tail : RStr) :
    Agree (38 :: tail) ↔ tail = lit "true" ∨ tail = lit "false" := by
  have parsed : xfiredbResultParse (38 :: tail) =
      ⟨.boolean (38 :: cText tail = lit "&true"), .bool, resultSuccess⟩ := by
    rw [xfiredbResultParse, cText_cons_of_ne (by decide)]
    rfl
  rw [agree_of_success parsed rfl, reading_processed]
  rcases eq_or_ne tail (lit "true") with rfl | notTrue
  · exact iff_of_true (show Reading.boolean _ = Reading.boolean _ by decide) (Or.inl rfl)
  rcases eq_or_ne tail (lit "false") with rfl | notFalse
  · exact iff_of_true (show Reading.boolean _ = Reading.boolean _ by decide) (Or.inr rfl)
  have kept : 38 :: tail ≠ lit "&true" ∧ 38 :: tail ≠ lit "&false" :=
    ⟨fun same => notTrue (List.tail_eq_of_cons_eq same),
      fun same => notFalse (List.tail_eq_of_cons_eq same)⟩
  rw [if_neg kept.1, if_neg kept.2]
  exact iff_of_false (fun alike => by cases alike) (not_or_intro notTrue notFalse)

theorem agree_number (tail : RStr) : Agree (37 :: tail) ↔
    (InInt (rubyToI tail) →
      readsOn (unsignedText tail) = false ∨ spellsZero (unsignedText tail) = true) := by
  have parsed : xfiredbResultParse (37 :: tail) = ⟨.si (atoi tail), .fixnum, resultSuccess⟩ := by
    rw [xfiredbResultParse, cText_cons_of_ne (by decide), ← atoi_cText tail]
    rfl
  rw [agree_of_success parsed rfl, reading_processed]
  exact forall_congr' fun small => atoi_eq_rubyToI_iff small

/-- Where both replies are status codes, equal readings succeed alike. -/
theorem agree_of_status {line ptr : RStr} (parsed : xfiredbResultParse line = parseStatus ptr)
    (processed : process line = processDefault line) :
    Agree line ↔ statusReading (withoutMinus ptr) ptr =
      statusReading (withoutMinus line) (withoutMinus line) := by
  obtain ⟨reading, success⟩ := parseStatus_reads ptr
  obtain ⟨reading', success'⟩ := processDefault_reads line
  rw [Agree, parsed, processed, reading, reading', success, success', alike_statusReading]
  refine and_iff_left_of_imp fun same => ?_
  rw [decide_eq_decide, ← statusReading_eq_ok_iff, same, statusReading_eq_ok_iff]

theorem agree_minus (tail : RStr) : Agree (45 :: tail) ↔ tail = lit "OK" ∨ tail = lit "nil" := by
  have parsed : xfiredbResultParse (45 :: tail) = parseStatus (45 :: cText tail) := by
    rw [xfiredbResultParse, cText_cons_of_ne (by decide)]
    rfl
  rw [agree_of_status parsed rfl]
  exact statusReading_minus_iff tail

theorem agree_of_ne {b : UInt8} (noPlus : b ≠ 43) (noAnd : b ≠ 38) (noPercent : b ≠ 37)
    (noMinus : b ≠ 45) (tail : RStr) : Agree (b :: tail) ↔ 0 ∉ b :: tail := by
  have text : withoutMinus (cText (b :: tail)) = cText (b :: tail) := by
    rcases eq_or_ne b 0 with rfl | nonzero
    · rw [cText_nul]
      rfl
    · rw [cText_cons_of_ne nonzero, withoutMinus_of_ne noMinus]
  rw [agree_of_status (xfiredbResultParse_of_ne noPlus noAnd noPercent tail)
    (process_of_ne noPlus noAnd noPercent tail), text, withoutMinus_of_ne noMinus]
  exact statusReading_cText_iff (b :: tail)

/-- The two clients read a line alike exactly if it is readable. -/
theorem agree_iff (line : RStr) : Agree line ↔ Readable line := by
  cases line with
  | nil =>
      have parsed : xfiredbResultParse [] = parseStatus [] := rfl
      rw [agree_of_status parsed rfl]
      exact iff_of_true rfl List.not_mem_nil
  | cons b tail =>
      rcases eq_or_ne b 43 with rfl | noPlus
      · exact agree_string tail
      rcases eq_or_ne b 38 with rfl | noAnd
      · exact agree_boolean tail
      rcases eq_or_ne b 37 with rfl | noPercent
      · exact agree_number tail
      rcases eq_or_ne b 45 with rfl | noMinus
      · exact agree_minus tail
      rw [agree_of_ne noPlus noAnd noPercent noMinus, Readable.of_ne noPlus noAnd noPercent noMinus]

/-- The Ruby client shows the message `Command not known`, the C client shows it with
its sign. -/
theorem not_agree_message : ¬ Agree (lit "-Command not known") := by
  intro agree
  have code := (agree_minus (lit "Command not known")).mp agree
  exact absurd code (by decide)

end Client

end XFireDB
