import XFireDB.RString

/-!
# XQL

`String#tokenize` scans a line with the pattern
`(?:"(?:\\.|[^"])*"|[^" ])+` and takes whitespace and one pair of quotes off
each match.  The matcher follows the order in which a backtracking engine tries
the alternatives.
-/

namespace XFireDB

/-- Match `(?:\\.|[^"])*"` after an opening quote: what was matched and what is
left.  A backslash first takes the byte after it along; if that leaves no
closing quote, it stands for itself. -/
def quoted : RStr → Option (RStr × RStr)
  | [] => none
  | b :: tail =>
    if b = 34 then some ([34], tail)
    else
      let plain := (quoted tail).map fun found => (b :: found.1, found.2)
      match tail with
      | c :: rest =>
        if b = 92 ∧ c ≠ 10 then
          match quoted rest with
          | some found => some (b :: c :: found.1, found.2)
          | none => plain
        else plain
      | [] => plain

/-- Match the whole pattern as far as it goes; the first argument bounds the
number of repetitions. -/
def matchToken : Nat → RStr → RStr × RStr
  | 0, s => ([], s)
  | _, [] => ([], [])
  | fuel + 1, b :: rest =>
    if b = 34 then
      match quoted rest with
      | some (inside, rest) =>
        let found := matchToken fuel rest
        (34 :: inside ++ found.1, found.2)
      | none => ([], 34 :: rest)
    else if b = 32 then ([], 32 :: rest)
    else
      let found := matchToken fuel rest
      (b :: found.1, found.2)

/-- `scan`: where the pattern does not match, the scan moves on by one byte. -/
def scan : Nat → RStr → List RStr
  | 0, _ => []
  | _, [] => []
  | fuel + 1, b :: rest =>
    match matchToken (rest.length + 1) (b :: rest) with
    | ([], _) => scan fuel rest
    | (token, rest) => token :: scan fuel rest

/-- The bytes `strip` removes. -/
def isStripped (b : UInt8) : Bool := b == 0 || isSpace b

/-- `strip`. -/
def strip (s : RStr) : RStr := (((s.dropWhile isStripped).reverse).dropWhile isStripped).reverse

/-- `rchomp('"')`. -/
def rchompQuote : RStr → RStr
  | 34 :: rest => rest
  | s => s

/-- `chomp('"')`. -/
def chompQuote (s : RStr) : RStr :=
  match s.reverse with
  | 34 :: rest => rest.reverse
  | _ => s

/-- What `tokenize` makes of a match. -/
def trimToken (s : RStr) : RStr := chompQuote (rchompQuote (strip s))

/-- `String#tokenize`. -/
def tokenize (s : RStr) : List RStr := (scan s.length s).map trimToken

/-- An `XQLCommand`. -/
structure Xql where
  cmd : RStr
  args : List RStr
deriving DecidableEq, Repr

/-- `XQL.parse`. -/
def parseXql (query : RStr) : Option Xql :=
  match tokenize query with
  | [] => none
  | cmd :: args => some ⟨upcase cmd, args⟩

/-! ## Texts that survive -/

/-- A byte that neither separates nor quotes nor is stripped. -/
def isPlain (b : UInt8) : Bool := b != 34 && !isStripped b

/-- A non-empty text of plain bytes. -/
def PlainWord (w : RStr) : Prop := w ≠ [] ∧ ∀ b ∈ w, isPlain b = true

instance (w : RStr) : Decidable (PlainWord w) :=
  inferInstanceAs (Decidable (w ≠ [] ∧ ∀ b ∈ w, isPlain b = true))

/-- A text that can stand between quotes. -/
def Quotable (d : RStr) : Prop := ∀ b ∈ d, b ≠ 34 ∧ b ≠ 92

/-- A field of a query text, with the token it stands for. -/
inductive IsField : RStr → RStr → Prop
  | word {w : RStr} : PlainWord w → IsField w w
  | quote {d : RStr} : Quotable d → IsField (quote d) d

/-- A field ends at the end of the text or before a space. -/
def AtStop (rest : RStr) : Prop := rest = [] ∨ ∃ r, rest = 32 :: r

theorem matchToken_atStop {rest : RStr} (stop : AtStop rest) (fuel : Nat) :
    matchToken fuel rest = ([], rest) := by
  rcases stop with rfl | ⟨r, rfl⟩
  · cases fuel <;> rfl
  · cases fuel with
    | zero => rfl
    | succ fuel => simp [matchToken]

theorem matchToken_unquoted {w rest : RStr} (noSpace : 32 ∉ w) (noQuote : 34 ∉ w)
    (stop : AtStop rest) {fuel : Nat} (enough : w.length ≤ fuel) :
    matchToken fuel (w ++ rest) = (w, rest) := by
  induction w generalizing fuel with
  | nil => exact matchToken_atStop stop fuel
  | cons b w ih =>
      cases fuel with
      | zero => simp at enough
      | succ fuel =>
          obtain ⟨notSpace, noSpace⟩ := List.ne_and_not_mem_of_not_mem_cons noSpace
          obtain ⟨notQuote, noQuote⟩ := List.ne_and_not_mem_of_not_mem_cons noQuote
          have rest' : matchToken fuel (w ++ rest) = (w, rest) :=
            ih noSpace noQuote (by simpa using enough)
          rw [List.cons_append, matchToken, if_neg notQuote.symm, if_neg notSpace.symm, rest']

theorem quoted_quotable {d rest : RStr} (quotable : Quotable d) :
    quoted (d ++ 34 :: rest) = some (d ++ [34], rest) := by
  induction d with
  | nil => simp [quoted]
  | cons b d ih =>
      obtain ⟨notQuote, notBackslash⟩ := quotable b List.mem_cons_self
      have inner := ih fun c member => quotable c (List.mem_cons_of_mem b member)
      rw [List.cons_append, quoted.eq_def]
      simp only [notQuote, notBackslash, if_false, false_and, inner, Option.map_some]
      split <;> rfl

theorem strip_eq_self {s : RStr} (head : ∀ b ∈ s.head?, isStripped b = false)
    (last : ∀ b ∈ s.getLast?, isStripped b = false) : strip s = s := by
  have front : s.dropWhile isStripped = s := by
    cases s with
    | nil => rfl
    | cons b s => rw [List.dropWhile_cons_of_neg (by simp [head b rfl])]
  have back : s.reverse.dropWhile isStripped = s.reverse := by
    cases shape : s.reverse with
    | nil => rfl
    | cons b r =>
        have isLast : s.getLast? = some b := by rw [List.getLast?_eq_head?_reverse, shape]; rfl
        rw [List.dropWhile_cons_of_neg (by simp [last b isLast])]
  rw [strip, front, back, List.reverse_reverse]

theorem isStripped_of_isPlain {b : UInt8} (plain : isPlain b = true) : isStripped b = false := by
  simp only [isPlain, Bool.and_eq_true, Bool.not_eq_true'] at plain
  exact plain.2

/-- A text without quotes that `strip` leaves alone is its own token. -/
theorem trimToken_unquoted {w : RStr} (noQuote : 34 ∉ w) (stripped : strip w = w) :
    trimToken w = w := by
  have front : rchompQuote w = w := by
    unfold rchompQuote
    split
    · exact absurd List.mem_cons_self noQuote
    · rfl
  have back : chompQuote w = w := by
    unfold chompQuote
    split
    · rename_i rest shape
      exact absurd (List.mem_reverse.mp (shape ▸ List.mem_cons_self)) noQuote
    · rfl
  rw [trimToken, stripped, front, back]

/-- Quotes come off, whatever is between them. -/
theorem trimToken_quote (d : RStr) : trimToken (quote d) = d := by
  have stripped : strip (quote d) = quote d := by
    refine strip_eq_self ?_ ?_
    · intro b first
      obtain rfl : 34 = b := by simpa [quote, lit] using first
      rfl
    · intro b last
      rw [quote, List.getLast?_append_of_ne_nil _ (by decide)] at last
      obtain rfl : 34 = b := by simpa [lit] using last
      rfl
  rw [trimToken, stripped]
  simp [quote, lit, rchompQuote, chompQuote]

/-! ## Tokens -/

/-- A text that one match takes whole, and the token it gives. -/
structure IsToken (text token : RStr) : Prop where
  nonempty : text ≠ []
  matched : ∀ {rest : RStr} {fuel : Nat}, AtStop rest → text.length ≤ fuel →
    matchToken fuel (text ++ rest) = (text, rest)
  trimmed : trimToken text = token

theorem isToken_unquoted {w : RStr} (nonempty : w ≠ []) (noSpace : 32 ∉ w) (noQuote : 34 ∉ w)
    (stripped : strip w = w) : IsToken w w where
  nonempty := nonempty
  matched := fun stop enough => matchToken_unquoted noSpace noQuote stop enough
  trimmed := trimToken_unquoted noQuote stripped

theorem PlainWord.isToken {w : RStr} (plain : PlainWord w) : IsToken w w := by
  obtain ⟨nonempty, bytes⟩ := plain
  refine isToken_unquoted nonempty ?_ ?_ (strip_eq_self ?_ ?_)
  · intro space
    exact absurd (bytes 32 space) (by decide)
  · intro quote
    exact absurd (bytes 34 quote) (by decide)
  · intro b first
    exact isStripped_of_isPlain (bytes b (List.mem_of_mem_head? first))
  · intro b last
    exact isStripped_of_isPlain (bytes b (List.mem_of_mem_getLast? last))

/-- A text between quotes whose closing quote is the one found. -/
theorem isToken_quote {d : RStr}
    (closes : ∀ rest, quoted (d ++ 34 :: rest) = some (d ++ [34], rest)) :
    IsToken (quote d) d where
  nonempty := by simp [quote, lit]
  matched := by
    intro rest fuel stop enough
    cases fuel with
    | zero => simp [quote, lit] at enough
    | succ fuel =>
        have shape : quote d ++ rest = 34 :: (d ++ 34 :: rest) := by simp [quote, lit]
        rw [shape, matchToken, if_pos rfl, closes rest]
        dsimp only
        rw [matchToken_atStop stop fuel]
        simp [quote, lit]
  trimmed := trimToken_quote d

theorem IsField.isToken {text token : RStr} (field : IsField text token) : IsToken text token := by
  cases field with
  | word plain => exact plain.isToken
  | quote quotable => exact isToken_quote fun _ => quoted_quotable quotable

/-- What is matched and what is left are the whole text. -/
theorem quoted_append {s inside rest : RStr} (found : quoted s = some (inside, rest)) :
    inside ++ rest = s := by
  have goOn : ∀ {b : UInt8} {tail inside rest : RStr},
      (∀ {inside rest}, quoted tail = some (inside, rest) → inside ++ rest = tail) →
      (quoted tail).map (fun found => (b :: found.1, found.2)) = some (inside, rest) →
      inside ++ rest = b :: tail := by
    intro b tail inside rest later found
    obtain ⟨⟨inside', rest'⟩, found', same⟩ := Option.map_eq_some_iff.mp found
    cases same
    rw [List.cons_append, later found']
  induction s using quoted.induct generalizing inside rest with
  | case1 => cases found
  | case2 tail =>
      rw [quoted.eq_def] at found
      cases found
      rfl
  | case3 b notQuote c tail escape found' inner _ ih =>
      rw [quoted.eq_def] at found
      simp only [if_neg notQuote, if_pos escape, inner] at found
      cases found
      rw [List.cons_append, List.cons_append, ih inner]
  | case4 b notQuote c tail escape inner ih _ =>
      rw [quoted.eq_def] at found
      simp only [if_neg notQuote, if_pos escape, inner] at found
      exact goOn ih found
  | case5 b notQuote c tail noEscape ih =>
      rw [quoted.eq_def] at found
      simp only [if_neg notQuote, if_neg noEscape] at found
      exact goOn ih found
  | case6 b notQuote ih =>
      rw [quoted.eq_def] at found
      simp only [if_neg notQuote] at found
      exact goOn ih found

theorem matchToken_append (fuel : Nat) (s : RStr) :
    (matchToken fuel s).1 ++ (matchToken fuel s).2 = s := by
  induction fuel generalizing s with
  | zero => rfl
  | succ fuel ih =>
      cases s with
      | nil => rfl
      | cons b rest =>
          rw [matchToken]
          split
          · rename_i isQuote
            subst isQuote
            split
            · rename_i inside rest' found
              dsimp only
              rw [List.append_assoc, ih, List.cons_append, quoted_append found]
            · rfl
          · split
            · rename_i isSpace
              subst isSpace
              rfl
            · dsimp only
              rw [List.cons_append, ih]

/-- A scan with fuel enough does not depend on it. -/
theorem scan_of_le {fuel : Nat} {s : RStr} (enough : s.length ≤ fuel) :
    scan fuel s = scan s.length s := by
  induction fuel using Nat.strong_induction_on generalizing s with
  | _ fuel ih =>
      cases s with
      | nil => cases fuel <;> rfl
      | cons b rest =>
          cases fuel with
          | zero => cases enough
          | succ fuel =>
              rw [List.length_cons] at enough
              have whole := matchToken_append (rest.length + 1) (b :: rest)
              rw [List.length_cons, scan, scan]
              split
              · exact ih fuel (Nat.lt_succ_self fuel) (by omega)
              · rename_i token left matched nonempty
                rw [nonempty] at whole
                have shorter : left.length ≤ rest.length := by
                  have lengths := congrArg List.length whole
                  have some : token ≠ [] := fun none => matched none
                  have more := List.length_pos_iff.mpr some
                  simp only [List.length_append, List.length_cons] at lengths
                  omega
                rw [ih fuel (Nat.lt_succ_self fuel) (by omega), ih rest.length (by omega) shorter]

theorem tokenize_space (rest : RStr) : tokenize (32 :: rest) = tokenize rest := by
  simp [tokenize, scan, matchToken]

/-- The first token of a text that goes on after a space. -/
theorem tokenize_append {text token rest : RStr} (first : IsToken text token) (stop : AtStop rest) :
    tokenize (text ++ rest) = token :: tokenize rest := by
  cases text with
  | nil => exact absurd rfl first.nonempty
  | cons b text =>
      have enough : (b :: text).length ≤ (text ++ rest).length + 1 := by simp
      have matched := first.matched stop enough
      have left : rest.length ≤ (text ++ rest).length := by simp
      rw [List.cons_append] at matched ⊢
      rw [tokenize, List.length_cons, scan, matched]
      dsimp only
      rw [List.map_cons, first.trimmed, scan_of_le left, tokenize]

/-- Tokens joined with single spaces come back. -/
theorem tokenize_join {fields : List (RStr × RStr)} (areTokens : ∀ f ∈ fields, IsToken f.1 f.2) :
    tokenize (join (lit " ") (fields.map Prod.fst)) = fields.map Prod.snd := by
  induction fields with
  | nil => rfl
  | cons f fields ih =>
      have first := areTokens f List.mem_cons_self
      have later := ih fun g member => areTokens g (List.mem_cons_of_mem f member)
      cases fields with
      | nil =>
          have single := tokenize_append first (Or.inl rfl)
          rw [List.append_nil] at single
          rw [List.map_cons, List.map_nil, join_singleton, single]
          rfl
      | cons g fields =>
          rw [List.map_cons, List.map_cons, join_cons, tokenize_append first (Or.inr ⟨_, rfl⟩),
            tokenize_space]
          exact congrArg (f.2 :: ·) later

/-- `chomp` takes line ends off the end. -/
theorem chomp_append (s : RStr) : ∃ t, s = chomp s ++ t ∧ ∀ b ∈ t, b = 10 ∨ b = 13 := by
  unfold chomp
  split
  · rename_i rest shape
    refine ⟨[13, 10], ?_, by simp⟩
    rw [← List.reverse_reverse s, shape]
    simp
  · rename_i rest _ shape
    refine ⟨[10], ?_, by simp⟩
    rw [← List.reverse_reverse s, shape]
    simp
  · rename_i rest shape
    refine ⟨[13], ?_, by simp⟩
    rw [← List.reverse_reverse s, shape]
    simp
  · exact ⟨[], by simp, by simp⟩

/-- The first word of a query text reaches the other end. -/
theorem wireLine_word {w : RStr} (noFeed : 10 ∉ w) (rest : RStr) :
    ∃ rest', wireLine (w ++ 32 :: rest) = w ++ 32 :: rest' := by
  have front : (w ++ 32 :: rest).takeWhile (· ≠ 10) = w ++ 32 :: rest.takeWhile (· ≠ 10) := by
    rw [List.takeWhile_append_of_pos]
    · rw [List.takeWhile_cons_of_pos (by decide)]
    · intro b member
      simpa using fun same : b = 10 => noFeed (same ▸ member)
  obtain ⟨t, split, ends⟩ := chomp_append (w ++ 32 :: rest.takeWhile (· ≠ 10))
  rw [wireLine, front]
  have regroup : w ++ 32 :: rest.takeWhile (· ≠ 10) = (w ++ [32]) ++
    rest.takeWhile (· ≠ 10) := by simp
  rw [regroup] at split ⊢
  rcases List.append_eq_append_iff.mp split with ⟨a, left, _⟩ | ⟨a, left, right⟩
  · exact ⟨a, by rw [left]; simp⟩
  · -- the line ends cannot reach back to the space
    have : a = [] := by
      by_contra nonempty
      obtain ⟨init, last, rfl⟩ := List.eq_nil_or_concat' a |>.resolve_left nonempty
      rw [← List.append_assoc] at left
      have isSpace : last = 32 := by
        have := congrArg List.getLast? left
        simpa using this.symm
      rcases ends last (by rw [right]; simp) with rfl | rfl
      · cases isSpace
      · cases isSpace
    subst this
    rw [List.append_nil] at left
    exact ⟨[], by rw [← left]⟩

/-- The command of a text that starts with a plain word. -/
theorem parseXql_word {w : RStr} (plain : PlainWord w) (rest : RStr) :
    ∃ args, parseXql (w ++ 32 :: rest) = some ⟨upcase w, args⟩ := by
  rw [parseXql, tokenize_append plain.isToken (Or.inr ⟨rest, rfl⟩)]
  exact ⟨tokenize (32 :: rest), rfl⟩

end XFireDB
