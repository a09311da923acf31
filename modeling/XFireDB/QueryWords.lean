import XFireDB.Xql
import XFireDB.KeyShard

/-!
# Words of a query

A client that puts its arguments into the text of a query sends words, and data between
quotation marks.  These are the tokens of such texts, and what is left of a line of them
when it arrives.
-/

namespace XFireDB

/-! ## Words -/

/-- A text without whitespace or quotation marks; it may be empty. -/
def Unspaced (w : RStr) : Prop := ∀ b ∈ w, isSpace b = false ∧ b ≠ 34

instance (w : RStr) : Decidable (Unspaced w) :=
  inferInstanceAs (Decidable (∀ b ∈ w, isSpace b = false ∧ b ≠ 34))

/-- The tokens of such a text. -/
def tokens (w : RStr) : List RStr := if w = [] then [] else [strip w]

theorem tokens_of_ne_nil {w : RStr} (nonempty : w ≠ []) : tokens w = [strip w] := if_neg nonempty

theorem Unspaced.not_mem {w : RStr} (unspaced : Unspaced w) {b : UInt8} (space : isSpace b = true) :
    b ∉ w := by
  intro member
  exact Bool.false_ne_true ((unspaced b member).1.symm.trans space)

theorem mem_of_mem_strip {s : RStr} {b : UInt8} (member : b ∈ strip s) : b ∈ s := by
  rw [strip, List.mem_reverse] at member
  have front := (List.dropWhile_sublist _).mem member
  exact (List.dropWhile_sublist _).mem (List.mem_reverse.mp front)

theorem trimToken_of_not_mem {w : RStr} (noQuote : 34 ∉ w) : trimToken w = strip w := by
  have stripped : 34 ∉ strip w := fun member => noQuote (mem_of_mem_strip member)
  have front : rchompQuote (strip w) = strip w := by
    unfold rchompQuote
    split
    · rename_i shape
      exact absurd (shape ▸ List.mem_cons_self) stripped
    · rfl
  have back : chompQuote (strip w) = strip w := by
    unfold chompQuote
    split
    · rename_i rest shape
      exact absurd (List.mem_reverse.mp (shape ▸ List.mem_cons_self)) stripped
    · rfl
  rw [trimToken, front, back]

theorem Unspaced.isToken {w : RStr} (unspaced : Unspaced w) (nonempty : w ≠ []) :
    IsToken w (strip w) where
  nonempty := nonempty
  matched := by
    intro rest fuel stop enough
    have noQuote : 34 ∉ w := fun member => (unspaced 34 member).2 rfl
    exact matchToken_unquoted (unspaced.not_mem (by decide)) noQuote stop enough
  trimmed := trimToken_of_not_mem fun member => (unspaced 34 member).2 rfl

theorem Unspaced.tokenize_cons {w : RStr} (unspaced : Unspaced w) (rest : RStr) :
    tokenize (w ++ 32 :: rest) = tokens w ++ tokenize rest := by
  rcases eq_or_ne w [] with rfl | nonempty
  · exact tokenize_space rest
  · rw [tokenize_append (unspaced.isToken nonempty) (Or.inr ⟨rest, rfl⟩), tokenize_space,
      tokens_of_ne_nil nonempty, List.singleton_append]

theorem Unspaced.tokenize_eq {w : RStr} (unspaced : Unspaced w) : tokenize w = tokens w := by
  rcases eq_or_ne w [] with rfl | nonempty
  · rfl
  · have whole := tokenize_append (unspaced.isToken nonempty) (Or.inl rfl)
    rw [List.append_nil] at whole
    rw [whole, tokens_of_ne_nil nonempty]
    rfl

/-- Words and what comes after them. -/
theorem tokenize_words {ws : List RStr} (unspaced : ∀ w ∈ ws, Unspaced w) (rest : RStr) :
    tokenize (ws.foldr (fun w rest => w ++ 32 :: rest) rest) = ws.flatMap tokens ++
      tokenize rest := by
  induction ws with
  | nil => rfl
  | cons w ws ih =>
      have later := ih fun v member => unspaced v (List.mem_cons_of_mem w member)
      rw [List.foldr_cons, (unspaced w List.mem_cons_self).tokenize_cons, later, List.flatMap_cons,
        List.append_assoc]

/-! ## Lines -/

theorem not_mem_takeWhile_feed (s : RStr) : 10 ∉ s.takeWhile (· ≠ 10) := by
  intro member
  simpa using List.mem_takeWhile_imp member

theorem chomp_eq_self_iff (s : RStr) :
    chomp s = s ↔ s.getLast? ≠ some 10 ∧ s.getLast? ≠ some 13 := by
  rw [List.getLast?_eq_head?_reverse]
  have shorter : ∀ before {rest : RStr}, s.reverse = before ++ rest → before ≠ [] →
    rest.reverse ≠ s := by
    intro before rest shape some same
    rw [← same, List.reverse_reverse] at shape
    exact some (List.self_eq_append_left.mp shape)
  unfold chomp
  split
  · rename_i rest shape
    exact iff_of_false (shorter [10, 13] shape (by simp)) (by simp [shape])
  · rename_i rest _ shape
    exact iff_of_false (shorter [10] shape (by simp)) (by simp [shape])
  · rename_i rest shape
    exact iff_of_false (shorter [13] shape (by simp)) (by simp [shape])
  · rename_i _ noFeed noReturn
    refine iff_of_true rfl ⟨?_, ?_⟩
    · intro feed
      obtain ⟨rest, shape⟩ := List.head?_eq_some_iff.mp feed
      exact noFeed rest shape
    · intro isReturn
      obtain ⟨rest, shape⟩ := List.head?_eq_some_iff.mp isReturn
      exact noReturn rest shape

/-- The first line of a text that is not longer than the data is the data exactly if the
text is the data, one line, and without a carriage return at its end. -/
theorem wireLine_eq_iff {d data : RStr} (short : d.length ≤ data.length) :
    wireLine d = data ↔ d = data ∧ 10 ∉ data ∧ data.getLast? ≠ some 13 := by
  rw [wireLine]
  constructor
  · intro same
    obtain ⟨t, split, _⟩ := chomp_append (d.takeWhile (· ≠ 10))
    have front := List.takeWhile_prefix (p := fun b : UInt8 => decide (b ≠ 10)) (l := d)
    have lengths := congrArg List.length split
    rw [same, List.length_append] at lengths
    have whole : d.takeWhile (· ≠ 10) = d := by
      refine front.eq_of_length (le_antisymm front.length_le ?_)
      omega
    have kept : t = [] := by
      rw [whole] at lengths
      exact List.eq_nil_of_length_eq_zero (by omega)
    rw [kept, List.append_nil, same, whole] at split
    subst split
    rw [whole] at same
    refine ⟨rfl, ?_, ((chomp_eq_self_iff d).mp same).2⟩
    rw [← whole]
    exact not_mem_takeWhile_feed d
  · intro carried
    obtain ⟨rfl, noFeed, noReturn⟩ := carried
    have whole : d.takeWhile (· ≠ 10) = d := by
      refine List.takeWhile_eq_self_iff.mpr ?_
      intro b member
      exact decide_eq_true fun feed => noFeed (feed ▸ member)
    rw [whole, chomp_eq_self_iff]
    exact ⟨fun last => noFeed (List.mem_of_getLast? last), noReturn⟩

/-- A line with a `+` in front of the data. -/
theorem wireLine_plus (d : RStr) :
    ∃ x, wireLine (lit "+" ++ d) = 43 :: x ∧
      ∀ data : RStr, d.length ≤ data.length →
        (x = data ↔ d = data ∧ 10 ∉ data ∧ data.getLast? ≠ some 13) := by
  have shape : lit "+" ++ d = 43 :: d := rfl
  rw [shape]
  obtain ⟨t, split, ends⟩ := chomp_append ((43 :: d).takeWhile (· ≠ 10))
  rw [List.takeWhile_cons_of_pos (by decide)] at split
  cases line : wireLine (43 :: d) with
  | nil =>
      rw [wireLine, List.takeWhile_cons_of_pos (by decide)] at line
      rw [line, List.nil_append] at split
      exact absurd (ends 43 (split ▸ List.mem_cons_self)) (by decide)
  | cons b x =>
      rw [wireLine, List.takeWhile_cons_of_pos (by decide)] at line
      rw [line, List.cons_append] at split
      obtain ⟨rfl, _⟩ := List.cons.inj split
      refine ⟨x, rfl, ?_⟩
      intro data short
      have longer : (43 :: d).length ≤ (43 :: data).length := Nat.succ_le_succ short
      have whole := wireLine_eq_iff longer
      rw [wireLine, List.takeWhile_cons_of_pos (by decide), line] at whole
      have last : (43 :: data).getLast? ≠ some 13 ↔ data.getLast? ≠ some 13 := by
        cases data with
        | nil => decide
        | cons c data => rw [List.getLast?_cons_cons]
      rw [last, List.cons.injEq, List.cons.injEq] at whole
      simpa using whole

theorem not_mem_words {name : RStr} (plain : PlainWord name) {ws : List RStr}
    (unspaced : ∀ w ∈ ws, Unspaced w) {b : UInt8} (space : isSpace b = true) (notBlank : b ≠ 32) :
    b ∉ name ++ 32 :: join (lit " ") ws := by
  intro member
  rcases List.mem_append.mp member with inName | later
  · have stripped := isStripped_of_isPlain (plain.2 b inName)
    rw [isStripped, space, Bool.or_true] at stripped
    cases stripped
  · rcases mem_join ((List.mem_cons.mp later).resolve_left notBlank) with blank | ⟨w, isIn, inWord⟩
    · exact notBlank (by simpa [lit] using blank)
    · exact (unspaced w isIn).not_mem space inWord

/-- The words of a read. -/
theorem wireLine_words {name : RStr} (plain : PlainWord name) {ws : List RStr}
    (unspaced : ∀ w ∈ ws, Unspaced w) :
    wireLine (name ++ 32 :: join (lit " ") ws) = name ++ 32 :: join (lit " ") ws :=
  wireLine_eq_self (not_mem_words plain unspaced (by decide) (by decide))
    (not_mem_words plain unspaced (by decide) (by decide))

theorem blank_mem_words {name : RStr} (plain : PlainWord name) {ws : List RStr}
    (unspaced : ∀ w ∈ ws, Unspaced w) : 32 ∈ wireLine (name ++ 32 :: join (lit " ") ws) := by
  rw [wireLine_words plain unspaced]
  exact List.mem_append_right name List.mem_cons_self

theorem tokenize_join_words {ws : List RStr} (unspaced : ∀ w ∈ ws, Unspaced w) :
    tokenize (join (lit " ") ws) = ws.flatMap tokens := by
  induction ws with
  | nil => rfl
  | cons w ws ih =>
      have first := unspaced w List.mem_cons_self
      have later := ih fun v member => unspaced v (List.mem_cons_of_mem w member)
      cases ws with
      | nil => rw [join_singleton, first.tokenize_eq, List.flatMap_singleton]
      | cons w' ws =>
          rw [join_cons, first.tokenize_cons, later]
          rfl

/-- A name and the text behind it. -/
theorem parse_name {name : RStr} (plain : PlainWord name) (rest : RStr) :
    parseXql (name ++ 32 :: rest) = some ⟨upcase name, tokenize rest⟩ := by
  rw [parseXql, tokenize_append plain.isToken (Or.inr ⟨rest, rfl⟩), tokenize_space]

theorem parse_words {name : RStr} (plain : PlainWord name) {ws : List RStr}
    (unspaced : ∀ w ∈ ws, Unspaced w) :
    parseXql (wireLine (name ++ 32 :: join (lit " ") ws)) =
      some ⟨upcase name, ws.flatMap tokens⟩ := by
  rw [wireLine_words plain unspaced, parse_name plain, tokenize_join_words unspaced]

theorem foldr_words (ws : List RStr) (rest : RStr) :
    ∃ front, ws.foldr (fun w rest => w ++ 32 :: rest) rest = front ++ rest ∧
      ∀ b ∈ front, b = 32 ∨ ∃ w ∈ ws, b ∈ w := by
  induction ws with
  | nil => exact ⟨[], rfl, by simp⟩
  | cons w ws ih =>
      obtain ⟨front, split, inside⟩ := ih
      refine ⟨w ++ 32 :: front, by rw [List.foldr_cons, split]; simp, ?_⟩
      intro b member
      rcases List.mem_append.mp member with inWord | later
      · exact Or.inr ⟨w, List.mem_cons_self, inWord⟩
      · rcases List.mem_cons.mp later with blank | inFront
        · exact Or.inl blank
        · rcases inside b inFront with blank | ⟨v, isIn, inWord⟩
          · exact Or.inl blank
          · exact Or.inr ⟨v, List.mem_cons_of_mem w isIn, inWord⟩

theorem blank_mem_wireLine {w : RStr} (noFeed : 10 ∉ w) (rest : RStr) :
    32 ∈ wireLine (w ++ 32 :: rest) := by
  obtain ⟨rest', line⟩ := wireLine_word noFeed rest
  rw [line]
  exact List.mem_append_right w List.mem_cons_self

/-! ## Numbers -/

theorem strip_natToS (m : Nat) : strip (natToS m) = natToS m := by
  have kept : ∀ b ∈ natToS m, isStripped b = false := by
    intro b member
    have notNul : b ≠ 0 := fun nul => nulFree_natToS m (nul ▸ member)
    rw [isStripped, (isWord_natToS m).2 b member, Bool.or_false]
    exact beq_eq_false_iff_ne.mpr notNul
  exact strip_eq_self (fun b first => kept b (List.mem_of_mem_head? first))
    fun b last => kept b (List.mem_of_mem_getLast? last)

theorem tokens_natToS (m : Nat) : tokens (natToS m) = [natToS m] := by
  rw [tokens_of_ne_nil (natToS_ne_nil m), strip_natToS]

theorem unspaced_natToS (m : Nat) : Unspaced (natToS m) := by
  intro b member
  refine ⟨(isWord_natToS m).2 b member, ?_⟩
  intro same
  obtain rfl := same
  exact absurd (isDigit_of_mem_natToS member) (by decide)

theorem count_natToS (m : Nat) : (natToS m).count 32 = 0 :=
  List.count_eq_zero.mpr fun blank => absurd (isDigit_of_mem_natToS blank) (by decide)

theorem chomp_natToS (n : Nat) : chomp (natToS n) = natToS n := by
  have noFeed : 10 ∉ natToS n := fun feed => absurd (isDigit_of_mem_natToS feed) (by decide)
  have noReturn : 13 ∉ natToS n :=
    fun isReturn => absurd (isDigit_of_mem_natToS isReturn) (by decide)
  have line := wireLine_eq_self noFeed noReturn
  have whole : (natToS n).takeWhile (· ≠ 10) = natToS n := by
    refine List.takeWhile_eq_self_iff.mpr ?_
    intro b member
    exact decide_eq_true fun feed => noFeed (feed ▸ member)
  rwa [wireLine, whole] at line

/-! ## Quotations -/

theorem quoted_of_mem {s : RStr} (closes : 34 ∈ s) : ∃ found, quoted s = some found := by
  induction s with
  | nil => cases closes
  | cons b tail ih =>
      rw [quoted.eq_def]
      dsimp only
      rcases eq_or_ne b 34 with rfl | notQuote
      · exact ⟨_, if_pos rfl⟩
      · obtain ⟨found, plain⟩ := ih ((List.mem_cons.mp closes).resolve_left notQuote.symm)
        rw [if_neg notQuote, plain]
        split
        · split
          · split
            · exact ⟨_, rfl⟩
            · exact ⟨_, rfl⟩
          · exact ⟨_, rfl⟩
        · exact ⟨_, rfl⟩

/-- A quotation mark at the front comes off. -/
theorem trimToken_quote_cons (tail : RStr) : (trimToken (34 :: tail)).length ≤ tail.length := by
  have stripped : strip (34 :: tail) = 34 :: ((tail.reverse).dropWhile isStripped).reverse := by
    rw [strip, List.dropWhile_cons_of_neg (by decide), List.reverse_cons, List.dropWhile_append]
    split
    · rename_i empty
      rw [List.isEmpty_iff.mp empty, List.dropWhile_cons_of_neg (by decide)]
      rfl
    · rw [List.reverse_append]
      rfl
  have shorter : ((tail.reverse).dropWhile isStripped).reverse.length ≤ tail.length := by
    rw [List.length_reverse]
    exact (List.dropWhile_sublist _).length_le.trans List.length_reverse.le
  rw [trimToken, stripped, rchompQuote]
  refine le_trans ?_ shorter
  unfold chompQuote
  split
  · rename_i rest shape
    have lengths := congrArg List.length shape
    rw [List.length_reverse, List.length_cons] at lengths
    rw [List.length_reverse, lengths]
    exact Nat.le_succ _
  · exact le_rfl

/-- The first token of a quotation is made of a match at its front. -/
theorem head_tokenize_quote (data : RStr) :
    ∃ tail left, 34 :: tail ++ left = quote data ∧
      (tokenize (quote data)).head? = some (trimToken (34 :: tail)) := by
  have whole := matchToken_append ((data ++ [34]).length + 1) (quote data)
  obtain ⟨⟨inside, rest⟩, closes⟩ := quoted_of_mem (s := data ++ [34]) (by simp)
  have shape : quote data = 34 :: (data ++ [34]) := rfl
  have matched : matchToken ((data ++ [34]).length + 1) (quote data) =
      (34 :: (inside ++ (matchToken (data ++ [34]).length rest).1),
        (matchToken (data ++ [34]).length rest).2) := by
    rw [shape, matchToken, if_pos rfl, closes]
    rfl
  rw [matched] at whole
  refine ⟨_, _, whole, ?_⟩
  rw [shape] at matched
  rw [shape, tokenize, List.length_cons, scan, matched]
  rfl

/-- The first token of a quotation is not longer than the data. -/
theorem length_head_tokenize_quote {data d : RStr}
    (first : (tokenize (quote data)).head? = some d) :
    d.length ≤ data.length := by
  obtain ⟨tail, left, whole, head⟩ := head_tokenize_quote data
  obtain rfl := Option.some.inj (head.symm.trans first)
  -- the match is the whole quotation, or leaves some of it
  cases left with
  | nil =>
      rw [List.append_nil] at whole
      rw [whole, trimToken_quote]
  | cons b left =>
      have lengths := congrArg List.length whole
      rw [quote, List.length_append, List.length_append, List.length_append, List.length_cons,
        List.length_cons] at lengths
      have ends : (lit "\"").length = 1 := rfl
      have trimmed := trimToken_quote_cons tail
      omega

/-- The client reads the first token of the quotation. -/
theorem plus_iff {data d : RStr} (first : (tokenize (quote data)).head? = some d)
    (oneLine : 10 ∉ data) :
    ∃ x, wireLine (lit "+" ++ d) = 43 :: x ∧
      (x = data ↔ data.getLast? ≠ some 13 ∧ (tokenize (quote data)).head? = some data) := by
  obtain ⟨x, line, same⟩ := wireLine_plus d
  refine ⟨x, line, ?_⟩
  rw [same data (length_head_tokenize_quote first), and_iff_right oneLine, first, Option.some.injEq,
    and_comm]

end XFireDB
