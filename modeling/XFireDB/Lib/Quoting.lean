import Mathlib

/-!
# Literals in quotes

A text of symbols in which a literal stands between quotes, and a quote inside a
literal is doubled.  `lex` reads a text into symbols and literals; `render` writes
them back.  `paste` writes literals between quotes as they are: what it writes
reads back exactly if no literal has a quote in it.
-/

namespace XFireDB.Lib

section Quoting

variable {α : Type} [DecidableEq α] (q : α)

/-- A symbol outside the literals, or a literal. -/
inductive Token (α : Type)
  | symbol (a : α)
  | literal (s : List α)
deriving DecidableEq

/-- Read a literal after its opening quote: its value, and what follows the closing
quote. -/
def lexLiteral : List α → Option (List α × List α)
  | [] => none
  | a :: rest =>
    if a = q then
      match rest with
      | [] => some ([], [])
      | b :: rest =>
        if b = q then (lexLiteral rest).map fun found => (q :: found.1, found.2)
        else some ([], b :: rest)
    else (lexLiteral rest).map fun found => (a :: found.1, found.2)

/-- Read a text; the first argument bounds the number of tokens. -/
def lexFuel : Nat → List α → Option (List (Token α))
  | _, [] => some []
  | 0, _ :: _ => none
  | fuel + 1, a :: rest =>
    if a = q then
      match lexLiteral q rest with
      | none => none
      | some (s, rest) => (lexFuel fuel rest).map (.literal s :: ·)
    else (lexFuel fuel rest).map (.symbol a :: ·)

def lex (s : List α) : Option (List (Token α)) := lexFuel q s.length s

/-- A literal with its quotes doubled. -/
def doubled (s : List α) : List α := s.flatMap fun a => if a = q then [q, q] else [a]

/-- The text of a token. -/
def Token.render : Token α → List α
  | .symbol a => [a]
  | .literal s => q :: doubled q s ++ [q]

/-- The text of a token whose literal is pasted in. -/
def Token.paste : Token α → List α
  | .symbol a => [a]
  | .literal s => q :: s ++ [q]

/-- Tokens that can be told apart: a symbol is no quote, and no literal follows
another. -/
def Separate : List (Token α) → Prop
  | [] => True
  | .symbol a :: rest => a ≠ q ∧ Separate rest
  | .literal _ :: rest => (∀ s, rest.head? ≠ some (.literal s)) ∧ Separate rest

/-- No literal has a quote in it. -/
def QuoteFree (tokens : List (Token α)) : Prop := ∀ s, .literal s ∈ tokens → q ∉ s

variable {q}

/-- A literal is read from its text. -/
theorem eq_of_lexLiteral {s value rest : List α} (read : lexLiteral q s = some (value, rest)) :
    s = doubled q value ++ q :: rest := by
  fun_induction lexLiteral q s generalizing value rest with
  | case1 => cases read
  | case2 =>
      obtain ⟨rfl, rfl⟩ := Prod.mk.inj (Option.some.inj read)
      rfl
  | case3 tail ih =>
      obtain ⟨found, inner, same⟩ := Option.map_eq_some_iff.mp read
      obtain ⟨rfl, rfl⟩ := Prod.mk.inj same
      rw [doubled, List.flatMap_cons, if_pos rfl, List.append_assoc]
      exact congrArg (q :: q :: ·) (ih inner)
  | case4 b tail other =>
      obtain ⟨rfl, rfl⟩ := Prod.mk.inj (Option.some.inj read)
      rfl
  | case5 a tail other ih =>
      obtain ⟨found, inner, same⟩ := Option.map_eq_some_iff.mp read
      obtain ⟨rfl, rfl⟩ := Prod.mk.inj same
      rw [doubled, List.flatMap_cons, if_neg other, List.append_assoc]
      exact congrArg (a :: ·) (ih inner)

theorem lexLiteral_doubled (value : List α) {rest : List α} (apart : rest.head? ≠ some q) :
    lexLiteral q (doubled q value ++ q :: rest) = some (value, rest) := by
  induction value with
  | nil =>
      cases rest with
      | nil => simp [doubled, lexLiteral]
      | cons b rest =>
          have other : b ≠ q := by simpa using apart
          simp [doubled, lexLiteral, other]
  | cons a value ih =>
      rw [doubled, List.flatMap_cons]
      by_cases quote : a = q
      · subst quote
        rw [if_pos rfl]
        simp only [List.cons_append, List.nil_append, lexLiteral, if_true]
        rw [show value.flatMap _ = doubled a value from rfl, ih]
        rfl
      · rw [if_neg quote]
        rw [List.append_assoc, List.singleton_append, lexLiteral.eq_def]
        simp only [if_neg quote]
        rw [show value.flatMap _ = doubled q value from rfl, ih]
        rfl

/-- What is read determines the text. -/
theorem render_of_lexFuel {fuel : Nat} {s : List α} {tokens : List (Token α)}
    (read : lexFuel q fuel s = some tokens) : tokens.flatMap (Token.render q) = s := by
  fun_induction lexFuel q fuel s generalizing tokens with
  | case1 =>
      obtain rfl := Option.some.inj read
      rfl
  | case2 => cases read
  | case3 => cases read
  | case4 fuel tail value rest literal ih =>
      obtain ⟨later, inner, rfl⟩ := Option.map_eq_some_iff.mp read
      rw [List.flatMap_cons, ih inner, Token.render, eq_of_lexLiteral literal]
      simp
  | case5 fuel a rest other ih =>
      obtain ⟨later, inner, rfl⟩ := Option.map_eq_some_iff.mp read
      rw [List.flatMap_cons, ih inner]
      rfl

theorem head_ne_quote {tokens : List (Token α)} (separate : Separate q tokens)
    (noLiteral : ∀ s, tokens.head? ≠ some (.literal s)) :
    (tokens.flatMap (Token.render q)).head? ≠ some q := by
  cases tokens with
  | nil => simp
  | cons t rest =>
      cases t with
      | literal s => exact absurd rfl (noLiteral s)
      | symbol a =>
          intro same
          exact separate.1 (Option.some.inj same)

/-- Separate tokens are read back from their text. -/
theorem lexFuel_render {tokens : List (Token α)} (separate : Separate q tokens) {fuel : Nat}
    (enough : (tokens.flatMap (Token.render q)).length ≤ fuel) :
    lexFuel q fuel (tokens.flatMap (Token.render q)) = some tokens := by
  induction tokens generalizing fuel with
  | nil => simp [lexFuel]
  | cons t rest ih =>
      cases t with
      | symbol a =>
          rw [List.flatMap_cons, Token.render, List.singleton_append] at *
          rw [List.length_cons] at enough
          obtain ⟨fuel, rfl⟩ : ∃ m, fuel = m + 1 := ⟨fuel - 1, by omega⟩
          rw [lexFuel, if_neg separate.1, ih separate.2 (by omega)]
          rfl
      | literal s =>
          have text : (Token.literal s :: rest).flatMap (Token.render q) =
              q :: (doubled q s ++ q :: rest.flatMap (Token.render q)) := by
            rw [List.flatMap_cons, Token.render]
            simp
          rw [text] at enough ⊢
          rw [List.length_cons, List.length_append, List.length_cons] at enough
          obtain ⟨fuel, rfl⟩ : ∃ m, fuel = m + 1 := ⟨fuel - 1, by omega⟩
          rw [lexFuel, if_pos rfl, lexLiteral_doubled s (head_ne_quote separate.2 separate.1)]
          simp only
          rw [ih separate.2 (by omega)]
          rfl

theorem length_doubled (s : List α) : (doubled q s).length = s.length + s.count q := by
  induction s with
  | nil => rfl
  | cons a s ih =>
      have rest : doubled q (a :: s) = (if a = q then [q, q] else [a]) ++ doubled q s := rfl
      rw [rest, List.length_append, ih, List.length_cons, List.count_cons]
      by_cases quote : a = q
      · simp only [quote, if_true, List.length_cons, List.length_nil, beq_self_eq_true]
        omega
      · have other : (a == q) = false := by simpa using quote
        simp only [quote, if_false, List.length_cons, List.length_nil, other, Bool.false_eq_true]
        omega

theorem doubled_eq_self {s : List α} (free : q ∉ s) : doubled q s = s := by
  induction s with
  | nil => rfl
  | cons a s ih =>
      have rest : doubled q (a :: s) = (if a = q then [q, q] else [a]) ++ doubled q s := rfl
      have other : a ≠ q := by
        intro same
        obtain rfl := same
        exact free List.mem_cons_self
      rw [rest, if_neg other, ih fun later => free (List.mem_cons_of_mem a later)]
      rfl

/-- Pasting shortens the text by the quotes that are not doubled. -/
theorem length_render (tokens : List (Token α)) :
    (tokens.flatMap (Token.paste q)).length ≤ (tokens.flatMap (Token.render q)).length ∧
      ((tokens.flatMap (Token.paste q)).length = (tokens.flatMap (Token.render q)).length →
        QuoteFree q tokens) := by
  induction tokens with
  | nil => exact ⟨le_rfl, fun _ _ member => absurd member List.not_mem_nil⟩
  | cons t rest ih =>
      obtain ⟨le, free⟩ := ih
      rw [List.flatMap_cons, List.flatMap_cons, List.length_append, List.length_append]
      cases t with
      | symbol a =>
          refine ⟨by simpa [Token.paste, Token.render] using le, ?_⟩
          intro same s member
          refine free (by simpa [Token.paste, Token.render] using same) s ?_
          simpa using member
      | literal s =>
          have longer : ((Token.literal s).render q).length =
              ((Token.literal s).paste q).length + s.count q := by
            simp only [Token.render, Token.paste, List.length_append, List.length_cons,
              length_doubled]
            omega
          refine ⟨by omega, ?_⟩
          intro same s' member
          rcases List.mem_cons.mp member with here | later
          · obtain rfl := Token.literal.inj here
            exact List.count_eq_zero.mp (by omega)
          · exact free (by omega) s' later

theorem paste_eq_render {tokens : List (Token α)} (free : QuoteFree q tokens) :
    tokens.flatMap (Token.paste q) = tokens.flatMap (Token.render q) := by
  refine List.flatMap_congr ?_
  intro t member
  cases t with
  | symbol a => rfl
  | literal s => rw [Token.paste, Token.render, doubled_eq_self (free s member)]

/-- Pasted literals are read back exactly if they have no quotes. -/
theorem lex_paste_iff {tokens : List (Token α)} (separate : Separate q tokens) :
    lex q (tokens.flatMap (Token.paste q)) = some tokens ↔ QuoteFree q tokens := by
  constructor
  · intro read
    have text := render_of_lexFuel read
    exact (length_render tokens).2 (congrArg List.length text.symm)
  · intro free
    rw [paste_eq_render free]
    exact lexFuel_render separate le_rfl

end Quoting

end XFireDB.Lib
