import XFireDB.RequestRuns

/-!
# Ranges of LREF and LPOP

LREF walks the positions of a range over a list that stays; LPOP pops the first position of
the range again and again.  The two show the same, and LPOP removes it, as long as the range
starts in the list.
-/

namespace XFireDB

open Lib Node Command

/-! ## The text of a range -/

/-- `a..b`. -/
def rangeText (a b : Int) : RStr := intToS a ++ lit ".." ++ intToS b

theorem isI_intToS (a : Int) : isI (intToS a) = true := by
  cases a with
  | ofNat n => exact isI_natToS n
  | negSucc n =>
      have digits := isI_natToS (n + 1)
      rw [isI, (unsigned_natToS (n + 1)).1] at digits
      exact digits

theorem toI_intToS (a : Int) : toI (intToS a) = a := by
  cases a with
  | ofNat n => exact toI_natToS n
  | negSucc n =>
      have value : toI (intToS (.negSucc n)) =
          -(natToS (n + 1)).foldl (fun acc b => 10 * acc + ((b.toNat : Int) - 48)) 0 := rfl
      rw [value, foldl_natToS]
      rfl

theorem dot_not_mem_intToS (a : Int) : 46 ∉ intToS a := by
  have digits : ∀ n, (46 : UInt8) ∉ natToS n := by
    intro n member
    cases isDigit_of_mem_natToS member
  cases a with
  | ofNat n => exact digits n
  | negSucc n =>
      intro member
      rcases List.mem_cons.mp member with sign | digit
      · cases sign
      · exact digits (n + 1) digit

theorem splitDotsFrom_of_not_mem {s : RStr} (plain : 46 ∉ s) (cur : RStr) :
    splitDotsFrom cur s = [cur.reverse ++ s] := by
  induction s generalizing cur with
  | nil => rw [splitDotsFrom, List.append_nil]
  | cons b s ih =>
      rw [List.mem_cons, not_or] at plain
      have step : splitDotsFrom cur (b :: s) = splitDotsFrom (b :: cur) s := by
        rw [splitDotsFrom]
        intro rest dot
        exact absurd dot.symm plain.1
      rw [step, ih plain.2]
      simp

theorem splitDotsFrom_dots {s : RStr} (plain : 46 ∉ s) (cur rest : RStr) :
    splitDotsFrom cur (s ++ 46 :: 46 :: rest) = (cur.reverse ++ s) :: splitDotsFrom [] rest := by
  induction s generalizing cur with
  | nil => rw [List.nil_append, splitDotsFrom, List.append_nil]
  | cons b s ih =>
      rw [List.mem_cons, not_or] at plain
      have step : splitDotsFrom cur (b :: (s ++ 46 :: 46 :: rest)) =
          splitDotsFrom (b :: cur) (s ++ 46 :: 46 :: rest) := by
        rw [splitDotsFrom]
        intro rest' dot
        exact absurd dot.symm plain.1
      rw [List.cons_append, step, ih plain.2]
      simp

theorem intToS_ne_nil (a : Int) : intToS a ≠ [] := by
  cases a with
  | ofNat n => exact natToS_ne_nil n
  | negSucc n => exact List.cons_ne_nil _ _

theorem rangeOf_rangeText (a b : Int) : rangeOf (rangeText a b) = .ok (some (a, b)) := by
  have pieces : splitDots (rangeText a b) = [intToS a, intToS b] := by
    have dots : rangeText a b = intToS a ++ 46 :: 46 :: intToS b := by
      rw [rangeText, List.append_assoc]
      rfl
    rw [splitDots, dots, splitDotsFrom_dots (dot_not_mem_intToS a),
      splitDotsFrom_of_not_mem (dot_not_mem_intToS b)]
    simp [intToS_ne_nil]
  rw [rangeOf, pieces]
  dsimp only
  rw [isI_intToS, isI_intToS, toI_intToS, toI_intToS]
  rfl

theorem mem_unsigned {s : RStr} {b : UInt8} (member : b ∈ s) (noPlus : b ≠ 43) (noMinus : b ≠ 45) :
    b ∈ unsigned s := by
  unfold unsigned
  split
  · exact (List.mem_cons.mp member).resolve_left noPlus
  · exact (List.mem_cons.mp member).resolve_left noMinus
  · exact member

theorem isI_rangeText (a b : Int) : isI (rangeText a b) = false := by
  have dot : 46 ∈ unsigned (rangeText a b) := by
    refine mem_unsigned ?_ (by decide) (by decide)
    exact List.mem_append_left _ (List.mem_append_right _ List.mem_cons_self)
  rw [isI, Bool.and_eq_false_iff]
  right
  rw [List.all_eq_false]
  exact ⟨46, dot, by decide⟩

/-! ## The two loops -/

namespace KeyEffect

/-- What a range shows of a position. -/
def shownAt (elems : List CStr) (i : Int) : RStr :=
  match listRef elems i with
  | some (_, data) => lit "+" ++ data.toR
  | none => lit "-nil"

theorem shownAt_natCast (elems : List CStr) (i : Nat) :
    shownAt elems i = (elems[i]?.map fun data => lit "+" ++ data.toR).getD (lit "-nil") := by
  rw [shownAt, listRef, if_pos (Int.natCast_nonneg i), Int.toNat_natCast]
  cases elems[i]? <;> rfl

theorem shownAt_of_neg {i : Int} (negative : i < 0) (elems : List CStr) :
    shownAt elems i = lit "-nil" := by
  rw [shownAt, listRef, if_neg (not_le.mpr negative)]

theorem map_range_succ {α : Type} (f : Nat → α) (count : Nat) :
    (List.range (count + 1)).map f = f 0 :: (List.range count).map fun i => f (i + 1) := by
  rw [List.range_succ_eq_map, List.map_cons, List.map_map]
  rfl

/-- LREF shows every position, if all of them are `int`s. -/
theorem refRange_eq {elems : List CStr} {pos : Int} {count : Nat} (low : -2 ^ 31 ≤ pos)
    (high : pos + count ≤ 2 ^ 31) :
    refRange elems pos count =
      .ok ((List.range count).map fun i : Nat => shownAt elems (pos + i)) := by
  induction count generalizing pos with
  | zero => rfl
  | succ count ih =>
      have inRange : num2int pos = .ok pos := if_pos ⟨low, by omega⟩
      rw [refRange, inRange]
      dsimp only
      rw [ih (by omega) (by omega), map_range_succ, Nat.cast_zero, add_zero]
      simp only [Nat.cast_add_one, add_comm (_ : Int) 1, ← add_assoc]
      rfl

/-- A position that is no `int` raises. -/
theorem refRange_outside {elems : List CStr} {pos : Int} {count : Nat} (some : 0 < count)
    (outside : pos < -2 ^ 31 ∨ 2 ^ 31 < pos + count) :
    refRange elems pos count = .error .rangeError := by
  induction count generalizing pos with
  | zero => exact absurd some (Nat.lt_irrefl 0)
  | succ count ih =>
      rw [refRange]
      rcases num2int_bounds pos with ⟨inside, inRange⟩ | ⟨_, raised⟩
      · rw [inRange]
        dsimp only
        rw [ih (by omega) (by omega)]
        rfl
      · rw [raised]

/-- Before the list there is nothing to pop. -/
theorem popRange_of_neg {pos : Int} (negative : pos < 0) (elems : List CStr) (count : Nat) :
    popRange elems pos count = (List.replicate count (lit "-nil"), elems) := by
  have missing : listRef elems pos = none := if_neg (not_le.mpr negative)
  induction count with
  | zero => rfl
  | succ count ih =>
      rw [popRange, missing]
      dsimp only
      rw [ih]
      rfl

theorem popRange_past {elems : List CStr} {pos : Nat} (past : elems.length ≤ pos) (count : Nat) :
    popRange elems pos count = (List.replicate count (lit "-nil"), elems) := by
  have missing : listRef elems pos = none := by
    rw [listRef, if_pos (Int.natCast_nonneg pos), Int.toNat_natCast, List.getElem?_eq_none past]
    rfl
  induction count with
  | zero => rfl
  | succ count ih =>
      rw [popRange, missing]
      dsimp only
      rw [ih]
      rfl

theorem shownAt_past {elems : List CStr} {i : Nat} (past : elems.length ≤ i) :
    shownAt elems i = lit "-nil" := by
  rw [shownAt_natCast, List.getElem?_eq_none past]
  rfl

/-- Popping one position again and again takes out the range that starts there. -/
theorem popRange_append (before elems : List CStr) (count : Nat) :
    popRange (before ++ elems) before.length count =
      ((List.range count).map fun i : Nat => shownAt elems i, before ++ elems.drop count) := by
  induction count generalizing elems with
  | zero => rfl
  | succ count ih =>
      cases elems with
      | nil =>
          have past : (before ++ []).length ≤ before.length := by simp
          have none : ∀ i : Nat, shownAt [] i = lit "-nil" := fun i => shownAt_past (Nat.zero_le i)
          rw [popRange_past past, List.drop_nil]
          simp only [none, List.map_const', List.length_range]
      | cons data elems =>
          have found : listRef (before ++ data :: elems) before.length =
              some (before.length, data) := by
            rw [listRef, if_pos (Int.natCast_nonneg _), Int.toNat_natCast,
              List.getElem?_append_right le_rfl, Nat.sub_self]
            rfl
          have rest : (before ++ data :: elems).eraseIdx before.length = before ++ elems := by
            rw [List.eraseIdx_append_of_length_le le_rfl, Nat.sub_self, List.eraseIdx_cons_zero]
          have later : ∀ i : Nat, shownAt (data :: elems) ((i + 1 : Nat) : Int) =
            shownAt elems i := by
            intro i
            rw [shownAt_natCast, shownAt_natCast, List.getElem?_cons_succ]
          rw [popRange, found]
          dsimp only
          rw [rest, ih, map_range_succ, List.drop_succ_cons]
          simp only [later]
          rfl

theorem popRange_natCast (elems : List CStr) (pos count : Nat) :
    popRange elems pos count =
      ((List.range count).map fun i : Nat => shownAt elems (pos + i),
        elems.take pos ++ elems.drop (pos + count)) := by
  rcases Nat.le_total pos elems.length with inside | past
  · have popped := popRange_append (elems.take pos) (elems.drop pos) count
    have shifted : ∀ i : Nat, shownAt (elems.drop pos) i = shownAt elems (pos + i) := by
      intro i
      rw [← Nat.cast_add, shownAt_natCast, shownAt_natCast, List.getElem?_drop]
    rw [List.take_append_drop, List.length_take_of_le inside, List.drop_drop] at popped
    simp only [shifted] at popped
    exact popped
  · have none : ∀ i : Nat, shownAt elems (pos + i) = lit "-nil" := by
      intro i
      rw [← Nat.cast_add, shownAt_past (by omega)]
    rw [popRange_past past, List.take_of_length_le past, List.drop_of_length_le (by omega),
      List.append_nil]
    simp only [none, List.map_const', List.length_range]

/-! ## The two commands -/

/-- The entries at the positions that a range does not show. -/
def notShown (elems : List CStr) (low high : Int) : List CStr :=
  (elems.zipIdx.filter fun entry => ¬ (low ≤ (entry.2 : Int) ∧ (entry.2 : Int) ≤ high)).map Prod.fst

theorem notShown_of_none {elems : List CStr} {low high : Int}
    (none : ∀ i : Nat, i < elems.length → ¬ (low ≤ (i : Int) ∧ (i : Int) ≤ high)) :
    notShown elems low high = elems := by
  rw [notShown, List.filter_eq_self.mpr, List.zipIdx_map_fst]
  intro entry member
  have below := List.snd_lt_of_mem_zipIdx member
  rw [Nat.add_zero] at below
  exact decide_eq_true (none entry.2 below)

theorem filter_zipIdx_outside (l : List CStr) (start p c : Nat) :
    ((l.zipIdx start).filter fun entry =>
      ¬ ((p : Int) ≤ (entry.2 : Int) ∧ (entry.2 : Int) ≤ p + c - 1)).map Prod.fst =
      l.take (p - start) ++ l.drop (p + c - start) := by
  induction l generalizing start with
  | nil => simp
  | cons x l ih =>
      have later := ih (start + 1)
      rw [List.zipIdx_cons]
      by_cases shown : p ≤ start ∧ start < p + c
      · have dropped : ¬ decide (¬ ((p : Int) ≤ (start : Int) ∧ (start : Int) ≤ p + c - 1)) =
          true := by
          rw [decide_eq_true_iff, not_not]
          omega
        rw [List.filter_cons, if_neg dropped, later, show p - start = 0 by omega,
          show p - (start + 1) = 0 by omega,
          show p + c - start = (p + c - (start + 1)) + 1 by omega,
          List.drop_succ_cons, List.take_zero, List.take_zero]
      · have kept : decide (¬ ((p : Int) ≤ (start : Int) ∧ (start : Int) ≤ p + c - 1)) = true := by
          rw [decide_eq_true_iff]
          omega
        rw [List.filter_cons, if_pos kept, List.map_cons, later]
        rcases Nat.lt_or_ge start p with before | after
        · rw [show p - start = (p - (start + 1)) + 1 by omega,
            show p + c - start = (p + c - (start + 1)) + 1 by omega, List.take_succ_cons,
            List.drop_succ_cons]
          rfl
        · rw [show p - start = 0 by omega, show p - (start + 1) = 0 by omega,
            show p + c - start = 0 by omega, show p + c - (start + 1) = 0 by omega]
          rfl

/-- A range that starts in the list cuts it in two. -/
theorem notShown_natCast (elems : List CStr) (pos count : Nat) :
    notShown elems pos (pos + count - 1) = elems.take pos ++ elems.drop (pos + count) :=
  filter_zipIdx_outside elems 0 pos count

/-- LPOP pops what LREF shows where the range starts in the list or shows nothing of it. -/
theorem popRange_of_shown {elems : List CStr} {low high : Int} (range : low ≤ high)
    (shown : 0 ≤ low ∨ high < 0 ∨ elems = []) :
    popRange elems low (high - low + 1).toNat =
      ((List.range (high - low + 1).toNat).map fun i : Nat => shownAt elems (low + i),
        notShown elems low high) := by
  rcases Int.lt_or_le low 0 with negative | nonneg
  · have hidden := shown.resolve_left (not_le.mpr negative)
    have none : ∀ i : Nat, i < elems.length → ¬ (low ≤ (i : Int) ∧ (i : Int) ≤ high) := by
      intro i below
      rcases hidden with before | rfl
      · omega
      · exact absurd below (Nat.not_lt_zero i)
    have words : ∀ i ∈ List.range (high - low + 1).toNat,
        shownAt elems (low + (i : Nat)) = lit "-nil" := by
      intro i member
      have small := List.mem_range.mp member
      rcases hidden with before | rfl
      · exact shownAt_of_neg (by omega) elems
      · rw [shownAt, listRef]
        simp
    rw [popRange_of_neg negative, notShown_of_none none, List.map_congr_left words,
      List.map_const', List.length_range]
  · obtain ⟨pos, rfl⟩ := Int.eq_ofNat_of_zero_le nonneg
    have whole : high = pos + (high - pos + 1).toNat - 1 := by omega
    rw [popRange_natCast, ← notShown_natCast, ← whole]

/-- A range that starts before the list and reaches into it shows an entry, and pops none. -/
theorem shown_of_popRange {elems : List CStr} {low high : Int}
    (same : (popRange elems low (high - low + 1).toNat).1 =
      (List.range (high - low + 1).toNat).map fun i : Nat => shownAt elems (low + i)) :
    0 ≤ low ∨ high < 0 ∨ elems = [] := by
  by_contra visible
  rw [not_or, not_or, not_le, not_lt] at visible
  obtain ⟨negative, reaches, nonempty⟩ := visible
  obtain ⟨x, rest, rfl⟩ := List.exists_cons_of_ne_nil nonempty
  have member : shownAt (x :: rest) 0 ∈
      (List.range (high - low + 1).toNat).map fun i : Nat => shownAt (x :: rest) (low + i) := by
    refine List.mem_map.mpr ⟨(-low).toNat, List.mem_range.mpr (by omega), ?_⟩
    rw [show low + ((-low).toNat : Int) = 0 by omega]
  have entry : shownAt (x :: rest) 0 = lit "+" ++ x.toR := rfl
  rw [← same, popRange_of_neg negative, entry] at member
  have clash := List.eq_of_mem_replicate member
  cases (List.cons.inj clash).1

/-- What the two commands do with a range of a list. -/
theorem range_cases (elems : List CStr) (idx : RStr) (a b : Int) :
    (counted elems b < counted elems a ∧
      lRefRange (some (.container (.list elems))) idx a b =
        replies (some (.container (.list elems))) (.text (lit "-LREF range invalid: " ++ idx)) ∧
      lPopRange (some (.container (.list elems))) idx a b =
        replies (some (.container (.list elems))) (.text (lit "-LPOP range invalid: " ++ idx))) ∨
    (counted elems a ≤ counted elems b ∧
      (counted elems a < -2 ^ 31 ∨ 2 ^ 31 ≤ counted elems b) ∧
      lRefRange (some (.container (.list elems))) idx a b =
        raises (some (.container (.list elems))) .rangeError) ∨
    (counted elems a ≤ counted elems b ∧ -2 ^ 31 ≤ counted elems a ∧ counted elems b < 2 ^ 31 ∧
      lRefRange (some (.container (.list elems))) idx a b =
        replies (some (.container (.list elems)))
          (.lines ((List.range (counted elems b - counted elems a + 1).toNat).map fun i : Nat =>
            shownAt elems (counted elems a + i))) ∧
      lPopRange (some (.container (.list elems))) idx a b =
        let popped := popRange elems (counted elems a)
          (counted elems b - counted elems a + 1).toNat
        leaves (.list popped.2) (.lines popped.1)) := by
  have isList : Stored.asList (some (.container (.list elems))) = some elems := rfl
  rw [lRefRange, lPopRange, isList]
  dsimp only
  generalize counted elems a = low
  generalize counted elems b = high
  rcases Int.lt_or_le high low with empty | range
  · rw [if_neg (not_le.mpr empty), if_neg (not_le.mpr empty)]
    exact Or.inl ⟨empty, rfl, rfl⟩
  · rw [if_pos range, if_pos range]
    right
    have last : low + ((high - low + 1).toNat : Int) = high + 1 := by omega
    by_cases inside : -2 ^ 31 ≤ low ∧ high < 2 ^ 31
    · right
      have first : num2int low = .ok low := if_pos ⟨inside.1, by omega⟩
      rw [refRange_eq inside.1 (by omega), first]
      exact ⟨range, inside.1, inside.2, rfl, rfl⟩
    · left
      have outside : low < -2 ^ 31 ∨ 2 ^ 31 ≤ high := by omega
      rw [refRange_outside (by omega) (by omega)]
      exact ⟨range, outside, rfl⟩

theorem leaves_list (elems : List CStr) (r : Reply) :
    leaves (.list elems) r = some (.ok r,
      ⟨if 0 < int32 elems.length then some (.container (.list elems)) else none,
        if 0 < int32 elems.length then none else some false⟩) := by
  rw [leaves, Container.reported]
  by_cases kept : 0 < int32 elems.length
  · rw [if_pos kept, if_pos kept, if_pos kept]
    rfl
  · rw [if_neg kept, if_neg kept, if_neg kept]
    rfl

/-- The list stays exactly if it should. -/
theorem kept_iff (left : List CStr) :
    ((if 0 < int32 left.length then some (.container (.list left)) else none : Option Stored) =
      if left = [] then none else some (.container (.list left))) ↔
      left = [] ∨ 0 < int32 left.length := by
  by_cases empty : left = []
  · rw [empty]
    exact iff_of_true rfl (Or.inl rfl)
  · rw [if_neg empty, or_iff_right empty]
    split
    · rename_i kept
      exact iff_of_true rfl kept
    · rename_i gone
      exact iff_of_false (Option.some_ne_none _).symm gone

variable (v : Option Stored) (a b : Int)

theorem lRef_rangeText : lRef v [rangeText a b] = lRefRange v (rangeText a b) a b := by
  rw [lRef, isI_rangeText, if_neg Bool.false_ne_true, rangeOf_rangeText]

theorem lPop_rangeText : lPop v [rangeText a b] = lPopRange v (rangeText a b) a b := by
  rw [lPop, isI_rangeText, if_neg Bool.false_ne_true, rangeOf_rangeText]

end KeyEffect

open KeyEffect

/-! ## On a node -/

/-- On a node whose key holds the list, LPOP of a range does what LREF of the range shows:
where that is an array, the reply is the same and the other entries stay; where it is a range
error, so is the reply, and the list stays. -/
structure Node.PopsShown (n : Node) (k : CStr) (elems : List CStr) (a b : Int) : Prop where
  array : ∀ rv n', (Cmd.exec .lRef [k.toR, rangeText a b]).run Node.call n =
      some (.ok (.lines rv), n') →
    ∃ n'', (Cmd.exec .lPop [k.toR, rangeText a b]).run Node.call n = some (.ok (.lines rv), n'') ∧
      n''.content k =
        let left := notShown elems (counted elems a) (counted elems b)
        if left = [] then none else some (.container (.list left))
  refused : ∀ n', (Cmd.exec .lRef [k.toR, rangeText a b]).run Node.call n =
      some (.ok (.text (lit "-LREF range invalid: " ++ rangeText a b)), n') →
    ∃ n'', (Cmd.exec .lPop [k.toR, rangeText a b]).run Node.call n =
        some (.ok (.text (lit "-LPOP range invalid: " ++ rangeText a b)), n'') ∧
      n''.content k = some (.container (.list elems))

/-- The range starts in the list, or shows nothing of it. -/
def Node.StartsInside (elems : List CStr) (a b : Int) : Prop :=
  0 ≤ counted elems a ∨ counted elems b < 0 ∨ elems = []

/-- The entries outside of the range are none, or their number is a positive `int`. -/
def Node.FewLeft (elems : List CStr) (a b : Int) : Prop :=
  notShown elems (counted elems a) (counted elems b) = [] ∨
    0 < int32 (notShown elems (counted elems a) (counted elems b)).length

/-- LPOP does what LREF shows exactly if the range is empty, or leaves the `int`s, so that LREF
raises, or starts in the list or shows nothing of it and does not leave more entries than the
list can count. -/
theorem popsShown_iff {n : Node} {k : CStr} {elems : List CStr} (proper : n.Proper)
    (owned : n.shard.includes k.toR = .ok true)
    (stored : n.content k = some (.container (.list elems))) (a b : Int) :
    n.PopsShown k elems a b ↔
      counted elems b < counted elems a ∨
      (counted elems a < -2 ^ 31 ∨ 2 ^ 31 ≤ counted elems b) ∨
      (StartsInside elems a b ∧ FewLeft elems a b) := by
  have shows : Cmd.effect collides (n.content k) [rangeText a b] .lRef =
      lRefRange (some (.container (.list elems))) (rangeText a b) a b := by
    rw [← lRef_rangeText, ← stored]
    rfl
  have takes : Cmd.effect collides (n.content k) [rangeText a b] .lPop =
      lPopRange (some (.container (.list elems))) (rangeText a b) a b := by
    rw [← lPop_rangeText, ← stored]
    rfl
  rcases range_cases elems (rangeText a b) a b with
    ⟨empty, shown, popped⟩ | ⟨range, outside, raised⟩ | ⟨range, low, high, shown, popped⟩
  · refine iff_of_true ⟨?_, ?_⟩ (Or.inl empty)
    · intro rv n' ran
      obtain ⟨after, effect, -⟩ := proper.effect_of_run owned ran
      cases (shows.trans shown).symm.trans effect
    · intro n' _
      obtain ⟨n'', ran, leaves, -⟩ := proper.run_of_effect owned (takes.trans popped)
      exact ⟨n'', ran, leaves.here⟩
  · refine iff_of_true ⟨?_, ?_⟩ (Or.inr (Or.inl outside))
    · intro rv n' ran
      obtain ⟨after, effect, -⟩ := proper.effect_of_run owned ran
      cases (shows.trans raised).symm.trans effect
    · intro n' ran
      obtain ⟨after, effect, -⟩ := proper.effect_of_run owned ran
      cases (shows.trans raised).symm.trans effect
  · have ints : ¬ (counted elems a < -2 ^ 31 ∨ 2 ^ 31 ≤ counted elems b) := by omega
    rw [or_iff_right (not_lt.mpr range), or_iff_right ints]
    rw [leaves_list] at popped
    constructor
    · intro pops
      obtain ⟨n', read, -, -⟩ := proper.run_of_effect owned (shows.trans shown)
      obtain ⟨n'', ran, left⟩ := pops.array _ n' read
      obtain ⟨after, effect, leaves, -⟩ := proper.effect_of_run owned ran
      have effects := (takes.trans popped).symm.trans effect
      have reply := congrArg (Option.map Prod.fst) effects
      simp only [Option.map_some, Option.some.injEq, Except.ok.injEq, Reply.lines.injEq] at reply
      have starts := shown_of_popRange reply
      refine ⟨starts, ?_⟩
      have value := congrArg (Option.map fun out => out.2.value) effects
      rw [popRange_of_shown range starts] at value
      simp only [Option.map_some, Option.some.injEq] at value
      exact (kept_iff _).mp (value.trans (leaves.here.symm.trans left))
    · intro cond
      obtain ⟨starts, few⟩ := cond
      rw [popRange_of_shown range starts] at popped
      refine ⟨?_, ?_⟩
      · intro rv n' ran
        obtain ⟨after, effect, -⟩ := proper.effect_of_run owned ran
        cases (shows.trans shown).symm.trans effect
        obtain ⟨n'', ran, leaves, -⟩ := proper.run_of_effect owned (takes.trans popped)
        exact ⟨n'', ran, leaves.here.trans ((kept_iff _).mpr few)⟩
      · intro n' ran
        obtain ⟨after, effect, -⟩ := proper.effect_of_run owned ran
        cases (shows.trans shown).symm.trans effect

theorem nulFree_a : 0 ∉ lit "a" := by decide

/-- After `LPUSH k a` the range `0..0` is popped as it is shown. -/
theorem popsShown_first :
    ∃ n, (Cmd.exec .lPush [keyK.toR, lit "a"]).run Node.call nodeOfK =
        some (.ok (text "-OK"), n) ∧
      n.PopsShown keyK [⟨lit "a", nulFree_a⟩] 0 0 := by
  have owned : nodeOfK.shard.includes keyK.toR = .ok true := by decide +kernel
  have effect : Cmd.effect collides (nodeOfK.content keyK) [lit "a"] .lPush =
      some (.ok (text "-OK"), ⟨some (.container (.list [⟨lit "a", nulFree_a⟩])), some true⟩) := rfl
  obtain ⟨n, ran, leaves, proper⟩ := (Node.proper_empty shardOfK 0).run_of_effect owned effect
  have owned' : n.shard.includes keyK.toR = .ok true := (leaves.includes keyK.toR).trans owned
  exact ⟨n, ran, (popsShown_iff proper owned' leaves.here 0 0).mpr
    (Or.inr (Or.inr ⟨Or.inl (by decide), Or.inl (by decide)⟩))⟩

/-- After `LPUSH k a` the range `-2..0` shows nothing and then the entry; LPOP shows nothing
twice. -/
theorem lPop_before_list :
    ∃ n n' n'', nodeOfK.serve ⟨.lPush, [lit "k", lit "a"]⟩ = some n ∧
      (Cmd.exec .lRef [keyK.toR, rangeText (-2) 0]).run Node.call n =
        some (.ok (.lines [lit "-nil", lit "+a"]), n') ∧
      (Cmd.exec .lPop [keyK.toR, rangeText (-2) 0]).run Node.call n =
        some (.ok (.lines [lit "-nil", lit "-nil"]), n'') ∧
      ¬ n.PopsShown keyK [⟨lit "a", nulFree_a⟩] (-2) 0 := by
  refine ⟨_, _, _, rfl, rfl, rfl, ?_⟩
  intro pops
  obtain ⟨n'', ran, -⟩ := pops.array _ _ rfl
  cases ran

end XFireDB
