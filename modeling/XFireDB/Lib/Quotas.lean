import Mathlib

/-!
# Handing out a number in rounds

A number `n` is taken from places with `c` items each.  As long as there are as many left to
be taken as places, every place is asked for the same quota, but for no more than it had at
the start; then the places are asked one after the other.  A place that has given items
before gives the ones it still has.
-/

namespace XFireDB.Lib.Quotas

/-- What a round with a quota asks for. -/
def share (quota : Nat) (c : List Nat) : Nat := (c.map (min quota)).sum

variable {c : List Nat} {n : Nat}

/-! ## One round -/

@[simp] theorem share_nil (q : Nat) : share q [] = 0 := rfl

@[simp] theorem share_cons (q x : Nat) (c : List Nat) :
    share q (x :: c) = min q x + share q c := rfl

@[simp] theorem share_zero (c : List Nat) : share 0 c = 0 := by
  induction c with
  | nil => rfl
  | cons x c ih => simp [ih]

theorem share_le_mul (q : Nat) (c : List Nat) : share q c ≤ q * c.length := by
  induction c with
  | nil => simp
  | cons x c ih =>
      rw [share_cons, List.length_cons, mul_add, mul_one]
      omega

theorem share_div_le (c : List Nat) (n : Nat) : share (n / c.length) c ≤ n :=
  (share_le_mul _ c).trans (Nat.div_mul_le_self n c.length)

theorem share_eq_mul {q : Nat} (room : ∀ x ∈ c, q ≤ x) : share q c = q * c.length := by
  induction c with
  | nil => simp
  | cons x c ih =>
      obtain ⟨first, others⟩ := List.forall_mem_cons.mp room
      rw [share_cons, ih others, List.length_cons, mul_add, mul_one, min_eq_left first]
      omega

theorem length_le_share {q : Nat} (some_ : 0 < q) (positive : ∀ x ∈ c, 0 < x) :
    c.length ≤ share q c := by
  induction c with
  | nil => simp
  | cons x c ih =>
      obtain ⟨first, others⟩ := List.forall_mem_cons.mp positive
      have rest := ih others
      rw [share_cons, List.length_cons]
      omega

theorem share_add_rest (q : Nat) (c : List Nat) :
    share q c + (c.map fun x => x - q).sum = c.sum := by
  induction c with
  | nil => rfl
  | cons x c ih =>
      rw [share_cons, List.map_cons, List.sum_cons, List.sum_cons]
      omega

theorem share_append (q : Nat) (c c' : List Nat) : share q (c ++ c') = share q c + share q c' := by
  rw [share, List.map_append, List.sum_append]
  rfl

theorem share_perm (q : Nat) {c c' : List Nat} (same : c.Perm c') : share q c = share q c' :=
  (same.map _).sum_eq

theorem share_add_le (a b : Nat) (c : List Nat) : share (a + b) c ≤ share a c + share b c := by
  induction c with
  | nil => simp
  | cons x c ih =>
      simp only [share_cons]
      omega

/-- Two rounds ask a place for more than it has that has less than both quotas. -/
theorem share_add_lt {a b x : Nat} (first : 0 < a) (second : 0 < b) (positive : ∀ x ∈ c, 0 < x)
    (member : x ∈ c) (little : x < a + b) : share (a + b) c < share a c + share b c := by
  induction c with
  | nil => cases member
  | cons y c ih =>
      obtain ⟨some_, others⟩ := List.forall_mem_cons.mp positive
      simp only [share_cons]
      rcases List.mem_cons.mp member with rfl | later
      · have rest := share_add_le a b c
        omega
      · have rest := ih others later
        omega

/-! ## All rounds -/

/-- The quotas of all rounds in sum, and what is then left to be taken. -/
def rounds (c : List Nat) (n : Nat) : Nat × Nat :=
  if 0 < share (n / c.length) c then
    let later := rounds c (n - share (n / c.length) c)
    (n / c.length + later.1, later.2)
  else (0, n)
termination_by n
decreasing_by
  have asked : 0 < share (n / c.length) c := by assumption
  have some_ : n ≠ 0 := by
    intro same
    obtain rfl := same
    rw [Nat.zero_div, share_zero] at asked
    exact lt_irrefl 0 asked
  omega

/-- The shortest beginning of the list that sums up to `f`. -/
def reach (f : Nat) : List Nat → List Nat
  | [] => []
  | x :: c => if f ≤ x then [x] else x :: reach (f - x) c

/-- What the places give away. -/
def given (c : List Nat) (n : Nat) : Nat :=
  share (rounds c n).1 c +
    ((reach (rounds c n).2 c).map fun x => min (rounds c n).2 (x - (rounds c n).1)).sum

/-- When that is `n`, for places in descending order: fewer are taken than there are places,
and the first place or the first places have them exactly; or after one round fewer are left
than there are places, and the first place has the rest behind the quota, or the first places
have it, which without the last of them could not be asked for the rest. -/
inductive Exact (c : List Nat) (n : Nat) : Prop
  | zero (zero : n = 0)
  | first (few : n < c.length) (room : n ≤ c.headD 0)
  | whole (few : n < c.length) (m : Nat) (sum : (c.take m).sum = n)
  | once (many : c.length ≤ n) (rest : n - share (n / c.length) c < c.length)
      (room : n / c.length + (n - share (n / c.length) c) ≤ c.headD 0)
  | cancel (many : c.length ≤ n) (rest : n - share (n / c.length) c < c.length) (m : Nat)
      (below : (c.take m).sum < n - share (n / c.length) c)
      (sum : (c.take (m + 1)).sum = n - share (n / c.length) c + (m + 1) * (n / c.length))

/-- After one round fewer are left than there are places, or the first place has almost as
many as there are places. -/
def Roomy (c : List Nat) (n : Nat) : Prop :=
  n - share (n / c.length) c < c.length ∨ c.length ≤ c.headD 0 + 1

theorem rounds_few (few : n < c.length) : rounds c n = (0, n) := by
  rw [rounds, Nat.div_eq_of_lt few, share_zero, if_neg (lt_irrefl 0)]

theorem rounds_many (positive : ∀ x ∈ c, 0 < x) (places : c ≠ []) (many : c.length ≤ n) :
    rounds c n = (n / c.length + (rounds c (n - share (n / c.length) c)).1,
      (rounds c (n - share (n / c.length) c)).2) := by
  have length := List.length_pos_iff.mpr places
  have asked := length_le_share (Nat.div_pos many length) positive
  rw [rounds, if_pos (length.trans_le asked)]

/-- Fewer than there are places are left. -/
theorem rounds_lt (positive : ∀ x ∈ c, 0 < x) (places : c ≠ []) (n : Nat) :
    (rounds c n).2 < c.length := by
  induction n using Nat.strong_induction_on with
  | _ n ih =>
      by_cases few : n < c.length
      · rwa [rounds_few few]
      · have length := List.length_pos_iff.mpr places
        have asked := length_le_share (Nat.div_pos (not_lt.mp few) length) positive
        rw [rounds_many positive places (not_lt.mp few)]
        exact ih _ (by omega)

/-- The rounds ask for no less than places with one quota in sum would give. -/
theorem share_rounds_le (positive : ∀ x ∈ c, 0 < x) (places : c ≠ []) (n : Nat) :
    share (rounds c n).1 c + (rounds c n).2 ≤ n := by
  induction n using Nat.strong_induction_on with
  | _ n ih =>
      by_cases few : n < c.length
      · rw [rounds_few few, share_zero, zero_add]
      · have length := List.length_pos_iff.mpr places
        have asked := length_le_share (Nat.div_pos (not_lt.mp few) length) positive
        have most := share_div_le c n
        have later := ih (n - share (n / c.length) c) (by omega)
        have together := share_add_le (n / c.length) (rounds c (n - share (n / c.length) c)).1 c
        rw [rounds_many positive places (not_lt.mp few)]
        dsimp only
        omega

/-- If there is a second round, a place was asked for more than it had. -/
theorem share_rounds_lt (positive : ∀ x ∈ c, 0 < x) (places : c ≠ []) (many : c.length ≤ n)
    (again : c.length ≤ n - share (n / c.length) c) :
    share (rounds c n).1 c + (rounds c n).2 < n := by
  have length := List.length_pos_iff.mpr places
  have first := Nat.div_pos many length
  have second := Nat.div_pos again length
  have most := share_div_le c n
  have later := share_rounds_le positive places (n - share (n / c.length) c)
  have quota : n - share (n / c.length) c ≠ 0 := by omega
  obtain ⟨x, member, little⟩ : ∃ x ∈ c, x < n / c.length := by
    by_contra enough
    push Not at enough
    have whole := share_eq_mul enough
    have split := Nat.div_add_mod n c.length
    have rest := Nat.mod_lt n length
    rw [mul_comm] at whole
    omega
  have more : 0 < (rounds c (n - share (n / c.length) c)).1 := by
    rw [rounds_many positive places again]
    exact Nat.add_pos_left second _
  have together := share_add_lt first more positive member (by omega)
  rw [rounds_many positive places many]
  dsimp only
  omega

/-! ## The end -/

theorem reach_first {f x : Nat} (room : f ≤ x) (c : List Nat) :
    reach f (x :: c) = [x] := if_pos room

theorem mem_of_mem_reach {f x : Nat} (member : x ∈ reach f c) : x ∈ c := by
  induction c generalizing f with
  | nil => exact member
  | cons y c ih =>
      rw [reach] at member
      split at member
      · exact List.mem_singleton.mp member ▸ List.mem_cons_self
      · rcases List.mem_cons.mp member with rfl | later
        · exact List.mem_cons_self
        · exact List.mem_cons_of_mem y (ih later)

/-- The shortest beginning sums up to the number exactly if some beginning does. -/
theorem sum_reach_eq_iff {f : Nat} (some_ : 0 < f) (enough : f ≤ c.sum) :
    (reach f c).sum = f ↔ ∃ m, (c.take m).sum = f := by
  induction c generalizing f with
  | nil =>
      rw [List.sum_nil] at enough
      omega
  | cons x c ih =>
      rw [List.sum_cons] at enough
      by_cases room : f ≤ x
      · rw [reach_first room, List.sum_singleton]
        constructor
        · intro same
          exact ⟨1, by simpa using same⟩
        · intro found
          rcases found with ⟨m, sum⟩
          cases m with
          | zero =>
              rw [List.take_zero, List.sum_nil] at sum
              omega
          | succ m =>
              rw [List.take_succ_cons, List.sum_cons] at sum
              omega
      · have later := ih (f := f - x) (by omega) (by omega)
        rw [reach, if_neg room, List.sum_cons]
        constructor
        · intro sum
          obtain ⟨m, sum'⟩ := later.mp (by omega)
          exact ⟨m + 1, by rw [List.take_succ_cons, List.sum_cons]; omega⟩
        · intro found
          rcases found with ⟨m, sum⟩
          cases m with
          | zero =>
              rw [List.take_zero, List.sum_nil] at sum
              omega
          | succ m =>
              rw [List.take_succ_cons, List.sum_cons] at sum
              have sum' := later.mpr ⟨m, by omega⟩
              omega

/-- Without the last place of the beginning there is too little. -/
theorem exists_reach {f : Nat} (some_ : 0 < f) (enough : f ≤ c.sum) :
    ∃ m, (c.take m).sum < f ∧ f ≤ (c.take (m + 1)).sum := by
  induction c generalizing f with
  | nil =>
      rw [List.sum_nil] at enough
      omega
  | cons x c ih =>
      rw [List.sum_cons] at enough
      by_cases room : f ≤ x
      · exact ⟨0, some_, by simpa using room⟩
      · obtain ⟨m, below, reached⟩ := ih (f := f - x) (by omega) (by omega)
        refine ⟨m + 1, ?_, ?_⟩
        · rw [List.take_succ_cons, List.sum_cons]
          omega
        · rw [List.take_succ_cons, List.sum_cons]
          omega

theorem reach_eq_take {f m : Nat} (below : (c.take m).sum < f)
    (reached : f ≤ (c.take (m + 1)).sum) :
    reach f c = c.take (m + 1) := by
  induction c generalizing f m with
  | nil =>
      rw [List.take_nil, List.sum_nil] at below reached
      omega
  | cons x c ih =>
      rw [List.take_succ_cons, List.sum_cons] at reached
      cases m with
      | zero =>
          rw [List.take_zero, List.sum_nil, add_zero] at reached
          exact reach_first reached c
      | succ m =>
          rw [List.take_succ_cons, List.sum_cons] at below
          have later := ih (f := f - x) (m := m) (by omega) (by omega)
          rw [reach, if_neg (by omega), List.take_succ_cons, later]

/-- The last place of the beginning. -/
theorem take_succ_eq {m f : Nat} (below : (c.take m).sum < f) (reached : f ≤ (c.take (m + 1)).sum) :
    ∃ y, c.take (m + 1) = c.take m ++ [y] := by
  have inside : m < c.length := by
    by_contra outside
    have whole := List.take_of_length_le (not_lt.mp outside)
    have whole' := List.take_of_length_le ((not_lt.mp outside).trans (Nat.le_succ m))
    rw [whole] at below
    rw [whole'] at reached
    omega
  exact ⟨_, List.take_succ_eq_append_getElem inside⟩

/-- What a beginning has behind a quota is the number that it is asked for exactly if it has
that beside the quotas. -/
theorem sum_reach_sub_eq_iff {q f m : Nat} (descending : c.Pairwise fun x y => y ≤ x)
    (below : (c.take m).sum < f) (reached : f ≤ (c.take (m + 1)).sum) :
    ((c.take (m + 1)).map fun x => x - q).sum = f ↔ (c.take (m + 1)).sum = f + (m + 1) * q := by
  obtain ⟨y, last⟩ := take_succ_eq below reached
  have size : (c.take m).length = m := by
    have both := congrArg List.length last
    rw [List.length_append, List.length_singleton, List.length_take, List.length_take] at both
    rw [List.length_take]
    omega
  have least : ∀ x ∈ c.take (m + 1), y ≤ x := by
    have ordered := descending.sublist (List.take_sublist (m + 1) c)
    rw [last, List.pairwise_append] at ordered
    rw [last]
    intro x member
    rcases List.mem_append.mp member with before | here
    · exact ordered.2.2 x before y List.mem_cons_self
    · exact (List.mem_singleton.mp here).ge
  have split := share_add_rest q (c.take (m + 1))
  have sum : (c.take (m + 1)).sum = (c.take m).sum + y := by
    rw [last, List.sum_append, List.sum_singleton]
  have length : (c.take (m + 1)).length = m + 1 := by
    rw [last, List.length_append, size, List.length_singleton]
  by_cases more : q ≤ y
  · -- every place has the quota
    rw [share_eq_mul fun x member => more.trans (least x member), length, mul_comm] at split
    omega
  · -- the last place has less than the quota, so that it gives nothing
    have little : y ≤ share q (c.take (m + 1)) := by
      rw [last, share_append, share_cons]
      omega
    have whole : y < (m + 1) * q := by nlinarith
    constructor
    · omega
    · omega

/-! ## When all is given -/

/-- The first place can be asked for the rest alone. -/
theorem given_of_first {x : Nat} (room : (rounds (x :: c) n).2 ≤ x) :
    given (x :: c) n = share (rounds (x :: c) n).1 (x :: c) +
      min (rounds (x :: c) n).2 (x - (rounds (x :: c) n).1) := by
  rw [given, reach_first room, List.map_singleton, List.sum_singleton]

/-- No place can be asked for the rest alone. -/
theorem given_of_short (first : ∀ x ∈ c, x ≤ c.headD 0) (short : c.headD 0 < (rounds c n).2) :
    given c n = share (rounds c n).1 c +
      ((reach (rounds c n).2 c).map fun x => x - (rounds c n).1).sum := by
  rw [given]
  congr 2
  refine List.map_congr_left ?_
  intro x member
  have most := first x (mem_of_mem_reach member)
  omega

theorem given_few_iff {x : Nat} (first : ∀ y ∈ x :: c, y ≤ x) (few : n < (x :: c).length)
    (enough : n ≤ (x :: c).sum) :
    given (x :: c) n = n ↔ n ≤ x ∨ ∃ m, ((x :: c).take m).sum = n := by
  have start := rounds_few few
  by_cases room : n ≤ x
  · refine iff_of_true ?_ (Or.inl room)
    rw [given_of_first (by rwa [start]), start, share_zero, zero_add, Nat.sub_zero,
      min_eq_left room]
  · have short : (x :: c).headD 0 < (rounds (x :: c) n).2 := by
      rw [start]
      exact not_le.mp room
    rw [given_of_short first short, start, share_zero, zero_add]
    simp only [Nat.sub_zero, List.map_id']
    rw [sum_reach_eq_iff (by omega) enough, or_iff_right room]

/-- After one round, and fewer than places left. -/
theorem rounds_once (positive : ∀ x ∈ c, 0 < x) (places : c ≠ []) (many : c.length ≤ n)
    (rest : n - share (n / c.length) c < c.length) :
    rounds c n = (n / c.length, n - share (n / c.length) c) := by
  rw [rounds_many positive places many, rounds_few rest, Nat.add_zero]

theorem div_length_le {x : Nat} (first : ∀ y ∈ c, y ≤ x) (enough : n ≤ c.sum) :
    n / c.length ≤ x := by
  have most := List.sum_le_card_nsmul c x first
  rw [smul_eq_mul] at most
  exact Nat.div_le_of_le_mul (enough.trans most)

/-- The first place is asked for the rest: it has to have that behind one round. -/
theorem given_first_iff {x : Nat} (positive : ∀ y ∈ x :: c, 0 < y) (first : ∀ y ∈ x :: c, y ≤ x)
    (many : (x :: c).length ≤ n) (enough : n ≤ (x :: c).sum) (room : (rounds (x :: c) n).2 ≤ x) :
    given (x :: c) n = n ↔ n - share (n / (x :: c).length) (x :: c) < (x :: c).length ∧
      n / (x :: c).length + (n - share (n / (x :: c).length) (x :: c)) ≤ x := by
  have places : x :: c ≠ [] := List.cons_ne_nil x c
  by_cases rest : n - share (n / (x :: c).length) (x :: c) < (x :: c).length
  · have most := share_div_le (x :: c) n
    have quota := div_length_le first enough
    rw [given_of_first room, rounds_once positive places many rest, and_iff_right rest]
    dsimp only
    omega
  · have short := share_rounds_lt positive places many (not_lt.mp rest)
    refine iff_of_false ?_ (fun once => rest once.1)
    rw [given_of_first room]
    omega

/-- After one round the first place has too little: the first places have to have the rest
beside the quotas. -/
theorem given_short_iff (positive : ∀ x ∈ c, 0 < x) (descending : c.Pairwise fun x y => y ≤ x)
    (first : ∀ x ∈ c, x ≤ c.headD 0) (places : c ≠ []) (many : c.length ≤ n) (enough : n ≤ c.sum)
    (rest : n - share (n / c.length) c < c.length)
    (short : c.headD 0 < n - share (n / c.length) c) :
    given c n = n ↔ ∃ m, (c.take m).sum < n - share (n / c.length) c ∧
      (c.take (m + 1)).sum = n - share (n / c.length) c + (m + 1) * (n / c.length) := by
  have start := rounds_once positive places many rest
  have most := share_div_le c n
  rw [given_of_short first (by rwa [start]), start]
  dsimp only
  constructor
  · intro all
    obtain ⟨m, below, reached⟩ := exists_reach (c := c)
      (f := n - share (n / c.length) c) (by omega) (by omega)
    rw [reach_eq_take below reached] at all
    exact ⟨m, below, (sum_reach_sub_eq_iff descending below reached).mp (by omega)⟩
  · intro found
    obtain ⟨m, below, sum⟩ := found
    have reached : n - share (n / c.length) c ≤ (c.take (m + 1)).sum := by omega
    rw [reach_eq_take below reached,
      (sum_reach_sub_eq_iff descending below reached).mpr sum]
    omega

section Descending

variable (positive : ∀ x ∈ c, 0 < x) (descending : c.Pairwise fun x y => y ≤ x) (enough : n ≤ c.sum)
include positive descending enough

/-- After one round: the first place has the rest, or the first places have it. -/
theorem given_once_iff (places : c ≠ []) (many : c.length ≤ n)
    (rest : n - share (n / c.length) c < c.length) :
    given c n = n ↔ n / c.length + (n - share (n / c.length) c) ≤ c.headD 0 ∨
      ∃ m, (c.take m).sum < n - share (n / c.length) c ∧
        (c.take (m + 1)).sum = n - share (n / c.length) c + (m + 1) * (n / c.length) := by
  obtain ⟨x, c, rfl⟩ := List.exists_cons_of_ne_nil places
  have first : ∀ y ∈ x :: c, y ≤ x :=
    List.forall_mem_cons.mpr ⟨le_rfl, (List.pairwise_cons.mp descending).1⟩
  have start := rounds_once positive places many rest
  by_cases room : n - share (n / (x :: c).length) (x :: c) ≤ x
  · rw [given_first_iff positive first many enough (by rwa [start]), and_iff_right rest]
    refine ⟨Or.inl, fun either => ?_⟩
    rcases either with fits | ⟨m, below, sum⟩
    · exact fits
    · -- a beginning with too little is empty
      cases m with
      | zero =>
          rw [List.take_succ_cons, List.take_zero, List.sum_singleton, zero_add, one_mul] at sum
          exact (add_comm _ _).trans_le sum.ge
      | succ m =>
          rw [List.take_succ_cons, List.sum_cons] at below
          omega
  · rw [given_short_iff positive descending first places many enough rest (not_le.mp room)]
    refine ⟨Or.inr, fun either => ?_⟩
    rcases either with fits | found
    · exact absurd ((Nat.le_add_left _ _).trans fits) room
    · exact found

/-- In the cases of `Exact` the places give `n` away. -/
theorem given_of_exact (exact_ : Exact c n) : given c n = n := by
  cases c with
  | nil =>
      obtain rfl := Nat.le_zero.mp enough
      rw [given, share_nil]
      rfl
  | cons x c =>
      have places : x :: c ≠ [] := List.cons_ne_nil x c
      have first : ∀ y ∈ x :: c, y ≤ x :=
        List.forall_mem_cons.mpr ⟨le_rfl, (List.pairwise_cons.mp descending).1⟩
      cases exact_ with
      | zero zero =>
          exact (given_few_iff first (zero ▸ List.length_pos_iff.mpr places) enough).mpr
            (Or.inl (zero ▸ Nat.zero_le x))
      | first few room => exact (given_few_iff first few enough).mpr (Or.inl room)
      | whole few m sum => exact (given_few_iff first few enough).mpr (Or.inr ⟨m, sum⟩)
      | once many rest room =>
          exact (given_once_iff positive descending enough places many rest).mpr (Or.inl room)
      | cancel many rest m below sum =>
          exact (given_once_iff positive descending enough places many rest).mpr
            (Or.inr ⟨m, below, sum⟩)

/-- Where there is one round at most, or the first place has enough, they do so in no other
case. -/
theorem exact_of_given (roomy : Roomy c n) (all : given c n = n) : Exact c n := by
  cases c with
  | nil => exact .zero (Nat.le_zero.mp enough)
  | cons x c =>
      have places : x :: c ≠ [] := List.cons_ne_nil x c
      have first : ∀ y ∈ x :: c, y ≤ x :=
        List.forall_mem_cons.mpr ⟨le_rfl, (List.pairwise_cons.mp descending).1⟩
      by_cases few : n < (x :: c).length
      · rcases (given_few_iff first few enough).mp all with room | ⟨m, sum⟩
        · exact .first few room
        · exact .whole few m sum
      · have many := not_lt.mp few
        have once : n - share (n / (x :: c).length) (x :: c) < (x :: c).length := by
          rcases roomy with rest | large
          · exact rest
          · -- what is left fits into the first place, so that there has been one round
            have left := rounds_lt positive places n
            have room : (rounds (x :: c) n).2 ≤ x := Nat.le_of_lt_succ (left.trans_le large)
            exact ((given_first_iff positive first many enough room).mp all).1
        rcases (given_once_iff positive descending enough places many once).mp all with
          room | ⟨m, below, sum⟩
        · exact .once many once room
        · exact .cancel many once m below sum

end Descending

end XFireDB.Lib.Quotas
