import XFireDB.EngineApiRuns

/-!
# Indexes of the C interface

`xfiredb_list_pop` and `xfiredb_list_get` walk a list once and look for the index at their
counter.  An index below zero is counted from the end when the walk comes to it, with the
length that the list has then.

A node of a list is its data and its position, so that nodes with equal data differ.

Lists may have more entries than an `int` can count.  Then the position of the walk and
the length that a negative index is added to are taken modulo `2 ^ 32`.
-/

namespace XFireDB.EngineState

/-- The loop of `xfiredb_list_pop` over nodes of any kind. -/
def popLoop {α : Type} : List α → List α → Int → List Int → Option (List α × List α × List Int)
  | kept, [], _, idx => some (kept, [], idx)
  | _, _ :: _, _, [] => none
  | kept, x :: rest, i, k :: idx =>
    let k := fromEnd (int32 (kept ++ x :: rest).length) k
    if k = i then
      if idx = [] then some (kept ++ rest, [x], [k])
      else
        (popLoop kept rest (int32 (i + 1)) idx).map fun found =>
          (found.1, x :: found.2.1, k :: found.2.2)
    else popLoop (kept ++ [x]) rest (int32 (i + 1)) (k :: idx)

/-- The loop does not look at the data. -/
theorem listPopLoop_map {α : Type} (data : α → CStr) (kept rest : List α) (i : Int)
    (idx : List Int) :
    listPopLoop (kept.map data) (rest.map data) i idx =
      (popLoop kept rest i idx).map fun found =>
        (found.1.map data, found.2.1.map data, found.2.2) := by
  induction rest generalizing kept i idx with
  | nil => simp [listPopLoop, popLoop]
  | cons x rest ih =>
      cases idx with
      | nil => simp [listPopLoop, popLoop]
      | cons k idx =>
          have len : listLength (kept.map data ++ data x :: rest.map data) =
              int32 (kept ++ x :: rest).length := by
            rw [listLength]
            simp
          rw [List.map_cons, listPopLoop, popLoop, len]
          split
          · split
            · simp
            · rw [ih, Option.map_map, Option.map_map]
              rfl
          · rw [← ih]
            simp

/-- The position that an index stands for. -/
def position (n : Nat) (k : Int) : Int := if k < 0 then n + k else k

theorem position_of_nonneg {k : Int} (nonneg : 0 ≤ k) (n : Nat) : position n k = k :=
  if_neg (not_lt.mpr nonneg)

theorem fromEnd_of_nonneg {k : Int} (nonneg : 0 ≤ k) (len : Int) : fromEnd len k = k :=
  if_neg (not_lt.mpr nonneg)

theorem fromEnd_eq_position {n : Nat} (short : n < 2 ^ 31) {k : Int} (low : -n ≤ k) :
    fromEnd (int32 n) k = position n k := by
  have len : int32 n = n := int32_of_small (by omega) (by omega)
  rw [fromEnd, position, len]
  split
  · rw [int32_of_small (by omega) (by omega), add_comm]
  · rfl

theorem position_nonneg {n : Nat} {k : Int} (low : -n ≤ k) : 0 ≤ position n k := by
  rw [position]
  split <;> omega

theorem position_lt {n : Nat} {k : Int} (high : k < n) : position n k < n := by
  rw [position]
  split <;> omega

/-- The length is an `int`, or no index is counted from the end. -/
def LengthFits (n : Nat) (idx : List Int) : Prop := n < 2 ^ 31 ∨ ∀ k ∈ idx, 0 ≤ k

theorem LengthFits.tail {n : Nat} {k : Int} {idx : List Int} (fits : LengthFits n (k :: idx)) :
    LengthFits n idx :=
  fits.imp_right fun nonneg j member => nonneg j (List.mem_cons_of_mem k member)

theorem LengthFits.fromEnd {n : Nat} {k : Int} {idx : List Int} (fits : LengthFits n (k :: idx))
    (low : -n ≤ k) : EngineState.fromEnd (int32 n) k = position n k := by
  rcases fits with short | nonneg
  · exact fromEnd_eq_position short low
  · have first := nonneg k List.mem_cons_self
    rw [fromEnd_of_nonneg first, position_of_nonneg first]

theorem lt_of_isInt {k : Int} (isInt : int32 k = k) : k < 2 ^ 31 := by
  rw [← isInt]
  exact int32_lt k

/-- The position of an index is an `int`. -/
theorem LengthFits.position_lt {n : Nat} {k : Int} {idx : List Int}
    (fits : LengthFits n (k :: idx)) (isInt : int32 k = k) (high : k < n) :
    position n k < 2 ^ 31 := by
  rcases fits with short | nonneg
  · have := EngineState.position_lt high
    omega
  · rw [position_of_nonneg (nonneg k List.mem_cons_self)]
    exact lt_of_isInt isInt

/-- An index that has been counted from the end stays. -/
theorem popLoop_fromEnd {α : Type} {kept rest : List α} {x : α} {i k v : Int} {idx : List Int}
    (counted : fromEnd (int32 (kept ++ x :: rest).length) k = v) (nonneg : 0 ≤ v) :
    popLoop kept (x :: rest) i (k :: idx) = popLoop kept (x :: rest) i (v :: idx) := by
  rw [popLoop, popLoop, counted, fromEnd_of_nonneg nonneg]

/-! ## Popping -/

/-- What the walk takes out first is at the index at its counter. -/
theorem popLoop_first {l : List CStr} {kept left popped : List (CStr × Nat)} {q : Nat} {v : Int}
    {idx idx' : List Int} (short : q + l.length < 2 ^ 31) (nonneg : 0 ≤ v)
    (ran : popLoop kept (l.zipIdx q) q (v :: idx) = some (left, popped, idx')) :
    ∀ node, popped.head? = some node → (node.2 : Int) = v := by
  induction l generalizing kept q with
  | nil =>
      rw [List.zipIdx_nil, popLoop] at ran
      cases ran
      intro node found
      cases found
  | cons x l ih =>
      rw [List.length_cons] at short
      rw [List.zipIdx_cons, popLoop, fromEnd_of_nonneg nonneg] at ran
      have next : int32 (q + 1) = ((q + 1 : Nat) : Int) := int32_of_small (by omega) (by omega)
      split at ran
      · rename_i hit
        intro node found
        have same : popped.head? = some (x, q) := by
          split at ran
          · cases ran
            rfl
          · obtain ⟨later, -, done⟩ := Option.map_eq_some_iff.mp ran
            cases done
            rfl
        obtain rfl := Option.some.inj (same.symm.trans found)
        exact hit.symm
      · rw [next] at ran
        exact ih (by omega) ran

/-- The nodes at the positions, and the others. -/
def nodesAt (ps : List Int) (nodes : List (CStr × Nat)) : List (CStr × Nat) :=
  nodes.filter fun node => (node.2 : Int) ∈ ps

def nodesNotAt (ps : List Int) (nodes : List (CStr × Nat)) : List (CStr × Nat) :=
  nodes.filter fun node => (node.2 : Int) ∉ ps

theorem nodesAt_cons_of_not_mem {ps : List Int} {x : CStr} {q : Nat} (outside : (q : Int) ∉ ps)
    (nodes : List (CStr × Nat)) :
    nodesAt ps ((x, q) :: nodes) = nodesAt ps nodes ∧
      nodesNotAt ps ((x, q) :: nodes) = (x, q) :: nodesNotAt ps nodes := by
  simp [nodesAt, nodesNotAt, outside]

/-- A position that the walk has passed is that of no later node. -/
theorem nodesAt_later (ps : List Int) {p : Int} (l : List CStr) {q : Nat} (passed : p < q) :
    nodesAt (p :: ps) (l.zipIdx q) = nodesAt ps (l.zipIdx q) ∧
      nodesNotAt (p :: ps) (l.zipIdx q) = nodesNotAt ps (l.zipIdx q) := by
  have later : ∀ node ∈ l.zipIdx q, ((node.2 : Int) ∈ p :: ps ↔ (node.2 : Int) ∈ ps) := by
    intro node member
    have from_q := List.le_snd_of_mem_zipIdx member
    rw [List.mem_cons, or_iff_right (by omega)]
  constructor
  · exact List.filter_congr fun node member => decide_eq_decide.mpr (later node member)
  · exact List.filter_congr fun node member => decide_eq_decide.mpr (not_congr (later node member))

theorem nodesAt_here {ps : List Int} {x : CStr} {l : List CStr} {q : Nat} :
    nodesAt (q :: ps) ((x, q) :: l.zipIdx (q + 1)) = (x, q) :: nodesAt ps (l.zipIdx (q + 1)) ∧
      nodesNotAt (q :: ps) ((x, q) :: l.zipIdx (q + 1)) = nodesNotAt ps (l.zipIdx (q + 1)) := by
  have passed : (q : Int) < ((q + 1 : Nat) : Int) := by omega
  have later := nodesAt_later ps l passed
  constructor
  · rw [← later.1]
    simp [nodesAt]
  · rw [← later.2]
    simp [nodesNotAt]

/-- Increasing indexes that are not below zero are all found. -/
theorem popLoop_found {l : List CStr} (kept : List (CStr × Nat)) {q : Nat} {k : Int}
    {idx : List Int} (small : ∀ j ∈ k :: idx, j < 2 ^ 31) (nonneg : ∀ j ∈ k :: idx, 0 ≤ j)
    (increasing : (k :: idx).Pairwise (· < ·)) (low : q ≤ k)
    (high : ∀ j ∈ k :: idx, j < q + l.length) :
    ∃ idx', popLoop kept (l.zipIdx q) q (k :: idx) =
      some (kept ++ nodesNotAt (k :: idx) (l.zipIdx q), nodesAt (k :: idx) (l.zipIdx q), idx') := by
  induction l generalizing kept q k idx with
  | nil =>
      have below := high k List.mem_cons_self
      rw [List.length_nil] at below
      omega
  | cons x l ih =>
      rw [List.length_cons] at high
      -- as long as an index is ahead the position is an `int`
      have next : ∀ j ∈ k :: idx, (q : Int) < j → int32 (q + 1) = ((q + 1 : Nat) : Int) := by
        intro j member ahead
        have := small j member
        exact int32_of_small (by omega) (by omega)
      rw [List.zipIdx_cons, popLoop, fromEnd_of_nonneg (nonneg k List.mem_cons_self)]
      rw [List.pairwise_cons] at increasing
      by_cases hit : k = q
      · subst hit
        rw [if_pos rfl, nodesAt_here.1, nodesAt_here.2]
        cases idx with
        | nil => simp [nodesAt, nodesNotAt]
        | cons k' idx =>
            have after := increasing.1 k' List.mem_cons_self
            obtain ⟨idx', found⟩ := ih kept (q := q + 1)
              (fun j member => small j (List.mem_cons_of_mem _ member))
              (fun j member => nonneg j (List.mem_cons_of_mem _ member)) increasing.2 (by omega)
              (fun j member => by
                have := high j (List.mem_cons_of_mem _ member)
                omega)
            rw [if_neg (List.cons_ne_nil k' idx),
              next k' (List.mem_cons_of_mem _ List.mem_cons_self) after, found]
            exact ⟨_, rfl⟩
      · have outside : (q : Int) ∉ k :: idx := by
          intro member
          rcases List.mem_cons.mp member with same | later
          · exact hit same.symm
          · have := increasing.1 _ later
            omega
        obtain ⟨idx', found⟩ := ih (kept ++ [(x, q)]) (q := q + 1) small nonneg
          (List.pairwise_cons.mpr increasing) (by omega)
          (fun j member => by
            have := high j member
            omega)
        rw [if_neg hit, next k List.mem_cons_self (by omega), found,
          (nodesAt_cons_of_not_mem outside _).1, (nodesAt_cons_of_not_mem outside _).2]
        simp

/-- A negative index that is counted from the end after a removal is taken for a position
before its own. -/
theorem popLoop_miscounts {n : Nat} (short : n < 2 ^ 31) {l : List CStr}
    {kept left : List (CStr × Nat)} {q : Nat} {k : Int} {idx idx' : List Int}
    (len : q + l.length = n) (removed : kept.length < q) (negative : k < 0)
    (low : q ≤ position n k)
    (increasing : ((k :: idx).map (position n)).Pairwise (· < ·)) :
    popLoop kept (l.zipIdx q) q (k :: idx) ≠
      some (left, nodesAt ((k :: idx).map (position n)) (l.zipIdx q), idx') := by
  intro ran
  have place : position n k = n + k := if_pos negative
  obtain ⟨x, l, rfl⟩ : ∃ x rest, l = x :: rest := by
    rcases l with - | ⟨x, rest⟩
    · rw [List.length_nil] at len
      omega
    · exact ⟨x, rest, rfl⟩
  -- the node at the position of the index is among those taken out
  obtain ⟨node, here, member⟩ : ∃ node : CStr × Nat, (node.2 : Int) = position n k ∧
      node ∈ nodesAt ((k :: idx).map (position n)) ((x :: l).zipIdx q) := by
    have inside : (position n k).toNat - q < (x :: l).length := by omega
    refine ⟨((x :: l)[(position n k).toNat - q], (position n k).toNat), by dsimp only; omega, ?_⟩
    refine List.mem_filter.mpr ⟨List.mk_mem_zipIdx_iff_le_and_getElem?_sub.mpr ⟨by omega, ?_⟩, ?_⟩
    · exact List.getElem?_eq_getElem inside
    · rw [decide_eq_true_iff, List.map_cons, Int.toNat_of_nonneg (by omega)]
      exact List.mem_cons_self
  obtain ⟨first, found⟩ : ∃ first,
      (nodesAt ((k :: idx).map (position n)) ((x :: l).zipIdx q)).head? = some first := by
    rw [← Option.isSome_iff_exists, List.isSome_head?]
    simpa using List.ne_nil_of_mem member
  have notBefore : position n k ≤ first.2 := by
    have inPositions := (List.mem_filter.mp (List.mem_of_mem_head? found)).2
    rw [decide_eq_true_iff, List.map_cons] at inPositions
    rw [List.map_cons, List.pairwise_cons] at increasing
    rcases List.mem_cons.mp inPositions with same | later
    · exact same.ge
    · exact (increasing.1 _ later).le
  have size : (kept ++ (x :: l).zipIdx q).length = kept.length + (l.length + 1) := by
    simp
  rw [List.length_cons] at len
  have counted : fromEnd (int32 (kept ++ (x, q) :: l.zipIdx (q + 1)).length) k =
      k + (kept.length + (l.length + 1)) := by
    rw [← List.zipIdx_cons, size]
    have small : kept.length + (l.length + 1) < 2 ^ 31 := by omega
    rw [fromEnd_eq_position small (by omega), position, if_pos negative]
    omega
  rw [List.zipIdx_cons, popLoop_fromEnd counted (by omega), ← List.zipIdx_cons] at ran
  have reached := popLoop_first (by simp; omega) (by omega) ran first found
  omega

/-- If all positions are taken out, no index but the first was negative. -/
theorem nonneg_of_popLoop {n : Nat} (short : n < 2 ^ 31) {l : List CStr}
    {kept left : List (CStr × Nat)} {q : Nat} {k : Int} {idx idx' : List Int}
    (len : q + l.length = n) (before : kept.length ≤ q) (nonneg : 0 ≤ k) (low : q ≤ k)
    (high : ∀ j ∈ k :: idx, j < n) (increasing : ((k :: idx).map (position n)).Pairwise (· < ·))
    (ran : popLoop kept (l.zipIdx q) q (k :: idx) =
      some (left, nodesAt ((k :: idx).map (position n)) (l.zipIdx q), idx')) :
    ∀ j ∈ idx, 0 ≤ j := by
  induction l generalizing kept left q k idx idx' with
  | nil =>
      have below := high k List.mem_cons_self
      rw [List.length_nil] at len
      omega
  | cons x l ih =>
      rw [List.length_cons] at len
      have below := high k List.mem_cons_self
      have next : int32 (q + 1) = ((q + 1 : Nat) : Int) := int32_of_small (by omega) (by omega)
      have here := position_of_nonneg nonneg n
      have positions := increasing
      rw [List.map_cons, here, List.pairwise_cons] at positions
      rw [List.zipIdx_cons, popLoop, fromEnd_of_nonneg nonneg, next, List.map_cons, here] at ran
      by_cases hit : k = q
      · subst hit
        rw [if_pos rfl, nodesAt_here.1] at ran
        cases idx with
        | nil =>
            intro j member
            cases member
        | cons k' idx =>
            rw [if_neg (List.cons_ne_nil k' idx)] at ran
            obtain ⟨⟨left', popped, idx''⟩, later, done⟩ := Option.map_eq_some_iff.mp ran
            simp only [Prod.mk.injEq, List.cons.injEq, true_and] at done
            obtain ⟨rfl, rfl, -⟩ := done
            have after := positions.1 (position n k') (List.mem_cons_self)
            rcases Int.lt_or_le k' 0 with negative | nonneg'
            · exact absurd later (popLoop_miscounts short (by omega) (by omega) negative (by omega)
                positions.2)
            · rw [position_of_nonneg nonneg'] at after
              have rest := ih (by omega) (by omega) nonneg' (by omega)
                (fun j member => high j (List.mem_cons_of_mem _ member)) positions.2 later
              exact List.forall_mem_cons.mpr ⟨nonneg', rest⟩
      · have outside : (q : Int) ∉ k :: idx.map (position n) := by
          intro member
          rcases List.mem_cons.mp member with same | later
          · exact hit same.symm
          · have := positions.1 _ later
            omega
        have further : (kept ++ [(x, q)]).length ≤ q + 1 := by
          rw [List.length_append, List.length_singleton]
          omega
        rw [if_neg hit, (nodesAt_cons_of_not_mem outside _).1] at ran
        rw [← here, ← List.map_cons, here] at ran
        exact ih (by omega) further nonneg (by omega) high increasing ran

/-- On the list of the key `xfiredb_list_pop` takes out the nodes at the positions and no
others, and says so to the caller and to the disk. -/
structure PopsAddressed (e : EngineState) (key : CStr) (elems : List CStr) (idx : List Int) :
    Prop where
  nodes : ∃ idx', popLoop [] elems.zipIdx 0 idx =
    some (nodesNotAt (idx.map (position elems.length)) elems.zipIdx,
      nodesAt (idx.map (position elems.length)) elems.zipIdx, idx')
  call : ∃ idx', e.xfiredbListPop key idx =
    let left := (nodesNotAt (idx.map (position elems.length)) elems.zipIdx).map Prod.fst
    let popped := (nodesAt (idx.map (position elems.length)) elems.zipIdx).map Prod.fst
    some ((idx.length : Int), idx',
      (e.setDb key (if left = [] then none else some (.container (.list left)))).bioQueueAll
        (popNotices key popped))

theorem length_nodesAt {ps : List Int} {l : List CStr} {q : Nat}
    (increasing : ps.Pairwise (· < ·)) (inside : ∀ p ∈ ps, (q : Int) ≤ p ∧ p < q + l.length) :
    (nodesAt ps (l.zipIdx q)).length = ps.length := by
  induction l generalizing q ps with
  | nil =>
      cases ps with
      | nil => rfl
      | cons p ps =>
          have := inside p List.mem_cons_self
          rw [List.length_nil] at this
          omega
  | cons x l ih =>
      rw [List.length_cons] at inside
      rw [List.zipIdx_cons]
      by_cases here : (q : Int) ∈ ps
      · obtain ⟨ps, rfl⟩ : ∃ rest, ps = (q : Int) :: rest := by
          cases ps with
          | nil => cases here
          | cons p ps =>
              have low := (inside p List.mem_cons_self).1
              rcases List.mem_cons.mp here with rfl | later
              · exact ⟨ps, rfl⟩
              · have := (List.pairwise_cons.mp increasing).1 _ later
                omega
        rw [List.pairwise_cons] at increasing
        rw [nodesAt_here.1, List.length_cons, List.length_cons, ih increasing.2]
        intro p member
        have after := increasing.1 p member
        have := inside p (List.mem_cons_of_mem _ member)
        omega
      · rw [(nodesAt_cons_of_not_mem here _).1, ih increasing]
        intro p member
        have other : p ≠ q := fun same => here (same ▸ member)
        have := inside p member
        omega

theorem position_position {n : Nat} {k : Int} (low : -n ≤ k) :
    position n (position n k) = position n k :=
  position_of_nonneg (position_nonneg low) n

/-- The nodes that are not at the positions are as many as are left. -/
theorem length_nodesNotAt {ps : List Int} {l : List CStr} {q : Nat}
    (increasing : ps.Pairwise (· < ·)) (inside : ∀ p ∈ ps, (q : Int) ≤ p ∧ p < q + l.length) :
    l.length = ps.length + (nodesNotAt ps (l.zipIdx q)).length := by
  have parts := List.length_eq_length_filter_add (l := l.zipIdx q) fun node => (node.2 : Int) ∈ ps
  rw [List.length_zipIdx] at parts
  rw [parts, ← length_nodesAt increasing inside, nodesAt, nodesNotAt]
  simp

/-- The first index is counted from the end while the list is whole. -/
theorem popLoop_start {elems : List CStr} {k : Int} {idx : List Int}
    (fits : LengthFits elems.length (k :: idx)) (low : -elems.length ≤ k)
    (high : k < elems.length) :
    popLoop [] elems.zipIdx 0 (k :: idx) =
      popLoop [] elems.zipIdx 0 (position elems.length k :: idx) := by
  cases elems with
  | nil =>
      rw [List.length_nil] at low high
      omega
  | cons x rest =>
      have size : ([] ++ (x, 0) :: rest.zipIdx 1).length = (x :: rest).length := by simp
      rw [List.zipIdx_cons]
      refine popLoop_fromEnd ?_ (position_nonneg low)
      rw [size]
      exact fits.fromEnd low

/-- The call gives back what the walk over the nodes has found. -/
theorem xfiredbListPop_of_nodes {e : EngineState} {key : CStr} {elems : List CStr}
    {idx idx' : List Int} {left popped : List (CStr × Nat)}
    (stored : e.db key = some (.container (.list elems)))
    (ran : popLoop [] elems.zipIdx 0 idx = some (left, popped, idx')) :
    e.xfiredbListPop key idx = some ((popped.length : Int), idx',
      (e.setDb key (if listLength (left.map Prod.fst) ≤ 0 then none
        else some (.container (.list (left.map Prod.fst))))).bioQueueAll
          (popNotices key (popped.map Prod.fst))) := by
  have looped := listPopLoop_map Prod.fst [] elems.zipIdx 0 idx
  rw [List.map_nil, List.zipIdx_map_fst, ran, Option.map_some] at looped
  unfold xfiredbListPop
  rw [stored]
  dsimp only
  rw [looped, Option.map_some, List.length_map]

theorem listLength_nonpos_iff {left : List CStr} (counted : Counted left) :
    listLength left ≤ 0 ↔ left = [] := by
  rcases counted with rfl | more
  · exact iff_of_true le_rfl rfl
  · refine iff_of_false (not_le.mpr more) ?_
    intro same
    obtain rfl := same
    cases more

/-- What is left of a list is not taken for nothing where it is popped right. -/
theorem PopsAddressed.counted {e : EngineState} {key : CStr} {elems : List CStr} {idx : List Int}
    (pops : PopsAddressed e key elems idx) (stored : e.db key = some (.container (.list elems))) :
    Counted (nodesNotAt (idx.map (position elems.length)) elems.zipIdx) := by
  obtain ⟨⟨idx₁, ran⟩, idx₂, called⟩ := pops
  have same := (xfiredbListPop_of_nodes stored ran).symm.trans called
  simp only [Option.some.injEq, Prod.mk.injEq] at same
  have held := congrFun (congrArg EngineState.db same.2.2) key
  rw [bioQueueAll_db, bioQueueAll_db, setDb_self, setDb_self] at held
  by_contra uncounted
  obtain ⟨some, none⟩ := not_or.mp uncounted
  rw [listLength, List.length_map, if_pos (not_lt.mp none), if_neg (mt List.map_eq_nil_iff.mp some)]
    at held
  cases held

/-- No index but the first is negative, and the first only where the length is an `int`; what
is left of the list is not taken for nothing. -/
structure PopsInStep (n : Nat) (idx : List Int) : Prop where
  later : ∀ k ∈ idx.tail, 0 ≤ k
  fits : LengthFits n idx
  left : n = idx.length ∨ 0 < int32 (n - idx.length)

theorem popsAddressed_of_inStep {e : EngineState} {key : CStr} {elems : List CStr} {idx : List Int}
    (stored : e.db key = some (.container (.list elems))) (nonempty : idx ≠ [])
    (ints : ∀ k ∈ idx, int32 k = k)
    (inside : ∀ k ∈ idx, -(elems.length : Int) ≤ k ∧ k < elems.length)
    (increasing : (idx.map (position elems.length)).Pairwise (· < ·))
    (inStep : PopsInStep elems.length idx) : PopsAddressed e key elems idx := by
  obtain ⟨k, ks, rfl⟩ := List.exists_cons_of_ne_nil nonempty
  obtain ⟨low, high⟩ := inside k List.mem_cons_self
  have nonneg : ∀ j ∈ ks, 0 ≤ j := inStep.later
  have same : (k :: ks).map (position elems.length) = position elems.length k :: ks := by
    rw [List.map_cons, List.map_congr_left fun j member => position_of_nonneg (nonneg j member) _,
      List.map_id']
  have all := List.forall_mem_cons.mpr ⟨position_nonneg low, nonneg⟩
  have below : ∀ j ∈ position elems.length k :: ks, j < elems.length :=
    List.forall_mem_cons.mpr
      ⟨position_lt high, fun j member => (inside j (List.mem_cons_of_mem _ member)).2⟩
  have small : ∀ j ∈ position elems.length k :: ks, j < 2 ^ 31 :=
    List.forall_mem_cons.mpr ⟨inStep.fits.position_lt (ints k List.mem_cons_self) high,
      fun j member => lt_of_isInt (ints j (List.mem_cons_of_mem _ member))⟩
  obtain ⟨idx', ran⟩ := popLoop_found [] (q := 0) (l := elems) small all (same ▸ increasing)
    (position_nonneg low) (by simpa using below)
  rw [Nat.cast_zero, ← popLoop_start inStep.fits low high, ← same, List.nil_append] at ran
  have within : ∀ p ∈ (k :: ks).map (position elems.length),
      ((0 : Nat) : Int) ≤ p ∧ p < (0 : Nat) + elems.length := by
    intro p member
    rw [same] at member
    have := all p member
    have := below p member
    omega
  have parts := length_nodesNotAt increasing within
  rw [List.length_map] at parts
  have counted : Counted
      ((nodesNotAt ((k :: ks).map (position elems.length)) elems.zipIdx).map Prod.fst) := by
    rcases inStep.left with none | some
    · left
      rw [List.map_eq_nil_iff, ← List.length_eq_zero_iff]
      omega
    · right
      rw [List.length_map]
      have rest : (elems.length : Int) - (k :: ks).length =
          (nodesNotAt ((k :: ks).map (position elems.length)) elems.zipIdx).length := by omega
      rwa [rest] at some
  have count := length_nodesAt increasing within
  rw [List.length_map] at count
  refine ⟨⟨idx', ran⟩, idx', ?_⟩
  rw [xfiredbListPop_of_nodes stored ran, count]
  simp only [listLength_nonpos_iff counted]

/-- With the positions increasing, `xfiredb_list_pop` takes out what is addressed if no index
but the first is negative, the first only where the length of the list is an `int`, and the
counter of what is left is not taken for that of an empty list.  Where the length is an `int`
or no index is negative it does so in no other case. -/
theorem popsAddressed_iff {e : EngineState} {key : CStr} {elems : List CStr} {idx : List Int}
    (stored : e.db key = some (.container (.list elems))) (nonempty : idx ≠ [])
    (ints : ∀ k ∈ idx, int32 k = k)
    (inside : ∀ k ∈ idx, -(elems.length : Int) ≤ k ∧ k < elems.length)
    (increasing : (idx.map (position elems.length)).Pairwise (· < ·)) :
    (PopsInStep elems.length idx → PopsAddressed e key elems idx) ∧
      (LengthFits elems.length idx → PopsAddressed e key elems idx →
        PopsInStep elems.length idx) := by
  refine ⟨popsAddressed_of_inStep stored nonempty ints inside increasing, ?_⟩
  intro fits pops
  obtain ⟨k, ks, rfl⟩ := List.exists_cons_of_ne_nil nonempty
  obtain ⟨low, high⟩ := inside k List.mem_cons_self
  have first := position_nonneg low
  refine ⟨?_, fits, ?_⟩
  · rcases fits with short | nonneg
    · have normal : (position elems.length k :: ks).map (position elems.length) =
          (k :: ks).map (position elems.length) := by
        rw [List.map_cons, List.map_cons, position_position low]
      have below : ∀ j ∈ position elems.length k :: ks, j < elems.length :=
        List.forall_mem_cons.mpr
          ⟨position_lt high, fun j member => (inside j (List.mem_cons_of_mem _ member)).2⟩
      obtain ⟨idx', ran⟩ := pops.nodes
      rw [popLoop_start (Or.inl short) low high, ← normal] at ran
      exact nonneg_of_popLoop short (Nat.zero_add _) List.length_nil.le first first below
        (normal ▸ increasing) ran
    · exact fun j member => nonneg j (List.mem_of_mem_tail member)
  · have within : ∀ p ∈ (k :: ks).map (position elems.length),
        ((0 : Nat) : Int) ≤ p ∧ p < (0 : Nat) + elems.length := by
      intro p member
      obtain ⟨j, inIdx, rfl⟩ := List.mem_map.mp member
      obtain ⟨lowJ, highJ⟩ := inside j inIdx
      have := position_nonneg lowJ
      have := position_lt highJ
      omega
    have parts := length_nodesNotAt increasing within
    rw [List.length_map] at parts
    have rest : (elems.length : Int) - (k :: ks).length =
        (nodesNotAt ((k :: ks).map (position elems.length)) elems.zipIdx).length := by omega
    rw [rest]
    exact (pops.counted stored).imp_left fun none => by
      rw [none, List.length_nil, Nat.add_zero] at parts
      exact parts

/-- A key, and a list of three entries. -/
def keyL : CStr := ⟨[108], by decide⟩

theorem nulFree_entryA : 0 ∉ [(97 : UInt8)] := by decide

def entryA : CStr := ⟨[97], nulFree_entryA⟩
def entryB : CStr := ⟨[98], by decide⟩
def entryC : CStr := ⟨[99], by decide⟩

/-- A database with the list under the key. -/
def oneList : EngineState :=
  setDb ⟨fun _ => none, 0, [], []⟩ keyL (some (.container (.list [entryA, entryB, entryC])))

theorem oneList_stored : oneList.db keyL = some (.container (.list [entryA, entryB, entryC])) :=
  setDb_self _ _ _

theorem popsAddressed_first_second :
    (PopsInStep 3 [-3, 1] → PopsAddressed oneList keyL [entryA, entryB, entryC] [-3, 1]) ∧
      (LengthFits 3 [-3, 1] → PopsAddressed oneList keyL [entryA, entryB, entryC] [-3, 1] →
        PopsInStep 3 [-3, 1]) :=
  popsAddressed_iff oneList_stored (by decide) (by decide) (by decide) (by decide)

/-- The first and the last of three entries are asked for, and the first two are taken. -/
theorem listPop_first_last :
    popLoop [] [(entryA, 0), (entryB, 1), (entryC, 2)] 0 [0, -1] =
      some ([(entryC, 2)], [(entryA, 0), (entryB, 1)], [0, 1]) ∧
    ¬ ∀ (e : EngineState) (key : CStr) (elems : List CStr) (idx : List Int),
      e.db key = some (.container (.list elems)) → idx ≠ [] → (∀ k ∈ idx, int32 k = k) →
      (∀ k ∈ idx, -(elems.length : Int) ≤ k ∧ k < elems.length) →
      (idx.map (position elems.length)).Pairwise (· < ·) → PopsAddressed e key elems idx := by
  have ran : popLoop [] [(entryA, 0), (entryB, 1), (entryC, 2)] 0 [0, -1] =
      some ([(entryC, 2)], [(entryA, 0), (entryB, 1)], [0, 1]) := by decide
  refine ⟨ran, ?_⟩
  intro all
  obtain ⟨idx', right⟩ := (all oneList keyL [entryA, entryB, entryC] [0, -1] oneList_stored
    (by decide) (by decide) (by decide) (by decide)).nodes
  have left : [(entryC, 2)] = nodesNotAt [0, 2] [(entryA, 0), (entryB, 1), (entryC, 2)] :=
    congrArg Prod.fst (Option.some.inj (ran.symm.trans right))
  exact absurd left (by decide)

/-! ## Reading -/

/-- `xfiredb_list_get` says that all went well, and each index has been answered with the
entry at its position. -/
def GetsAll (e : EngineState) (key : CStr) (elems : List CStr) (idx : List Int) : Prop :=
  ∃ data idx', e.xfiredbListGet key idx = some (xfiredbOK, data, idx') ∧
    data.map some = idx.map fun k => elems[(position elems.length k).toNat]?

/-- The loop has found the entries at the positions of the indexes. -/
def Finds (elems : List CStr) (idx : List Int) (found : Option (List CStr × List Int)) : Prop :=
  ∃ data idx', found = some (data, idx') ∧
    data.map some = idx.map fun k => elems[(position elems.length k).toNat]?

theorem finds_cons_iff {elems : List CStr} {x : CStr} {k p : Int} {idx : List Int}
    {found : Option (List CStr × List Int)}
    (entry : elems[(position elems.length k).toNat]? = some x) :
    Finds elems (k :: idx) (found.map fun found => (x :: found.1, p :: found.2)) ↔
      Finds elems idx found := by
  constructor
  · intro finds
    obtain ⟨data, idx', ran, answers⟩ := finds
    obtain ⟨later, looped, done⟩ := Option.map_eq_some_iff.mp ran
    cases done
    exact ⟨later.1, later.2, looped, (List.cons.inj answers).2⟩
  · intro finds
    obtain ⟨data, idx', looped, answers⟩ := finds
    refine ⟨x :: data, p :: idx', ?_, ?_⟩
    · rw [looped]
      rfl
    · rw [List.map_cons, List.map_cons, entry, answers]

theorem finds_position_iff {elems : List CStr} {k : Int} (low : -(elems.length : Int) ≤ k)
    (idx : List Int) (found : Option (List CStr × List Int)) :
    Finds elems (position elems.length k :: idx) found ↔ Finds elems (k :: idx) found := by
  unfold Finds
  rw [List.map_cons, List.map_cons, position_position low]

/-- An `int` position is that of the walk's counter before it wraps. -/
theorem eq_int32_iff {p : Int} {q : Nat} (nonneg : 0 ≤ p) (small : p < 2 ^ 31) (most : q < 2 ^ 32) :
    p = int32 q ↔ p = q := by
  rcases Nat.lt_or_ge q (2 ^ 31) with few | many
  · rw [int32_of_small (by omega) (by omega)]
  · have wrapped : int32 q = q - 2 ^ 32 := by
      rw [int32_eq_bmod, ← Int.sub_bmod_right]
      exact Int.bmod_eq_of_le (by omega) (by omega)
    rw [wrapped]
    omega

/-- Indexes that a list has, and that are counted from the end with its length. -/
structure Reckoned (n : Nat) (idx : List Int) : Prop where
  fits : LengthFits n idx
  ints : ∀ k ∈ idx, int32 k = k
  inside : ∀ k ∈ idx, -(n : Int) ≤ k ∧ k < n

theorem Reckoned.tail {n : Nat} {k : Int} {idx : List Int} (reckoned : Reckoned n (k :: idx)) :
    Reckoned n idx where
  fits := reckoned.fits.tail
  ints := fun j member => reckoned.ints j (List.mem_cons_of_mem k member)
  inside := fun j member => reckoned.inside j (List.mem_cons_of_mem k member)

/-- What is known of the position that the walk looks for. -/
theorem Reckoned.bounds {n : Nat} {k : Int} {idx : List Int} (reckoned : Reckoned n (k :: idx)) :
    -(n : Int) ≤ k ∧ 0 ≤ position n k ∧ position n k < n ∧ position n k < 2 ^ 31 := by
  obtain ⟨low, high⟩ := reckoned.inside k List.mem_cons_self
  have small := reckoned.fits.position_lt (reckoned.ints k List.mem_cons_self) high
  exact ⟨low, position_nonneg low, position_lt high, small⟩

/-- The index may be replaced by its position. -/
theorem Reckoned.counted {n : Nat} {k : Int} {idx : List Int} (reckoned : Reckoned n (k :: idx)) :
    Reckoned n (position n k :: idx) := by
  obtain ⟨-, place, below, small⟩ := reckoned.bounds
  have rest := reckoned.tail
  refine ⟨?_, ?_, ?_⟩
  · exact rest.fits.imp_right fun nonneg => List.forall_mem_cons.mpr ⟨place, nonneg⟩
  · exact List.forall_mem_cons.mpr ⟨int32_of_small place small, rest.ints⟩
  · exact List.forall_mem_cons.mpr ⟨⟨by omega, below⟩, rest.inside⟩

theorem entry_of_hit {elems before rest : List CStr} {x : CStr} (here : elems = before ++ x :: rest)
    {p : Int} (hit : p = before.length) : elems[p.toNat]? = some x := by
  rw [hit, Int.toNat_natCast, here, List.getElem?_append_right le_rfl, Nat.sub_self,
    List.getElem?_cons_zero]

/-- The walk finds the entries of indexes whose positions increase. -/
theorem finds_of_increasing {elems before rest : List CStr} (here : elems = before ++ rest)
    {k : Int} {idx : List Int} (reckoned : Reckoned elems.length (k :: idx))
    (ahead : before.length ≤ position elems.length k)
    (increasing : ((k :: idx).map (position elems.length)).Pairwise (· < ·)) :
    Finds elems (k :: idx) (listGetLoop (int32 elems.length) rest before.length (k :: idx)) := by
  have size : elems.length = before.length + rest.length := by rw [here, List.length_append]
  obtain ⟨low, place, below, small⟩ := reckoned.bounds
  induction rest generalizing before k idx with
  | nil =>
      rw [List.length_nil] at size
      omega
  | cons x rest ih =>
      rw [List.length_cons] at size
      have regroup : elems = (before ++ [x]) ++ rest := by rw [here]; simp
      have later : (before ++ [x]).length = before.length + 1 := by simp
      -- as long as an index is ahead the position is an `int`
      have next : (before.length : Int) + 1 < 2 ^ 31 →
          int32 (before.length + 1) = ((before ++ [x]).length : Int) := by
        intro short
        rw [int32_of_small (by omega) short, later]
        rfl
      rw [listGetLoop, reckoned.fits.fromEnd low]
      by_cases hit : position elems.length k = before.length
      · -- the walk is at the index, and goes on with those behind it
        have entry := entry_of_hit here hit
        rw [if_pos hit]
        cases idx with
        | nil =>
            refine ⟨[x], _, if_pos rfl, ?_⟩
            rw [List.map_cons, List.map_cons, entry]
            rfl
        | cons k' idx =>
            obtain ⟨low', place', below', small'⟩ := reckoned.tail.bounds
            rw [List.map_cons, List.pairwise_cons] at increasing
            have after := increasing.1 _ List.mem_cons_self
            rw [if_neg (List.cons_ne_nil k' idx), next (by omega)]
            exact (finds_cons_iff entry).mpr (ih regroup reckoned.tail (by omega) increasing.2
              (by omega) low' place' below' small')
      · -- the walk looks for the same index, which is a position by now
        have again := position_position low
        rw [if_neg hit, next (by omega), ← finds_position_iff low]
        refine ih regroup reckoned.counted (by rw [again]; omega) ?_ (by omega) (by omega)
          (by rwa [again]) (by rwa [again]) (by rwa [again])
        rwa [List.map_cons, again, ← List.map_cons]

/-- On a list whose positions are told apart by the counter the walk finds no others. -/
theorem increasing_of_finds {elems before rest : List CStr} (most : elems.length ≤ 2 ^ 32)
    (here : elems = before ++ rest) {k : Int} {idx : List Int}
    (reckoned : Reckoned elems.length (k :: idx))
    (finds : Finds elems (k :: idx)
      (listGetLoop (int32 elems.length) rest (int32 before.length) (k :: idx))) :
    before.length ≤ position elems.length k ∧
      ((k :: idx).map (position elems.length)).Pairwise (· < ·) := by
  have size : elems.length = before.length + rest.length := by rw [here, List.length_append]
  induction rest generalizing before k idx with
  | nil =>
      obtain ⟨data, idx', ran, answers⟩ := finds
      cases ran
      cases answers
  | cons x rest ih =>
      rw [List.length_cons] at size
      obtain ⟨low, place, below, small⟩ := reckoned.bounds
      have regroup : elems = (before ++ [x]) ++ rest := by rw [here]; simp
      have later : (before ++ [x]).length = before.length + 1 := by simp
      have next : int32 (int32 before.length + 1) = int32 (before ++ [x]).length := by
        rw [int32_succ, later]
      have counter := eq_int32_iff (q := before.length) place small (by omega)
      rw [listGetLoop, reckoned.fits.fromEnd low, next] at finds
      by_cases hit : position elems.length k = before.length
      · -- the indexes behind it are found behind it
        refine ⟨hit.ge, ?_⟩
        have entry := entry_of_hit here hit
        cases idx with
        | nil => exact List.pairwise_singleton _ _
        | cons k' idx =>
            rw [if_pos (counter.mpr hit), if_neg (List.cons_ne_nil k' idx)] at finds
            obtain ⟨ahead, increasing⟩ :=
              ih regroup reckoned.tail ((finds_cons_iff entry).mp finds) (by omega)
            have positions := increasing
            rw [List.map_cons, List.pairwise_cons] at positions
            refine List.pairwise_cons.mpr ⟨?_, increasing⟩
            rw [List.map_cons, List.forall_mem_cons, hit]
            refine ⟨by omega, fun p member => ?_⟩
            have := positions.1 p member
            omega
      · -- the index that is looked for further on is a position by now
        have again := position_position low
        rw [if_neg (mt counter.mp hit), ← finds_position_iff low] at finds
        obtain ⟨ahead, increasing⟩ := ih regroup reckoned.counted finds (by omega)
        rw [List.map_cons, again, ← List.map_cons] at increasing
        rw [again] at ahead
        exact ⟨by omega, increasing⟩

theorem getsAll_iff_finds {e : EngineState} {key : CStr} {elems : List CStr} {idx : List Int}
    (stored : e.db key = some (.container (.list elems))) :
    GetsAll e key elems idx ↔ Finds elems idx (listGetLoop (listLength elems) elems 0 idx) := by
  unfold GetsAll xfiredbListGet
  rw [stored]
  dsimp only
  constructor
  · intro gets
    obtain ⟨data, idx', ran, right⟩ := gets
    obtain ⟨found, looped, done⟩ := Option.map_eq_some_iff.mp ran
    cases done
    exact ⟨found.1, found.2, looped, right⟩
  · intro gets
    obtain ⟨data, idx', looped, right⟩ := gets
    exact ⟨data, idx', by rw [looped]; rfl, right⟩

/-- `xfiredb_list_get` answers every index if the positions increase and the length is an
`int` wherever it is added to an index.  Where it is, and the list has no more than `2 ^ 32`
entries, it does so in no other case. -/
theorem getsAll_iff {e : EngineState} {key : CStr} {elems : List CStr} {idx : List Int}
    (stored : e.db key = some (.container (.list elems))) (nonempty : idx ≠ [])
    (ints : ∀ k ∈ idx, int32 k = k)
    (inside : ∀ k ∈ idx, -(elems.length : Int) ≤ k ∧ k < elems.length) :
    (LengthFits elems.length idx ∧ (idx.map (position elems.length)).Pairwise (· < ·) →
        GetsAll e key elems idx) ∧
      (LengthFits elems.length idx → elems.length ≤ 2 ^ 32 → GetsAll e key elems idx →
        (idx.map (position elems.length)).Pairwise (· < ·)) := by
  obtain ⟨k, ks, rfl⟩ := List.exists_cons_of_ne_nil nonempty
  have first : (([] : List CStr).length : Int) ≤ position elems.length k :=
    position_nonneg (inside k List.mem_cons_self).1
  rw [getsAll_iff_finds stored]
  constructor
  · intro found
    obtain ⟨fits, increasing⟩ := found
    exact finds_of_increasing (List.nil_append elems).symm ⟨fits, ints, inside⟩ first increasing
  · intro fits most finds
    exact (increasing_of_finds most (List.nil_append elems).symm ⟨fits, ints, inside⟩ finds).2

theorem getsAll_first_last :
    (LengthFits 3 [0, -1] ∧ ([0, -1].map (position 3)).Pairwise (· < ·) →
        GetsAll oneList keyL [entryA, entryB, entryC] [0, -1]) ∧
      (LengthFits 3 [0, -1] → [entryA, entryB, entryC].length ≤ 2 ^ 32 →
        GetsAll oneList keyL [entryA, entryB, entryC] [0, -1] →
          ([0, -1].map (position 3)).Pairwise (· < ·)) :=
  getsAll_iff oneList_stored (by decide) (by decide) (by decide)

/-- Asked for the second entry and then the first, it answers the second alone. -/
theorem listGet_second_first :
    oneList.xfiredbListGet keyL [1, 0] = some (xfiredbOK, [entryB], [1, 0]) ∧
    ¬ ∀ (e : EngineState) (key : CStr) (elems : List CStr) (idx : List Int),
      e.db key = some (.container (.list elems)) → idx ≠ [] → (∀ k ∈ idx, int32 k = k) →
      (∀ k ∈ idx, -(elems.length : Int) ≤ k ∧ k < elems.length) → GetsAll e key elems idx := by
  have ran : oneList.xfiredbListGet keyL [1, 0] = some (xfiredbOK, [entryB], [1, 0]) := by
    unfold xfiredbListGet
    rw [oneList_stored]
    decide
  refine ⟨ran, ?_⟩
  intro all
  obtain ⟨data, idx', ran', right⟩ := all oneList keyL [entryA, entryB, entryC] [1, 0]
    oneList_stored (by decide) (by decide) (by decide)
  obtain ⟨-, rfl, -⟩ := by simpa only [Option.some.injEq, Prod.mk.injEq] using ran.symm.trans ran'
  exact absurd right (by decide)

end XFireDB.EngineState
