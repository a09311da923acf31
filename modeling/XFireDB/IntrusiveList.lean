import XFireDB.Lib.Chain
import XFireDB.Lib.Runs
import XFireDB.EngineApi

/-!
# The intrusive list

`storage/list.c` and `list.h` on the pointers: the nodes form a ring with the node inside of
the list head, and a counter is kept beside it.  A read through a null pointer has no result
(`none`), and neither has a loop that does not end within its fuel.
-/

namespace XFireDB

open Lib

/-- The pointers of all nodes, and the counter `num` of the list head. -/
structure ListMem (α : Type) where
  next : α → Option α
  prev : α → Option α
  num : Int

/-- A call on a list. -/
inductive ListOp (α : Type)
  | lpush (node : α)
  | rpush (node : α)
  | del (entry : α)

/-- What the calls are for: the sequence of linked nodes, and the nodes that have been deleted
and not pushed since. -/
structure ListSpec (α : Type) where
  linked : List α
  deleted : List α

variable {α : Type} [DecidableEq α]

/-- Nodes that are not linked are pushed, and nodes that are linked deleted. -/
def ListSpec.step (head : α) (s : ListSpec α) : ListOp α → Option (ListSpec α)
  | .lpush node =>
    if node ∈ head :: s.linked then none
    else some ⟨node :: s.linked, s.deleted.filter (· ≠ node)⟩
  | .rpush node =>
    if node ∈ head :: s.linked then none
    else some ⟨s.linked ++ [node], s.deleted.filter (· ≠ node)⟩
  | .del entry =>
    if entry ∈ s.linked then some ⟨s.linked.erase entry, entry :: s.deleted⟩ else none

namespace ListMem

def setNext (m : ListMem α) (x y : α) : ListMem α :=
  { m with next := Function.update m.next x (some y) }

def setPrev (m : ListMem α) (x y : α) : ListMem α :=
  { m with prev := Function.update m.prev x (some y) }

/-- `atomic_add` on the counter. -/
def atomicAdd (m : ListMem α) (val : Int) : ListMem α := { m with num := int32 (m.num + val) }

/-- `list_head_init`. -/
def listHeadInit (m : ListMem α) (head : α) : ListMem α :=
  { (m.setNext head head).setPrev head head with num := 0 }

/-- `__list_add`. -/
def listAdd (m : ListMem α) (new prev next : α) : ListMem α :=
  (((m.setPrev next new).setNext new next).setPrev new prev).setNext prev new

/-- `list_rpush`. -/
def listRpush (m : ListMem α) (head node : α) : Option (ListMem α) := do
  let it ← m.prev head
  let next ← m.next it
  some ((m.listAdd node it next).atomicAdd 1)

/-- `list_lpush`. -/
def listLpush (m : ListMem α) (head node : α) : Option (ListMem α) := do
  let next ← m.next head
  some ((m.listAdd node head next).atomicAdd 1)

/-- `__list_del`. -/
def listUnlink (m : ListMem α) (prev next : α) : ListMem α :=
  (m.setPrev next prev).setNext prev next

/-- `list_del`. -/
def listDel (m : ListMem α) (entry : α) : Option (ListMem α) := do
  let prev ← m.prev entry
  let next ← m.next entry
  some ((((m.listUnlink prev next).setNext entry entry).setPrev entry entry).atomicAdd (-1))

/-- `list_length`. -/
def listLength (m : ListMem α) : Int := m.num

/-- One call. -/
def step (head : α) (m : ListMem α) : ListOp α → Option (ListMem α)
  | .lpush node => m.listLpush head node
  | .rpush node => m.listRpush head node
  | .del entry => m.listDel entry

/-- `list_for_each` over `next`, or the same over `prev`: the nodes that `__c` visits. -/
def forEach (next : α → Option α) (head : α) : Nat → α → Option (List α)
  | 0, _ => none
  | fuel + 1, c =>
    if c = head then some []
    else do
      let c' ← next c
      let rest ← forEach next head fuel c'
      some (c :: rest)

/-- `list_for_each`. -/
def listForEach (next : α → Option α) (head : α) (fuel : Nat) : Option (List α) := do
  let c ← next head
  forEach next head fuel c

/-- The loop of `list_for_each_safe` with a body that deletes the nodes chosen by `chosen`: the
nodes that `__c` visits, and the list after the loop. -/
def forEachSafe (head : α) (chosen : α → Bool) : Nat → ListMem α → α → α →
    Option (List α × ListMem α)
  | 0, _, _, _ => none
  | fuel + 1, m, c, s =>
    if c = head then some ([], m)
    else do
      let m ← if chosen c then m.listDel c else some m
      let s' ← m.next s
      let (visited, m) ← forEachSafe head chosen fuel m s s'
      some (c :: visited, m)

/-- `list_for_each_safe`. -/
def listForEachSafe (m : ListMem α) (head : α) (chosen : α → Bool) (fuel : Nat) :
    Option (List α × ListMem α) := do
  let c ← m.next head
  let s ← m.next c
  forEachSafe head chosen fuel m c s

/-! ## The ring -/

/-- The ring holds the linked nodes in their order, both ways, and the deleted ones point to
themselves. -/
structure Represents (m : ListMem α) (head : α) (s : ListSpec α) : Prop where
  next : Chain m.next head head s.linked
  prev : Chain m.prev head head s.linked.reverse
  nodup : (head :: s.linked).Nodup
  num : m.num = int32 s.linked.length
  alone : ∀ x ∈ s.deleted, x ∉ head :: s.linked ∧ m.next x = some x ∧ m.prev x = some x

variable {m : ListMem α} {head node : α} {s : ListSpec α}

theorem init_represents (m : ListMem α) (head : α) :
    (m.listHeadInit head).Represents head ⟨[], []⟩ := by
  refine ⟨Function.update_self .., Function.update_self .., List.nodup_singleton head, ?_, ?_⟩
  · rw [List.length_nil, Nat.cast_zero, int32_zero]
    rfl
  · intro x member
    cases member

omit [DecidableEq α] in
theorem getLastD_reverse (xs : List α) (x : α) : xs.reverse.getLastD x = xs.headD x := by
  cases xs <;> simp

omit [DecidableEq α] in
theorem headD_reverse (xs : List α) (x : α) : xs.reverse.headD x = xs.getLastD x := by
  rw [← getLastD_reverse, List.reverse_reverse]

omit [DecidableEq α] in
theorem headD_mem_cons (xs : List α) (x : α) : xs.headD x ∈ x :: xs := by
  cases xs <;> simp

theorem listAdd_next (new prev next x : α) :
    (m.listAdd new prev next).next x =
      if x = prev then some new else if x = new then some next else m.next x := by
  simp only [listAdd, setNext, setPrev, Function.update_apply]

theorem listAdd_prev (new prev next x : α) :
    (m.listAdd new prev next).prev x =
      if x = new then some prev else if x = next then some new else m.prev x := by
  simp only [listAdd, setNext, setPrev, Function.update_apply]

section Neighbours

variable {pre post deleted : List α}

omit [DecidableEq α] in
theorem neighbours_mem (head : α) (pre post : List α) :
    pre.getLastD head ∈ head :: (pre ++ post) ∧ post.headD head ∈ head :: (pre ++ post) := by
  constructor
  · exact List.mem_append_left post (List.getLastD_mem_cons ..)
  · rcases List.mem_cons.mp (headD_mem_cons post head) with same | member
    · rw [same]
      exact List.mem_cons_self
    · exact List.mem_cons_of_mem _ (List.mem_append_right pre member)

omit [DecidableEq α] in
/-- The neighbours of a place in the ring point to each other. -/
theorem Represents.neighbours (rep : m.Represents head ⟨pre ++ post, deleted⟩) :
    m.next (pre.getLastD head) = some (post.headD head) ∧
      m.prev (post.headD head) = some (pre.getLastD head) := by
  have next := rep.next
  have prev := rep.prev
  rw [List.reverse_append] at prev
  have after := next.append_right.next_eq
  have before := prev.append_right.next_eq
  rw [getLastD_reverse, headD_reverse] at before
  exact ⟨after, before⟩

omit [DecidableEq α] in
theorem nodup_reverse (distinct : (head :: (pre ++ post)).Nodup) :
    (head :: post.reverse ++ pre.reverse).Nodup := by
  rw [List.cons_append, ← List.reverse_append, List.nodup_cons, List.mem_reverse,
    List.nodup_reverse]
  exact List.nodup_cons.mp distinct

omit [DecidableEq α] in
theorem mem_reverse_append {x : α} (member : x ∈ head :: post.reverse ++ pre.reverse) :
    x ∈ head :: (pre ++ post) := by
  rwa [List.cons_append, ← List.reverse_append, List.mem_cons, List.mem_reverse,
    ← List.mem_cons] at member

/-- Linking a node between two neighbours. -/
theorem Represents.add (rep : m.Represents head ⟨pre ++ post, deleted⟩)
    (fresh : node ∉ head :: (pre ++ post)) :
    ((m.listAdd node (pre.getLastD head) (post.headD head)).atomicAdd 1).Represents head
      ⟨pre ++ node :: post, deleted.filter (· ≠ node)⟩ := by
  obtain ⟨after, before⟩ := rep.neighbours
  obtain ⟨left, right⟩ := neighbours_mem head pre post
  have notLeft : node ≠ pre.getLastD head := fun same => fresh (same ▸ left)
  have notRight : post.headD head ≠ node := fun same => fresh (same ▸ right)
  have notHead : node ≠ head := fun same => fresh (same ▸ List.mem_cons_self)
  have keepNext : ∀ y, y ≠ node → y ≠ pre.getLastD head →
      (m.listAdd node (pre.getLastD head) (post.headD head)).next y = m.next y := by
    intro y old other
    rw [listAdd_next, if_neg other, if_neg old]
  have keepPrev : ∀ y, y ≠ node → y ≠ post.headD head →
      (m.listAdd node (pre.getLastD head) (post.headD head)).prev y = m.prev y := by
    intro y old other
    rw [listAdd_prev, if_neg old, if_neg other]
  have prev := rep.prev
  rw [List.reverse_append] at prev
  constructor
  · refine rep.next.insert rep.nodup notHead ?_ ?_ ?_
    · exact (listAdd_next ..).trans (if_pos rfl)
    · rw [after]
      exact (listAdd_next ..).trans ((if_neg notLeft).trans (if_pos rfl))
    · intro y member other
      exact keepNext y (fun same => fresh (same ▸ member)) other
  · rw [List.reverse_append, List.reverse_cons, List.append_assoc, List.singleton_append]
    refine prev.insert (nodup_reverse rep.nodup) notHead ?_ ?_ ?_
    · rw [getLastD_reverse]
      refine (listAdd_prev ..).trans ?_
      rw [if_neg notRight, if_pos rfl]
    · rw [getLastD_reverse, before]
      exact (listAdd_prev ..).trans (if_pos rfl)
    · intro y member other
      rw [getLastD_reverse] at other
      exact keepPrev y (fun same => fresh (same ▸ mem_reverse_append member)) other
  · have apart : (head :: (pre ++ node :: post)).Perm (node :: head :: (pre ++ post)) :=
      (List.perm_middle.cons head).trans (List.Perm.swap node head _)
    exact apart.nodup_iff.mpr (List.nodup_cons.mpr ⟨fresh, rep.nodup⟩)
  · have size : (pre ++ node :: post).length = (pre ++ post).length + 1 := by simp; omega
    rw [atomicAdd, size]
    dsimp only [listAdd, setNext, setPrev]
    rw [rep.num, int32_add_int32]
    rfl
  · intro x member
    obtain ⟨member, other⟩ := List.mem_filter.mp member
    rw [decide_eq_true_iff] at other
    obtain ⟨outside, selfNext, selfPrev⟩ := rep.alone x member
    refine ⟨?_, ?_, ?_⟩
    · intro inside
      rcases List.mem_cons.mp inside with same | inside
      · exact outside (same ▸ List.mem_cons_self)
      · rcases List.mem_cons.mp (List.perm_middle.mem_iff.mp inside) with same | inside
        · exact other same
        · exact outside (List.mem_cons_of_mem _ inside)
    · exact (keepNext x other fun same => outside (same ▸ left)).trans selfNext
    · exact (keepPrev x other fun same => outside (same ▸ right)).trans selfPrev

theorem Represents.lpush (rep : m.Represents head s) (fresh : node ∉ head :: s.linked) :
    ∃ m', m.listLpush head node = some m' ∧
      m'.Represents head ⟨node :: s.linked, s.deleted.filter (· ≠ node)⟩ := by
  obtain ⟨linked, deleted⟩ := s
  have front : m.Represents head ⟨[] ++ linked, deleted⟩ := rep
  refine ⟨_, ?_, front.add fresh⟩
  have next : m.next head = some (linked.headD head) := front.neighbours.1
  rw [listLpush, next]
  rfl

theorem Represents.rpush (rep : m.Represents head s) (fresh : node ∉ head :: s.linked) :
    ∃ m', m.listRpush head node = some m' ∧
      m'.Represents head ⟨s.linked ++ [node], s.deleted.filter (· ≠ node)⟩ := by
  obtain ⟨linked, deleted⟩ := s
  have back : m.Represents head ⟨linked ++ [], deleted⟩ := by
    rw [List.append_nil]
    exact rep
  refine ⟨_, ?_, back.add (by rwa [List.append_nil])⟩
  have it := back.neighbours.2
  rw [List.headD_nil] at it
  rw [listRpush, it, Option.bind_eq_bind, Option.bind_some, back.neighbours.1]
  rfl

/-- The list after a linked entry between two neighbours has been deleted. -/
def unlinked (m : ListMem α) (entry prev next : α) : ListMem α :=
  (((m.listUnlink prev next).setNext entry entry).setPrev entry entry).atomicAdd (-1)

theorem unlinked_next (entry prev next x : α) :
    (m.unlinked entry prev next).next x =
      if x = entry then some entry else if x = prev then some next else m.next x := by
  simp only [unlinked, listUnlink, atomicAdd, setNext, setPrev, Function.update_apply]

theorem unlinked_prev (entry prev next x : α) :
    (m.unlinked entry prev next).prev x =
      if x = entry then some entry else if x = next then some prev else m.prev x := by
  simp only [unlinked, listUnlink, atomicAdd, setNext, setPrev, Function.update_apply]

/-- Deleting a linked node. -/
theorem Represents.del (rep : m.Represents head ⟨pre ++ node :: post, deleted⟩) :
    ∃ m', m.listDel node = some m' ∧ m'.Represents head ⟨pre ++ post, node :: deleted⟩ := by
  have here : m.prev node = some (pre.getLastD head) := rep.neighbours.2
  have there : m.next node = some (post.headD head) := by
    have regroup : m.Represents head ⟨(pre ++ [node]) ++ post, deleted⟩ := by
      rw [List.append_assoc]
      exact rep
    have after := regroup.neighbours.1
    rwa [List.getLastD_concat] at after
  have apart : (head :: (pre ++ node :: post)).Perm (node :: head :: (pre ++ post)) :=
    (List.perm_middle.cons head).trans (List.Perm.swap node head _)
  obtain ⟨fresh, distinct⟩ := List.nodup_cons.mp (apart.nodup_iff.mp rep.nodup)
  obtain ⟨left, right⟩ := neighbours_mem head pre post
  have notLeft : pre.getLastD head ≠ node := fun same => fresh (same ▸ left)
  have notRight : post.headD head ≠ node := fun same => fresh (same ▸ right)
  have keepNext : ∀ y, y ≠ node → y ≠ pre.getLastD head →
      (m.unlinked node (pre.getLastD head) (post.headD head)).next y = m.next y := by
    intro y old other
    rw [unlinked_next, if_neg old, if_neg other]
  have keepPrev : ∀ y, y ≠ node → y ≠ post.headD head →
      (m.unlinked node (pre.getLastD head) (post.headD head)).prev y = m.prev y := by
    intro y old other
    rw [unlinked_prev, if_neg old, if_neg other]
  have prev := rep.prev
  rw [List.reverse_append, List.reverse_cons, List.append_assoc, List.singleton_append] at prev
  refine ⟨m.unlinked node (pre.getLastD head) (post.headD head), ?_, ?_⟩
  · rw [listDel, here, there]
    rfl
  constructor
  · refine rep.next.remove distinct ?_ ?_
    · rw [unlinked_next, if_neg notLeft, if_pos rfl, there]
    · intro y member other
      exact keepNext y (fun same => fresh (same ▸ member)) other
  · rw [List.reverse_append]
    refine prev.remove (nodup_reverse distinct) ?_ ?_
    · rw [getLastD_reverse, unlinked_prev, if_neg notRight, if_pos rfl, here]
    · intro y member other
      rw [getLastD_reverse] at other
      exact keepPrev y (fun same => fresh (same ▸ mem_reverse_append member)) other
  · exact distinct
  · have size : (pre ++ node :: post).length = (pre ++ post).length + 1 := by simp; omega
    have num := rep.num
    rw [size] at num
    rw [unlinked, atomicAdd]
    dsimp only [listUnlink, setNext, setPrev]
    rw [num, int32_add_int32]
    congr 1
    omega
  · intro x member
    rcases List.mem_cons.mp member with rfl | member
    · exact ⟨fresh, (unlinked_next ..).trans (if_pos rfl), (unlinked_prev ..).trans (if_pos rfl)⟩
    · obtain ⟨outside, selfNext, selfPrev⟩ := rep.alone x member
      have outside' : x ∉ node :: head :: (pre ++ post) := fun inside =>
        outside (apart.mem_iff.mpr inside)
      rw [List.mem_cons, not_or] at outside'
      obtain ⟨other, outside'⟩ := outside'
      refine ⟨outside', ?_, ?_⟩
      · exact (keepNext x other fun same => outside' (same ▸ left)).trans selfNext
      · exact (keepPrev x other fun same => outside' (same ▸ right)).trans selfPrev

end Neighbours

/-! ## Runs -/

/-- Each call does on the ring what it is for. -/
theorem Represents.step (rep : m.Represents head s) {op : ListOp α} {s' : ListSpec α}
    (fired : s.step head op = some s') :
    ∃ m', m.step head op = some m' ∧ m'.Represents head s' := by
  cases op with
  | lpush node =>
      rw [ListSpec.step] at fired
      split at fired
      · cases fired
      · rename_i fresh
        cases fired
        exact rep.lpush fresh
  | rpush node =>
      rw [ListSpec.step] at fired
      split at fired
      · cases fired
      · rename_i fresh
        cases fired
        exact rep.rpush fresh
  | del entry =>
      rw [ListSpec.step] at fired
      split at fired
      · rename_i member
        cases fired
        obtain ⟨linked, deleted⟩ := s
        obtain ⟨pre, post, notBefore, split, erased⟩ := List.exists_erase_eq member
        dsimp only at split erased ⊢
        rw [erased]
        rw [split] at rep
        exact rep.del
      · cases fired

theorem Represents.run (rep : m.Represents head s) {ops : List (ListOp α)} {s' : ListSpec α}
    (ran : runEvents (ListSpec.step head) s ops = some s') :
    ∃ m', runEvents (ListMem.step head) m ops = some m' ∧ m'.Represents head s' := by
  induction ops generalizing m s with
  | nil =>
      cases ran
      exact ⟨m, rfl, rep⟩
  | cons op ops ih =>
      obtain ⟨mid, fired, ran⟩ := Option.bind_eq_some_iff.mp ran
      obtain ⟨m', fired', rep'⟩ := rep.step fired
      obtain ⟨m'', ran', rep''⟩ := ih rep' ran
      refine ⟨m'', ?_, rep''⟩
      rw [runEvents, fired']
      exact ran'

/-! ## Loops -/

/-- A loop over a chain visits its nodes. -/
theorem forEach_eq {next : α → Option α} {x : α} {xs : List α} (chain : Chain next head x xs)
    {fuel : Nat} (enough : xs.length < fuel) :
    forEach next head fuel (xs.headD head) = some xs := by
  induction xs generalizing x fuel with
  | nil =>
      obtain ⟨fuel, rfl⟩ := Nat.exists_eq_succ_of_ne_zero (by omega : fuel ≠ 0)
      exact if_pos rfl
  | cons y xs ih =>
      rw [List.length_cons] at enough
      obtain ⟨fuel, rfl⟩ := Nat.exists_eq_succ_of_ne_zero (by omega : fuel ≠ 0)
      have rest := ih chain.2.2 (show xs.length < fuel by omega)
      rw [List.headD_cons, forEach, if_neg chain.2.1, chain.2.2.next_eq]
      simp only [Option.bind_eq_bind, Option.bind_some, rest]

theorem listForEach_eq {next : α → Option α} {xs : List α} (chain : Chain next head head xs)
    {fuel : Nat} (enough : xs.length < fuel) : listForEach next head fuel = some xs := by
  rw [listForEach, chain.next_eq]
  exact forEach_eq chain enough

omit [DecidableEq α] in
theorem Represents.next_headD {kept rest deleted : List α}
    (rep : m.Represents head ⟨kept ++ rest, deleted⟩) :
    ∃ s, m.next (rest.headD head) = some s := by
  cases rest with
  | nil => exact ⟨_, rep.next.next_eq⟩
  | cons c rest => exact ⟨_, rep.next.append_right.2.2.next_eq⟩

/-- The loop that deletes the chosen nodes.  The nodes before the carriage have been visited
and those of them that are kept are `kept`; `s'` is the node after the carriage. -/
theorem Represents.forEachSafe (chosen : α → Bool) {kept rest deleted : List α} {s' : α}
    (rep : m.Represents head ⟨kept ++ rest, deleted⟩)
    (ahead : m.next (rest.headD head) = some s') {fuel : Nat} (enough : rest.length < fuel) :
    ∃ m', ListMem.forEachSafe head chosen fuel m (rest.headD head) s' = some (rest, m') ∧
      m'.Represents head ⟨kept ++ rest.filter (fun x => ¬ chosen x),
        (rest.filter chosen).reverse ++ deleted⟩ := by
  induction rest generalizing m kept deleted s' fuel with
  | nil =>
      obtain ⟨fuel, rfl⟩ := Nat.exists_eq_succ_of_ne_zero (by omega : fuel ≠ 0)
      exact ⟨m, if_pos rfl, rep⟩
  | cons c rest ih =>
      rw [List.length_cons] at enough
      obtain ⟨fuel, rfl⟩ := Nat.exists_eq_succ_of_ne_zero (by omega : fuel ≠ 0)
      have notHead : c ≠ head := by
        intro same
        refine (List.nodup_cons.mp rep.nodup).1 ?_
        rw [← same]
        exact List.mem_append_right kept List.mem_cons_self
      have follows : s' = rest.headD head :=
        Option.some.inj (ahead.symm.trans rep.next.append_right.2.2.next_eq)
      subst follows
      rw [List.headD_cons, ListMem.forEachSafe, if_neg notHead]
      cases pick : chosen c with
      | true =>
          obtain ⟨m₁, deletes, rep₁⟩ := rep.del
          obtain ⟨s₁, ahead₁⟩ := rep₁.next_headD
          obtain ⟨m', looped, rep'⟩ := ih rep₁ ahead₁ (show rest.length < fuel by omega)
          refine ⟨m', ?_, ?_⟩
          · rw [if_pos rfl, deletes]
            simp only [Option.bind_eq_bind, Option.bind_some, ahead₁, looped]
          · simpa [pick] using rep'
      | false =>
          have rep₁ : m.Represents head ⟨(kept ++ [c]) ++ rest, deleted⟩ := by
            rw [List.append_assoc]
            exact rep
          obtain ⟨s₁, ahead₁⟩ := rep₁.next_headD
          obtain ⟨m', looped, rep'⟩ := ih rep₁ ahead₁ (show rest.length < fuel by omega)
          refine ⟨m', ?_, ?_⟩
          · rw [if_neg Bool.false_ne_true]
            simp only [Option.bind_eq_bind, Option.bind_some, ahead₁, looped]
          · simpa [pick] using rep'

theorem Represents.listForEachSafe (rep : m.Represents head s) (chosen : α → Bool) {fuel : Nat}
    (enough : s.linked.length < fuel) :
    ∃ m', m.listForEachSafe head chosen fuel = some (s.linked, m') ∧
      m'.Represents head ⟨s.linked.filter (fun x => ¬ chosen x),
        (s.linked.filter chosen).reverse ++ s.deleted⟩ := by
  obtain ⟨linked, deleted⟩ := s
  have start : m.Represents head ⟨[] ++ linked, deleted⟩ := rep
  obtain ⟨s', ahead⟩ := start.next_headD
  obtain ⟨m', looped, rep'⟩ := start.forEachSafe chosen ahead enough
  refine ⟨m', ?_, rep'⟩
  rw [ListMem.listForEachSafe, rep.next.next_eq, Option.bind_eq_bind, Option.bind_some, ahead]
  exact looped

/-! ## The list is the sequence -/

/-- What a program sees of a list: the loop over `next` gives the sequence, the one over `prev`
its reverse, the counter its length as an `int`, and the deleted nodes point to themselves. -/
structure Shows (m : ListMem α) (head : α) (s : ListSpec α) : Prop where
  forward : ∀ fuel, s.linked.length < fuel → listForEach m.next head fuel = some s.linked
  backward : ∀ fuel, s.linked.length < fuel →
    listForEach m.prev head fuel = some s.linked.reverse
  length : m.listLength = int32 s.linked.length
  alone : ∀ x ∈ s.deleted, m.next x = some x ∧ m.prev x = some x

theorem Represents.shows (rep : m.Represents head s) : m.Shows head s := by
  refine ⟨?_, ?_, rep.num, fun x member => (rep.alone x member).2⟩
  · intro fuel enough
    exact listForEach_eq rep.next enough
  · intro fuel enough
    exact listForEach_eq rep.prev (by rwa [List.length_reverse])

/-- Every run of calls on the pointers shows the sequence of the calls.  A deleted node can be
pushed again at either end, and a loop that deletes the nodes of any choice visits each node
once, in order, and leaves the others. -/
theorem list_refines (m₀ : ListMem α) (head : α) {ops : List (ListOp α)} {s : ListSpec α}
    (ran : runEvents (ListSpec.step head) ⟨[], []⟩ ops = some s) :
    ∃ m, runEvents (step head) (m₀.listHeadInit head) ops = some m ∧ m.Shows head s ∧
      (∀ x ∈ s.deleted,
        (∃ m', m.listLpush head x = some m' ∧
          m'.Shows head ⟨x :: s.linked, s.deleted.filter (· ≠ x)⟩) ∧
        ∃ m', m.listRpush head x = some m' ∧
          m'.Shows head ⟨s.linked ++ [x], s.deleted.filter (· ≠ x)⟩) ∧
      ∀ (chosen : α → Bool) (fuel : Nat), s.linked.length < fuel →
        ∃ m', m.listForEachSafe head chosen fuel = some (s.linked, m') ∧
          m'.Shows head ⟨s.linked.filter (fun x => ¬ chosen x),
            (s.linked.filter chosen).reverse ++ s.deleted⟩ := by
  obtain ⟨m, ran', rep⟩ := (init_represents m₀ head).run ran
  refine ⟨m, ran', rep.shows, ?_, ?_⟩
  · intro x member
    have fresh := (rep.alone x member).1
    obtain ⟨left, pushedLeft, repLeft⟩ := rep.lpush fresh
    obtain ⟨right, pushedRight, repRight⟩ := rep.rpush fresh
    exact ⟨⟨left, pushedLeft, repLeft.shows⟩, right, pushedRight, repRight.shows⟩
  · intro chosen fuel enough
    obtain ⟨m', looped, rep'⟩ := rep.listForEachSafe chosen enough
    exact ⟨m', looped, rep'.shows⟩

/-- Two nodes are pushed, one is deleted and pushed again at the other end. -/
def pushAgain : List (ListOp Nat) := [.rpush 1, .lpush 2, .del 1, .lpush 1]

theorem list_refines_pushAgain :
    ∃ m, runEvents (step 0) ((⟨fun _ => none, fun _ => none, 0⟩ : ListMem Nat).listHeadInit 0)
      pushAgain = some m ∧ m.Shows 0 ⟨[1, 2], []⟩ := by
  have ran : runEvents (ListSpec.step 0) ⟨[], []⟩ pushAgain = some ⟨[1, 2], []⟩ := rfl
  obtain ⟨m, ran, shows, -⟩ := list_refines ⟨fun _ => none, fun _ => none, 0⟩ 0 ran
  exact ⟨m, ran, shows⟩

theorem run_rpush {linked nodes : List α} (distinct : (head :: (linked ++ nodes)).Nodup) :
    runEvents (ListSpec.step head) ⟨linked, []⟩ (nodes.map .rpush) =
      some ⟨linked ++ nodes, []⟩ := by
  induction nodes generalizing linked with
  | nil => rw [List.append_nil, List.map_nil, runEvents]
  | cons node nodes ih =>
      have regroup : linked ++ node :: nodes = (linked ++ [node]) ++ nodes := by simp
      have fresh : node ∉ head :: linked := by
        have grouped : (head :: linked ++ node :: nodes).Nodup := distinct
        intro member
        exact (List.nodup_append.mp grouped).2.2 node member node List.mem_cons_self rfl
      rw [regroup] at distinct ⊢
      rw [List.map_cons, runEvents, ListSpec.step, if_neg fresh]
      exact ih distinct

/-- After `2^31` nodes have been pushed the counter is not their number. -/
theorem listLength_wraps :
    ∃ (ops : List (ListOp Nat)) (s : ListSpec Nat) (m : ListMem Nat),
      runEvents (ListSpec.step 0) ⟨[], []⟩ ops = some s ∧
      runEvents (step 0) ((⟨fun _ => none, fun _ => none, 0⟩ : ListMem Nat).listHeadInit 0) ops =
        some m ∧
      s.linked.length = 2 ^ 31 ∧ m.listLength ≠ s.linked.length := by
  have distinct : (0 :: ([] ++ List.range' 1 (2 ^ 31))).Nodup := by
    refine List.nodup_cons.mpr ⟨?_, List.nodup_range'⟩
    intro member
    have low := (List.mem_range'_1.mp member).1
    omega
  have ran := run_rpush distinct
  obtain ⟨m, ran', rep⟩ := (init_represents ⟨fun _ => none, fun _ => none, 0⟩ 0).run ran
  have size : ([] ++ List.range' 1 (2 ^ 31)).length = 2 ^ 31 := List.length_range'
  refine ⟨_, _, m, ran, ran', size, ?_⟩
  intro same
  have below := int32_lt ((2 ^ 31 : Nat) : Int)
  have num := rep.num
  rw [size] at num same
  rw [listLength, num] at same
  rw [same] at below
  omega

end ListMem

end XFireDB
