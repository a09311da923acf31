import Mathlib

/-!
# Pointer chains

A pointer structure is a partial function `next`: `none` is a read through a
null or dangling pointer.  `Chain next stop x ys` says that following `next`
from `x` visits `ys` and then `stop`, the node that closes the chain.

`walk` is the loop `while(test(x->next)) x = x->next`.  Its fuel counts the
tests; a walk that tests more nodes than there are has met one of them twice
and never ends.
-/

namespace XFireDB.Lib

/-- Why a computation over pointers has no result. -/
inductive Fault
  /-- a loop that does not end -/
  | diverge
  /-- a read or write through a null or dangling pointer -/
  | badAccess
deriving DecidableEq, Repr

/-- A pointer read. -/
def access {α : Type} : Option α → Except Fault α
  | some a => .ok a
  | none => .error .badAccess

@[simp] theorem access_some {α : Type} (a : α) : access (some a) = .ok a := rfl

@[simp] theorem access_none {α : Type} : access (none : Option α) = .error .badAccess := rfl

variable {α : Type}

/-- Following `next` from `x` visits the listed nodes and then `stop`. -/
def Chain (next : α → Option α) (stop : α) : α → List α → Prop
  | x, [] => next x = some stop
  | x, y :: ys => next x = some y ∧ y ≠ stop ∧ Chain next stop y ys

instance Chain.decidable [DecidableEq α] (next : α → Option α) (stop : α) :
    ∀ (x : α) (ys : List α), Decidable (Chain next stop x ys)
  | x, [] => inferInstanceAs (Decidable (next x = some stop))
  | x, y :: ys =>
      have := Chain.decidable next stop y ys
      inferInstanceAs (Decidable (next x = some y ∧ y ≠ stop ∧ Chain next stop y ys))

section Chain

variable {next next' : α → Option α} {stop : α}

theorem Chain.next_eq {x : α} {ys : List α} (chain : Chain next stop x ys) :
    next x = some (ys.headD stop) := by
  cases ys with
  | nil => exact chain
  | cons y ys => exact chain.1

theorem Chain.stop_not_mem {x : α} {ys : List α} (chain : Chain next stop x ys) :
    stop ∉ ys := by
  induction ys generalizing x with
  | nil => exact List.not_mem_nil
  | cons y ys ih =>
      intro member
      rcases List.mem_cons.mp member with same | later
      · exact chain.2.1 same.symm
      · exact ih chain.2.2 later

/-- A chain is the only one from its start. -/
theorem Chain.unique {x : α} {ys zs : List α} (first : Chain next stop x ys)
    (second : Chain next stop x zs) : ys = zs := by
  induction ys generalizing x zs with
  | nil =>
      cases zs with
      | nil => rfl
      | cons z zs =>
          have same := first.symm.trans second.1
          exact absurd (Option.some.inj same).symm second.2.1
  | cons y ys ih =>
      cases zs with
      | nil =>
          have same := first.1.symm.trans second
          exact absurd (Option.some.inj same) first.2.1
      | cons z zs =>
          obtain rfl := Option.some.inj (first.1.symm.trans second.1)
          rw [ih first.2.2 second.2.2]

/-- A chain cut in two: the second part starts at the last node of the first. -/
theorem Chain.append_right {x : α} {pre post : List α}
    (chain : Chain next stop x (pre ++ post)) : Chain next stop (pre.getLastD x) post := by
  induction pre generalizing x with
  | nil => exact chain
  | cons y pre ih =>
      rw [List.getLastD_cons]
      exact ih chain.2.2

/-- A chain only depends on the pointers of the nodes before its end. -/
theorem Chain.congr {x : α} {ys : List α} (same : ∀ y ∈ x :: ys, next' y = next y)
    (chain : Chain next stop x ys) : Chain next' stop x ys := by
  induction ys generalizing x with
  | nil => exact (same x List.mem_cons_self).trans chain
  | cons y ys ih =>
      refine ⟨(same x List.mem_cons_self).trans chain.1, chain.2.1, ?_⟩
      exact ih (fun z member => same z (List.mem_cons_of_mem x member)) chain.2.2

/-- A node that takes over the pointer of another one starts the same chain. -/
theorem Chain.restart {x y : α} {ys : List α} (chain : Chain next stop x ys)
    (start : next' y = next x) (same : ∀ z ∈ ys, next' z = next z) : Chain next' stop y ys := by
  cases ys with
  | nil => exact start.trans chain
  | cons z ys => exact ⟨start.trans chain.1, chain.2.1, chain.2.2.congr same⟩

/-- Replace what follows the first part of a chain.  Only the last pointer of
the first part changes. -/
theorem Chain.replace {x : α} {pre post post' : List α}
    (chain : Chain next stop x (pre ++ post)) (distinct : (x :: pre).Nodup)
    (same : ∀ y ∈ x :: pre, y ≠ pre.getLastD x → next' y = next y)
    (rest : Chain next' stop (pre.getLastD x) post') : Chain next' stop x (pre ++ post') := by
  induction pre generalizing x with
  | nil => exact rest
  | cons y pre ih =>
      rw [List.getLastD_cons] at rest
      obtain ⟨fresh, distinct⟩ := List.nodup_cons.mp distinct
      have moved : x ≠ (y :: pre).getLastD x := by
        intro here
        apply fresh
        rw [here, List.getLastD_cons]
        exact List.getLastD_mem_cons ..
      refine ⟨?_, chain.2.1, ?_⟩
      · rw [same x List.mem_cons_self moved]
        exact chain.1
      · apply ih chain.2.2 distinct ?_ rest
        intro z member other
        apply same z (List.mem_cons_of_mem x member)
        rwa [List.getLastD_cons]

section Splice

variable {x n : α} {pre post : List α}

/-- Nodes of the second part are not the one the second part hangs on. -/
theorem ne_getLastD_of_nodup (distinct : (x :: pre ++ post).Nodup) {y : α} (member : y ∈ post) :
    y ≠ pre.getLastD x := by
  have apart := (List.nodup_append.mp distinct).2.2
  exact (apart _ (List.getLastD_mem_cons ..) y member).symm

/-- Link a node between the two parts of a chain. -/
theorem Chain.insert (chain : Chain next stop x (pre ++ post))
    (distinct : (x :: pre ++ post).Nodup) (inner : n ≠ stop)
    (linked : next' (pre.getLastD x) = some n) (after : next' n = next (pre.getLastD x))
    (same : ∀ y ∈ x :: pre ++ post, y ≠ pre.getLastD x → next' y = next y) :
    Chain next' stop x (pre ++ n :: post) := by
  apply chain.replace (List.nodup_append.mp distinct).1
  · intro y member
    exact same y (List.mem_append_left post member)
  · refine ⟨linked, inner, chain.append_right.restart after ?_⟩
    intro z member
    exact same z (List.mem_append_right _ member) (ne_getLastD_of_nodup distinct member)

/-- Unlink the node between the two parts of a chain. -/
theorem Chain.remove (chain : Chain next stop x (pre ++ n :: post))
    (distinct : (x :: pre ++ post).Nodup) (linked : next' (pre.getLastD x) = next n)
    (same : ∀ y ∈ x :: pre ++ post, y ≠ pre.getLastD x → next' y = next y) :
    Chain next' stop x (pre ++ post) := by
  apply chain.replace (List.nodup_append.mp distinct).1
  · intro y member
    exact same y (List.mem_append_left post member)
  · apply chain.append_right.2.2.restart linked
    intro z member
    exact same z (List.mem_append_right _ member) (ne_getLastD_of_nodup distinct member)

end Splice

end Chain

/-! ## Walking -/

/-- The loop `while(test(x->next)) x = x->next`. -/
def walk (next : α → Option α) (test : α → Option Bool) : Nat → α → Except Fault α
  | 0, _ => .error .diverge
  | fuel + 1, x => do
      let y ← access (next x)
      if ← access (test y) then walk next test fuel y else .ok x

section Walk

variable {next : α → Option α} {test : α → Option Bool} {stop : α}

theorem walk_succ {x y : α} (fuel : Nat) (here : next x = some y) (go : test y = some true) :
    walk next test (fuel + 1) x = walk next test fuel y := by
  simp only [walk, here, go, access_some, bind, Except.bind, if_true]

/-- A walk over passed nodes ends before the first one that is not passed. -/
theorem walk_eq_ok {x : α} {pre post : List α} {fuel : Nat}
    (chain : Chain next stop x (pre ++ post)) (passed : ∀ y ∈ pre, test y = some true)
    (stopped : test (post.headD stop) = some false) (enough : pre.length < fuel) :
    walk next test fuel x = .ok (pre.getLastD x) := by
  induction pre generalizing x fuel with
  | nil =>
      obtain ⟨fuel, rfl⟩ := Nat.exists_eq_succ_of_ne_zero (by omega : fuel ≠ 0)
      have here : next x = some (post.headD stop) := chain.next_eq
      simp only [walk, here, stopped, access_some, bind, Except.bind]
      rfl
  | cons y pre ih =>
      obtain ⟨fuel, rfl⟩ := Nat.exists_eq_succ_of_ne_zero (by omega : fuel ≠ 0)
      rw [walk_succ fuel chain.1 (passed y List.mem_cons_self), List.getLastD_cons]
      apply ih chain.2.2
      · intro z member
        exact passed z (List.mem_cons_of_mem y member)
      · simp only [List.length_cons] at enough
        omega

/-- A walk that passes every node reaches the closing one, and fails where that
one cannot be tested. -/
theorem walk_eq_badAccess {x : α} {ys : List α} {fuel : Nat} (chain : Chain next stop x ys)
    (passed : ∀ y ∈ ys, test y = some true) (broken : test stop = none)
    (enough : ys.length < fuel) : walk next test fuel x = .error .badAccess := by
  induction ys generalizing x fuel with
  | nil =>
      obtain ⟨fuel, rfl⟩ := Nat.exists_eq_succ_of_ne_zero (by omega : fuel ≠ 0)
      have here : next x = some stop := chain
      simp only [walk, here, broken, access_some, access_none, bind, Except.bind]
  | cons y ys ih =>
      obtain ⟨fuel, rfl⟩ := Nat.exists_eq_succ_of_ne_zero (by omega : fuel ≠ 0)
      rw [walk_succ fuel chain.1 (passed y List.mem_cons_self)]
      apply ih chain.2.2
      · intro z member
        exact passed z (List.mem_cons_of_mem y member)
      · simp only [List.length_cons] at enough
        omega

end Walk

end XFireDB.Lib
