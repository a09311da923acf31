import Mathlib

/-!
# Trails to null

A nullable pointer is an `Option`.  `Trail next p xs` says that following `next`
from the pointer `p` visits `xs` and then null.  The two ends of a trail can be
extended and cut, which is what a doubly linked queue does to its two trails.
-/

namespace XFireDB.Lib

variable {α : Type}

/-- Following `next` from `p` visits the listed nodes and then null. -/
def Trail (next : α → Option α) : Option α → List α → Prop
  | p, [] => p = none
  | p, x :: xs => p = some x ∧ Trail next (next x) xs

variable {next next' : α → Option α} {p : Option α} {x y : α} {xs : List α}

theorem Trail.start_eq (trail : Trail next p xs) : p = xs.head? := by
  cases xs with
  | nil => exact trail
  | cons x xs => exact trail.1

/-- A trail is the only one from its start. -/
theorem Trail.unique {ys : List α} (first : Trail next p xs) (second : Trail next p ys) :
    xs = ys := by
  induction xs generalizing p ys with
  | nil =>
      cases ys with
      | nil => rfl
      | cons y ys =>
          obtain rfl : p = none := first
          cases second.1
  | cons x xs ih =>
      obtain ⟨rfl, rest⟩ := first
      cases ys with
      | nil => cases second
      | cons y ys =>
          obtain ⟨same, rest'⟩ := second
          obtain rfl := Option.some.inj same
          rw [ih rest rest']

/-- A trail only depends on the pointers of its nodes. -/
theorem Trail.congr (same : ∀ x ∈ xs, next' x = next x) (trail : Trail next p xs) :
    Trail next' p xs := by
  induction xs generalizing p with
  | nil => exact trail
  | cons x xs ih =>
      refine ⟨trail.1, ?_⟩
      rw [same x List.mem_cons_self]
      exact ih (fun y member => same y (List.mem_cons_of_mem x member)) trail.2

/-- A new node is hung on the end of a trail. -/
theorem Trail.hang (trail : Trail next p (xs ++ [x])) (same : ∀ z ∈ xs, next' z = next z)
    (link : next' x = some y) (last : next' y = none) : Trail next' p (xs ++ [x, y]) := by
  induction xs generalizing p with
  | nil => exact ⟨trail.1, link, last⟩
  | cons z xs ih =>
      refine ⟨trail.1, ?_⟩
      rw [same z List.mem_cons_self]
      exact ih trail.2 fun w member => same w (List.mem_cons_of_mem z member)

/-- The end of a trail is cut off. -/
theorem Trail.cut (trail : Trail next p (xs ++ [x, y])) (same : ∀ z ∈ xs, next' z = next z)
    (last : next' x = none) : Trail next' p (xs ++ [x]) := by
  induction xs generalizing p with
  | nil => exact ⟨trail.1, last⟩
  | cons z xs ih =>
      refine ⟨trail.1, ?_⟩
      rw [same z List.mem_cons_self]
      exact ih trail.2 fun w member => same w (List.mem_cons_of_mem z member)

end XFireDB.Lib
