import Mathlib

/-!
# Items that are each in exactly one place

`Moves before after p q X` says that the items `X` go from place `p` to place `q`
and nothing else changes.  A move keeps the property that every item has exactly
one place.
-/

namespace XFireDB.Lib

variable {P S : Type}

/-- Every item of `all` is in exactly one place, and no other item is anywhere. -/
structure Partitioned (all : Set S) (held : P → Set S) : Prop where
  unique : ∀ x ∈ all, ∃! p, x ∈ held p
  inside : ∀ p, held p ⊆ all

/-- The items `X` move from `p` to `q`. -/
structure Moves (before after : P → Set S) (p q : P) (X : Set S) : Prop where
  distinct : p ≠ q
  taken : X ⊆ before p
  source : after p = before p \ X
  target : after q = before q ∪ X
  others : ∀ r, r ≠ p → r ≠ q → after r = before r

variable {all : Set S} {before after : P → Set S} {p q : P} {X : Set S}

theorem Moves.mem_of_mem (moves : Moves before after p q X) {x : S} (outside : x ∉ X) (r : P) :
    x ∈ after r ↔ x ∈ before r := by
  by_cases isSource : r = p
  · rw [isSource, moves.source, Set.mem_sdiff]
    exact ⟨And.left, fun old => ⟨old, outside⟩⟩
  by_cases isTarget : r = q
  · rw [isTarget, moves.target, Set.mem_union]
    exact ⟨fun new => new.resolve_right outside, Or.inl⟩
  · rw [moves.others r isSource isTarget]

theorem Moves.mem_moved (moves : Moves before after p q X) {x : S} (moved : x ∈ X)
    (only : ∀ r, x ∈ before r → r = p) (r : P) : x ∈ after r ↔ r = q := by
  by_cases isTarget : r = q
  · rw [isTarget, moves.target, Set.mem_union]
    exact ⟨fun _ => rfl, fun _ => Or.inr moved⟩
  by_cases isSource : r = p
  · rw [isSource, moves.source, Set.mem_sdiff]
    exact ⟨fun stays => absurd moved stays.2, fun same => absurd same moves.distinct⟩
  · rw [moves.others r isSource isTarget]
    exact ⟨fun old => absurd (only r old) isSource, fun same => absurd same isTarget⟩

theorem Partitioned.moves (part : Partitioned all before) (moves : Moves before after p q X) :
    Partitioned all after := by
  have places : ∀ x ∈ all, ∃! r, x ∈ after r := by
    intro x member
    by_cases moved : x ∈ X
    · have only : ∀ r, x ∈ before r → r = p :=
        fun r old => (part.unique x member).unique old (moves.taken moved)
      exact ⟨q, (moves.mem_moved moved only q).mpr rfl,
        fun r new => (moves.mem_moved moved only r).mp new⟩
    · simpa only [moves.mem_of_mem moved] using part.unique x member
  refine ⟨places, ?_⟩
  intro r x new
  by_cases moved : x ∈ X
  · exact part.inside p (moves.taken moved)
  · exact part.inside r ((moves.mem_of_mem moved r).mp new)

end XFireDB.Lib
