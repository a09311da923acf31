import Mathlib

/-!
# Maps in insertion order

A list of pairs with `put` and `unbind`: a new key goes to the end, a known key
keeps its place, as in a hash that remembers the order of insertion.
-/

namespace XFireDB.Lib

section Ordered

variable {κ ν : Type} [DecidableEq κ]

/-- Bind a key. -/
def put (l : List (κ × ν)) (k : κ) (v : ν) : List (κ × ν) :=
  if k ∈ l.map Prod.fst then l.map fun p => if p.1 = k then (k, v) else p else l ++ [(k, v)]

/-- Unbind a key. -/
def unbind (l : List (κ × ν)) (k : κ) : List (κ × ν) := l.filter (·.1 ≠ k)

variable [BEq κ] [LawfulBEq κ]

theorem lookup_replace (l : List (κ × ν)) (k k' : κ) (v : ν) :
    (l.map fun p => if p.1 = k then (k, v) else p).lookup k' =
      if k' = k then (l.lookup k).map fun _ => v else l.lookup k' := by
  induction l with
  | nil => simp
  | cons p l ih =>
      obtain ⟨k₁, v₁⟩ := p
      rw [List.map_cons]
      by_cases here : k₁ = k
      · subst here
        by_cases same : k' = k₁
        · subst same
          simp
        · have other : (k' == k₁) = false := by simpa using same
          rw [if_pos rfl, List.lookup_cons, other, ih, if_neg same, if_neg same, List.lookup_cons,
            other]
      · rw [if_neg here]
        by_cases first : k' = k₁
        · subst first
          simp [here]
        · have other : (k' == k₁) = false := by simpa using first
          have apart : (k == k₁) = false := by simpa using fun same => here (Eq.symm same)
          rw [List.lookup_cons, other, ih, List.lookup_cons, apart, List.lookup_cons, other]

theorem lookup_put (l : List (κ × ν)) (k k' : κ) (v : ν) :
    (put l k v).lookup k' = if k' = k then some v else l.lookup k' := by
  unfold put
  by_cases known : k ∈ l.map Prod.fst
  · rw [if_pos known, lookup_replace]
    have bound : (l.lookup k).isSome := by
      obtain ⟨p, member, rfl⟩ := List.mem_map.mp known
      exact List.lookup_isSome_iff.mpr ⟨p, member, by simp⟩
    obtain ⟨old, found⟩ := Option.isSome_iff_exists.mp bound
    rw [found, Option.map_some]
  · rw [if_neg known, List.lookup_append]
    by_cases same : k' = k
    · subst same
      have missing : l.lookup k' = none := by
        rw [List.lookup_eq_none_iff]
        intro p member
        simpa using fun same : k' = p.1 => known (List.mem_map.mpr ⟨p, member, same.symm⟩)
      simp [missing]
    · have other : (k' == k) = false := by simpa using same
      simp [List.lookup_cons, other, same]

theorem lookup_unbind (l : List (κ × ν)) (k k' : κ) :
    (unbind l k).lookup k' = if k' = k then none else l.lookup k' := by
  unfold unbind
  induction l with
  | nil => simp
  | cons p l ih =>
      obtain ⟨k₁, v₁⟩ := p
      by_cases here : k₁ = k
      · subst here
        rw [List.filter_cons_of_neg (by simp), ih]
        by_cases same : k' = k₁
        · rw [if_pos same, if_pos same]
        · have other : (k' == k₁) = false := by simpa using same
          rw [if_neg same, if_neg same, List.lookup_cons, other]
      · rw [List.filter_cons_of_pos (by simpa using here)]
        by_cases first : k' = k₁
        · subst first
          simp [here]
        · have other : (k' == k₁) = false := by simpa using first
          rw [List.lookup_cons, other, ih, List.lookup_cons, other]

end Ordered

end XFireDB.Lib
