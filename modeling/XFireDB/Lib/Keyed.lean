import Mathlib

/-!
# Records with distinct keys, spread over buckets

A list of records whose keys are distinct denotes a partial map, whatever the
order of the list.  The first section reads that map off with `find?`; the
second moves records between the buckets of a bucket array.
-/

namespace XFireDB.Lib

section Keyed

variable {α κ : Type} [DecidableEq κ] (key : α → κ)

/-- The record with a given key. -/
def lookupKey (l : List α) (k : κ) : Option α := l.find? fun e => key e = k

variable {key}

theorem lookupKey_eq_some {l : List α} (distinct : (l.map key).Nodup) {k : κ} {e : α} :
    lookupKey key l k = some e ↔ e ∈ l ∧ key e = k := by
  induction l with
  | nil => simp [lookupKey]
  | cons x l ih =>
      rw [List.map_cons, List.nodup_cons] at distinct
      obtain ⟨fresh, distinct⟩ := distinct
      by_cases same : key x = k
      · have found : lookupKey key (x :: l) k = some x := by simp [lookupKey, same]
        rw [found]
        constructor
        · intro h
          obtain rfl := Option.some.inj h
          exact ⟨List.mem_cons_self, same⟩
        · intro found
          obtain ⟨member, keyEq⟩ := found
          rcases List.mem_cons.mp member with rfl | later
          · rfl
          · exact absurd (List.mem_map.mpr ⟨e, later, keyEq.trans same.symm⟩) fresh
      · have skip : lookupKey key (x :: l) k = lookupKey key l k := by simp [lookupKey, same]
        rw [skip, ih distinct, List.mem_cons]
        constructor
        · intro found
          obtain ⟨member, keyEq⟩ := found
          exact ⟨Or.inr member, keyEq⟩
        · intro found
          rcases found with ⟨rfl | member, keyEq⟩
          · exact absurd keyEq same
          · exact ⟨member, keyEq⟩

theorem lookupKey_eq_none {l : List α} {k : κ} :
    lookupKey key l k = none ↔ ∀ e ∈ l, key e ≠ k := by
  simp [lookupKey]

/-- The denoted map does not depend on the order of the records. -/
theorem lookupKey_perm {l₁ l₂ : List α} (perm : l₁.Perm l₂) (distinct : (l₁.map key).Nodup)
    (k : κ) : lookupKey key l₁ k = lookupKey key l₂ k := by
  have distinct₂ : (l₂.map key).Nodup := (perm.map key).nodup_iff.mp distinct
  apply Option.ext
  intro e
  rw [lookupKey_eq_some distinct, lookupKey_eq_some distinct₂, perm.mem_iff]

theorem lookupKey_cons (e : α) (l : List α) (k : κ) :
    lookupKey key (e :: l) k = if key e = k then some e else lookupKey key l k := by
  by_cases same : key e = k <;> simp [lookupKey, same]

/-- Without the record of key `k` the map is undefined at `k` and unchanged
elsewhere. -/
theorem lookupKey_of_cons_nodup {e : α} {l : List α} (distinct : ((e :: l).map key).Nodup) :
    lookupKey key l (key e) = none := by
  rw [List.map_cons, List.nodup_cons] at distinct
  rw [lookupKey_eq_none]
  intro x member keyEq
  exact distinct.1 (List.mem_map.mpr ⟨x, member, keyEq⟩)

/-- Records changed in place keep their keys and their places in the map. -/
theorem lookupKey_map {u : α → α} (keeps : ∀ e, key (u e) = key e) (l : List α) (k : κ) :
    lookupKey key (l.map u) k = (lookupKey key l k).map u := by
  simp only [lookupKey, List.find?_map, Function.comp_def, keeps]

theorem key_of_lookupKey {l : List α} {k : κ} {e : α} (found : lookupKey key l k = some e) :
    key e = k := by
  simpa using List.find?_some found

end Keyed

section Buckets

variable {α : Type}

/-- Take the contents of one bucket out of the flattened array. -/
theorem flatten_perm_set_nil {a : List (List α)} {i : Nat} {c : List α}
    (here : a[i]? = some c) : a.flatten.Perm (c ++ (a.set i []).flatten) := by
  induction a generalizing i with
  | nil => simp at here
  | cons b a ih =>
      cases i with
      | zero =>
          obtain rfl : b = c := by simpa using here
          simp
      | succ i =>
          have tailHere : a[i]? = some c := by simpa using here
          simp only [List.flatten_cons, List.set_cons_succ]
          have moved : (b ++ a.flatten).Perm (b ++ (c ++ (a.set i []).flatten)) :=
            (ih tailHere).append_left b
          refine moved.trans ?_
          rw [← List.append_assoc, ← List.append_assoc]
          exact List.perm_append_comm.append_right _

/-- Replace the contents of one bucket in the flattened array. -/
theorem flatten_set_perm {a : List (List α)} {i : Nat} {c : List α} (c' : List α)
    (here : a[i]? = some c) : (a.set i c').flatten.Perm (c' ++ (a.set i []).flatten) := by
  have inside : i < a.length := (List.getElem?_eq_some_iff.mp here).1
  have there : (a.set i c')[i]? = some c' := by simp [inside]
  have := flatten_perm_set_nil there
  rwa [List.set_set] at this

end Buckets

end XFireDB.Lib
