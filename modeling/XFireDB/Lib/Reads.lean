import Mathlib

/-!
# Reading from a stream in pieces

A read asks for some number of symbols, and the transport gives any positive
number up to that.  `Transport` is the choice of these numbers, read by read, and
`complete` is the transport that always gives everything.  A sequence of reads ends
where complete reads end exactly if all of them are complete.
-/

namespace XFireDB.Lib

variable {α : Type}

/-- How many symbols the reads give: `count i n` for the `i`-th read, if it asks for
`n`. -/
structure Transport where
  count : Nat → Nat → Nat
  pos : ∀ i n, 0 < n → 0 < count i n
  le : ∀ i n, count i n ≤ n

namespace Transport

/-- Every read gives what it is asked for. -/
def complete : Transport := ⟨fun _ n => n, fun _ _ pos => pos, fun _ _ => le_rfl⟩

theorem count_one (t : Transport) (i : Nat) : t.count i 1 = 1 :=
  le_antisymm (t.le i 1) (t.pos i 1 Nat.one_pos)

end Transport

/-- What is still to be read, and how many reads there have been. -/
structure Stream (α : Type) where
  rest : List α
  clock : Nat

namespace Stream

variable (t : Transport)

/-- One read of up to `n` symbols. -/
def recv (s : Stream α) (n : Nat) : List α × Stream α :=
  (s.rest.take (t.count s.clock n), ⟨s.rest.drop (t.count s.clock n), s.clock + 1⟩)

/-- One read for each size. -/
def recvAll (s : Stream α) : List Nat → List (List α) × Stream α
  | [] => ([], s)
  | n :: ns => ((s.recv t n).1 :: ((s.recv t n).2.recvAll ns).1, ((s.recv t n).2.recvAll ns).2)

/-- A read of one symbol. -/
theorem recv_one (x : α) (rest : List α) (i : Nat) :
    (⟨x :: rest, i⟩ : Stream α).recv t 1 = ([x], ⟨rest, i + 1⟩) := by
  simp [recv, t.count_one]

/-- The reads from the `i`-th on give what they are asked for. -/
def Full (i : Nat) : List Nat → Prop
  | [] => True
  | n :: ns => t.count i n = n ∧ Full (i + 1) ns

theorem full_complete (i : Nat) (ns : List Nat) : Full Transport.complete i ns := by
  induction ns generalizing i with
  | nil => trivial
  | cons n ns ih => exact ⟨rfl, ih (i + 1)⟩

/-- How many symbols the reads take. -/
def taken (i : Nat) : List Nat → Nat
  | [] => 0
  | n :: ns => t.count i n + taken (i + 1) ns

theorem taken_le (i : Nat) (ns : List Nat) : taken t i ns ≤ ns.sum := by
  induction ns generalizing i with
  | nil => exact le_rfl
  | cons n ns ih =>
      rw [taken, List.sum_cons]
      exact Nat.add_le_add (t.le i n) (ih (i + 1))

theorem taken_eq_sum_iff (i : Nat) (ns : List Nat) : taken t i ns = ns.sum ↔ Full t i ns := by
  induction ns generalizing i with
  | nil => exact iff_of_true rfl trivial
  | cons n ns ih =>
      have here := t.le i n
      have later := taken_le t (i + 1) ns
      rw [taken, List.sum_cons, Full, ← ih]
      omega

theorem rest_recvAll (s : Stream α) (ns : List Nat) :
    (s.recvAll t ns).2.rest = s.rest.drop (taken t s.clock ns) := by
  induction ns generalizing s with
  | nil => rw [recvAll, taken, List.drop_zero]
  | cons n ns ih => rw [recvAll, ih, recv, taken, List.drop_drop]

/-- Complete reads take a stream of frames apart. -/
theorem recvAll_of_full (frames : List (List α)) (later : List α) (i : Nat)
    (full : Full t i (frames.map List.length)) :
    (⟨frames.flatten ++ later, i⟩ : Stream α).recvAll t (frames.map List.length) =
      (frames, ⟨later, i + frames.length⟩) := by
  induction frames generalizing i with
  | nil => rfl
  | cons frame frames ih =>
      obtain ⟨here, rest⟩ := full
      have first : (⟨(frame :: frames).flatten ++ later, i⟩ : Stream α).recv t frame.length =
          (frame, ⟨frames.flatten ++ later, i + 1⟩) := by
        simp [recv, here, List.flatten_cons, List.append_assoc]
      rw [List.map_cons, recvAll, first, ih (i + 1) rest, List.length_cons, Nat.add_right_comm,
        ← Nat.add_assoc]

end Stream

end XFireDB.Lib
