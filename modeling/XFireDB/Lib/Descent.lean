import Mathlib

/-!
# Descending walks over nodes with heights

The nodes of a skip list in their order on the lowest level, each with a
height.  A search starts before all of them on the top level; on level `i` it
sees the nodes of height at least `i` and passes them while `go` holds, then
steps down.  A position is named by the nodes behind it, so `suf i` is what is
left when level `i` is done.

Nothing is assumed of `go`.  The last section is for the rule of a deletion in
a sequence ordered by `rank`: pass ranks up to `r`, but stop at a hit.
-/

namespace XFireDB.Lib

variable {α : Type}

/-- One level: the walk moved from before `s` to before `t`. -/
structure Level (height : α → Nat) (go : α → Prop) (i : Nat) (s t : List α) : Prop where
  moved : ∃ m, s = m ++ t ∧ (∀ a ∈ m, i ≤ height a → go a) ∧
    ∀ b, m.getLast? = some b → i ≤ height b ∧ go b
  stopped : ∀ b, t.find? (i ≤ height ·) = some b → ¬ go b

/-- All levels, from before `ns` on level `top`. -/
structure Descent (height : α → Nat) (go : α → Prop) (top : Nat) (ns : List α)
    (suf : Nat → List α) : Prop where
  start : suf (top + 1) = ns
  level : ∀ i, 1 ≤ i → i ≤ top → Level height go i (suf (i + 1)) (suf i)

section Position

/-- The node before the end of a first and a second part. -/
theorem getLastD_append (pre m : List α) (x : α) :
    (pre ++ m).getLastD x = m.getLastD (pre.getLastD x) := by
  rcases List.eq_nil_or_concat' m with rfl | ⟨front, last, rfl⟩
  · rw [List.append_nil]
    rfl
  · rw [← List.append_assoc, List.getLastD_concat, List.getLastD_concat]

/-- A filter that keeps the last node keeps the position behind it. -/
theorem getLastD_filter {p : α → Bool} {pre : List α}
    (kept : ∀ b, pre.getLast? = some b → p b = true) (x : α) :
    (pre.filter p).getLastD x = pre.getLastD x := by
  rcases List.eq_nil_or_concat' pre with rfl | ⟨front, last, rfl⟩
  · rfl
  · have keep : p last = true := kept last List.getLast?_concat
    rw [List.filter_append, List.filter_cons_of_pos keep, List.filter_nil, List.getLastD_concat,
      List.getLastD_concat]

end Position

section Level

variable {height : α → Nat} {go : α → Prop} {i : Nat}

/-- A walk over the tall nodes is a level: it ends right behind the last node
it passed. -/
theorem Level.of_filter {s passed rest : List α}
    (split : s.filter (i ≤ height ·) = passed ++ rest) (pass : ∀ a ∈ passed, go a)
    (stopped : ∀ b, rest.head? = some b → ¬ go b) :
    ∃ m t, s = m ++ t ∧ t.filter (i ≤ height ·) = rest ∧
      (∀ x, m.getLastD x = passed.getLastD x) ∧ Level height go i s t := by
  rcases List.eq_nil_or_concat' passed with rfl | ⟨front, last, rfl⟩
  · refine ⟨[], s, rfl, split, fun _ => rfl, ⟨[], rfl, by simp, by simp⟩, ?_⟩
    intro b found
    apply stopped b
    rw [List.nil_append] at split
    rw [← split, List.head?_filter]
    exact found
  · rw [List.append_assoc, List.singleton_append] at split
    obtain ⟨s₁, s₂, rfl, front_eq, back_eq⟩ := List.filter_eq_append_iff.mp split
    obtain ⟨s₃, t, rfl, skipped, tall, rest_eq⟩ := List.filter_eq_cons_iff.mp back_eq
    refine ⟨s₁ ++ s₃ ++ [last], t, by simp, rest_eq, by simp,
      ⟨s₁ ++ s₃ ++ [last], by simp, ?_, ?_⟩, ?_⟩
    · intro a member high
      rcases List.mem_append.mp member with before | same
      · rcases List.mem_append.mp before with early | late
        · apply pass a
          have kept : a ∈ s₁.filter (i ≤ height ·) :=
            List.mem_filter.mpr ⟨early, by simpa using high⟩
          rw [front_eq] at kept
          exact List.mem_append_left _ kept
        · exact absurd (by simpa using high) (skipped a late)
      · rw [List.mem_singleton.mp same]
        exact pass last (by simp)
    · intro b found
      obtain rfl : last = b := by simpa using found
      exact ⟨by simpa using tall, pass last (by simp)⟩
    · intro b found
      apply stopped b
      rw [← rest_eq, List.head?_filter]
      exact found

end Level

section Descent

variable {height : α → Nat} {go : α → Prop} {top : Nat} {ns : List α} {suf : Nat → List α}

/-- A first level on top of a descent. -/
theorem Descent.cons {s t : List α} (level : Level height go (top + 1) s t)
    (run : Descent height go top t suf) :
    Descent height go (top + 1) s (Function.update suf (top + 2) s) := by
  refine ⟨Function.update_self .., ?_⟩
  intro i low high
  rw [Function.update_of_ne (by omega : i ≠ top + 2)]
  rcases Nat.lt_or_eq_of_le high with below | rfl
  · rw [Function.update_of_ne (by omega : i + 1 ≠ top + 2)]
    exact run.level i low (by omega)
  · rw [Function.update_self, run.start]
    exact level

/-- Between the ends of two levels every node as tall as the lower one of the
levels above is passed. -/
theorem Descent.between (run : Descent height go top ns suf) {i j : Nat} (low : 1 ≤ i)
    (order : i ≤ j) (high : j ≤ top + 1) :
    ∃ m, suf j = m ++ suf i ∧ ∀ a ∈ m, j ≤ height a + 1 → go a := by
  induction j, order using Nat.le_induction with
  | base => exact ⟨[], rfl, by simp⟩
  | succ j order ih =>
      obtain ⟨m₂, eq₂, pass₂⟩ := ih (by omega)
      obtain ⟨m₁, eq₁, pass₁, _⟩ := (run.level j (by omega) (by omega)).moved
      refine ⟨m₁ ++ m₂, by rw [eq₁, eq₂, List.append_assoc], ?_⟩
      intro a member tall
      rcases List.mem_append.mp member with here | below
      · exact pass₁ a here (by omega)
      · exact pass₂ a below (by omega)

/-- Below level `i` a descent only moves over nodes that are not on level
`i`: the first of the others stopped it there. -/
theorem Descent.short_below (run : Descent height go top ns suf) {i : Nat} (low : 1 ≤ i)
    (high : i ≤ top) :
    ∃ m, suf i = m ++ suf 1 ∧ ∀ a ∈ m, height a < i := by
  obtain ⟨m, eq, pass⟩ := run.between (i := 1) (j := i) (by omega) low (by omega)
  refine ⟨m, eq, ?_⟩
  by_contra tall
  have found : (m.find? (i ≤ height ·)).isSome := by
    rw [List.find?_isSome]
    push Not at tall
    obtain ⟨a, member, le⟩ := tall
    exact ⟨a, member, by simpa using le⟩
  obtain ⟨b, first⟩ := Option.isSome_iff_exists.mp found
  have here : (suf i).find? (i ≤ height ·) = some b := by
    rw [eq, List.find?_append, first, Option.some_or]
  have le : i ≤ height b := by simpa using List.find?_some first
  apply (run.level i low high).stopped b here
  exact pass b (List.mem_of_find?_eq_some first) (by omega)

/-- A position on level `i` is behind a node of that level that was passed, or
before all nodes. -/
theorem Descent.last (run : Descent height go top ns suf) {i : Nat} (low : 1 ≤ i)
    (high : i ≤ top + 1) :
    ∃ m, ns = m ++ suf i ∧ ∀ b, m.getLast? = some b → i ≤ height b ∧ go b := by
  induction high using Nat.decreasingInduction with
  | self => exact ⟨[], by rw [run.start, List.nil_append], by simp⟩
  | of_succ i high ih =>
      obtain ⟨m₁, eq₁, last₁⟩ := ih (by omega)
      obtain ⟨m₂, eq₂, _, last₂⟩ := (run.level i low (by omega)).moved
      refine ⟨m₁ ++ m₂, by rw [List.append_assoc, ← eq₂, eq₁], ?_⟩
      intro b found
      rcases List.eq_nil_or_concat' m₂ with rfl | ⟨front, last, rfl⟩
      · rw [List.append_nil] at found
        obtain ⟨tall, pass⟩ := last₁ b found
        exact ⟨by omega, pass⟩
      · apply last₂ b
        simpa [List.getLast?_append] using found

/-- A node the descent moved over was passed, or a taller node behind it was. -/
theorem Descent.skipped (run : Descent height go top ns suf) {i : Nat} (low : 1 ≤ i)
    (high : i ≤ top + 1) :
    ∃ m, ns = m ++ suf i ∧
      ∀ u a w, m = u ++ a :: w → go a ∨ ∃ b ∈ w, height a < height b ∧ go b := by
  induction high using Nat.decreasingInduction with
  | self => exact ⟨[], by rw [run.start, List.nil_append], by simp⟩
  | of_succ i high ih =>
      obtain ⟨m₁, eq₁, skip₁⟩ := ih (by omega)
      obtain ⟨m₂, eq₂, pass₂, last₂⟩ := (run.level i low (by omega)).moved
      refine ⟨m₁ ++ m₂, by rw [List.append_assoc, ← eq₂, eq₁], ?_⟩
      intro u a w split
      have here : ∀ v, m₂ = v ++ a :: w → go a ∨ ∃ b ∈ w, height a < height b ∧ go b := by
        intro v split₂
        by_cases tall : i ≤ height a
        · exact Or.inl (pass₂ a (by simp [split₂]) tall)
        · rcases List.eq_nil_or_concat' w with rfl | ⟨front, last, rfl⟩
          · exact absurd (last₂ a (by simp [split₂])).1 tall
          · have atEnd : m₂.getLast? = some last := by
              rw [split₂, ← List.cons_append, ← List.append_assoc, List.getLast?_concat]
            obtain ⟨lastTall, lastPass⟩ := last₂ last atEnd
            exact Or.inr ⟨last, by simp, by omega, lastPass⟩
      rcases List.append_eq_append_iff.mp split with ⟨v, rfl, onLevel⟩ | ⟨v, earlier, later⟩
      · exact here v onLevel
      · rcases v with - | ⟨c, v⟩
        · exact here [] later.symm
        · obtain ⟨rfl, rfl⟩ : a = c ∧ w = v ++ m₂ := by simpa using later
          rcases skip₁ u a v earlier with pass | ⟨b, behind, taller, pass⟩
          · exact Or.inl pass
          · exact Or.inr ⟨b, List.mem_append_left _ behind, taller, pass⟩

end Descent

/-! ## Ordered sequences -/

section Ordered

variable {height rank : α → Nat} {go : α → Prop} {top : Nat} {ns : List α} {suf : Nat → List α}

/-- In front of a node on level `i` that is not passed, or at it, the level
stops. -/
theorem Level.stop_before {i : Nat} {s t : List α} (level : Level height go i s t)
    (sorted : t.Pairwise (rank · ≤ rank ·)) {a : α} (member : a ∈ t) (tall : i ≤ height a) :
    ∃ b ∈ t, i ≤ height b ∧ ¬ go b ∧ rank b ≤ rank a := by
  have found : (t.find? (i ≤ height ·)).isSome := by
    rw [List.find?_isSome]
    exact ⟨a, member, by simpa using tall⟩
  obtain ⟨b, first⟩ := Option.isSome_iff_exists.mp found
  obtain ⟨le, pre, post, rfl, short⟩ := List.find?_eq_some_iff_append.mp first
  refine ⟨b, by simp, by simpa using le, level.stopped b first, ?_⟩
  rcases List.mem_append.mp member with early | late
  · exact absurd tall (by simpa using short a early)
  · rcases List.mem_cons.mp late with rfl | behind
    · exact le_refl _
    · exact (List.pairwise_cons.mp (List.pairwise_append.mp sorted).2.1).1 a behind

/-- With the rule `rank < r` a descent splits the sequence at rank `r`. -/
theorem Descent.split_rank {r : Nat} (run : Descent height (rank · < r) top ns suf)
    (some_level : 1 ≤ top) (sorted : ns.Pairwise (rank · ≤ rank ·))
    (tall : ∀ a ∈ ns, 1 ≤ height a) :
    ∃ pre, ns = pre ++ suf 1 ∧ (∀ a ∈ pre, rank a < r) ∧ ∀ a ∈ suf 1, r ≤ rank a := by
  obtain ⟨pre, eq, last⟩ := run.last (i := 1) (by omega) (by omega)
  rw [eq] at sorted tall
  refine ⟨pre, eq, ?_, ?_⟩
  · rcases List.eq_nil_or_concat' pre with rfl | ⟨front, b, rfl⟩
    · simp
    · intro a member
      have pass := (last b (by simp)).2
      rcases List.mem_append.mp member with early | same
      · have le := (List.pairwise_append.mp (List.pairwise_append.mp sorted).1).2.2 a early b
          (by simp)
        omega
      · rw [List.mem_singleton.mp same]
        exact pass
  · intro a member
    obtain ⟨b, _, _, stop, le⟩ := (run.level 1 (by omega) some_level).stop_before
      (List.pairwise_append.mp sorted).2.1 member (tall a (by simp [member]))
    omega

variable {r : Nat} {hit : α → Prop}

/-- No node of the same rank behind this one is taller. -/
def Visible (height rank : α → Nat) (ns : List α) (a : α) : Prop :=
  ∃ u w, ns = u ++ a :: w ∧ ∀ b ∈ w, rank b = rank a → height b ≤ height a

theorem Visible.mem {a : α} (visible : Visible height rank ns a) : a ∈ ns := by
  obtain ⟨u, w, rfl, _⟩ := visible
  simp

/-- The last node of a rank is visible. -/
theorem exists_visible (present : ∃ a ∈ ns, rank a = r) :
    ∃ a, Visible height rank ns a ∧ rank a = r := by
  induction ns with
  | nil => simp at present
  | cons c rest ih =>
      by_cases later : ∃ a ∈ rest, rank a = r
      · obtain ⟨a, ⟨u, w, rfl, lower⟩, same⟩ := ih later
        exact ⟨a, ⟨c :: u, w, rfl, lower⟩, same⟩
      · obtain ⟨a, member, same⟩ := present
        rcases List.mem_cons.mp member with rfl | behind
        · refine ⟨a, ⟨[], rest, rfl, ?_⟩, same⟩
          intro b inside equal
          exact absurd ⟨b, inside, equal.trans same⟩ later
        · exact absurd ⟨a, behind, same⟩ later

section Deletion

variable (run : Descent height (fun a => rank a ≤ r ∧ ¬ hit a) top ns suf)
  (sorted : ns.Pairwise (rank · ≤ rank ·)) (bounded : ∀ a ∈ ns, 1 ≤ height a ∧ height a ≤ top)
  (rank_hit : ∀ a, hit a → rank a = r)

include run sorted bounded rank_hit

/-- If no hit is visible, a descent leaves no hit behind on the level it has
done. -/
theorem Descent.no_hit_left (hidden : ∀ a, hit a → ¬ Visible height rank ns a) {i : Nat}
    (low : 1 ≤ i) (high : i ≤ top + 1) : ∀ a ∈ suf i, i ≤ height a → ¬ hit a := by
  induction high using Nat.decreasingInduction with
  | self =>
      intro a member tall
      rw [run.start] at member
      have := (bounded a member).2
      omega
  | of_succ i high ih =>
      intro a member tall isHit
      obtain ⟨m, eq, _⟩ := run.last (i := i + 1) (by omega) (by omega)
      obtain ⟨m', eq', _⟩ := (run.level i low (by omega)).moved
      obtain ⟨u, w, split⟩ := List.append_of_mem member
      have whole : ns = (m ++ m' ++ u) ++ a :: w := by
        rw [eq, eq', split]
        simp only [List.append_assoc]
      -- the hit is hidden, so a taller node of its rank is behind it
      obtain ⟨b, behind, sameRank, taller⟩ :
          ∃ b ∈ w, rank b = rank a ∧ height a < height b := by
        by_contra lower
        push Not at lower
        exact hidden a isHit ⟨m ++ m' ++ u, w, whole, lower⟩
      have left : b ∈ suf (i + 1) := by
        rw [eq', split]
        simp [behind]
      have inside : b ∈ ns := by
        rw [eq]
        exact List.mem_append_right m left
      have inTop := (bounded b inside).2
      rw [eq] at sorted
      -- the level above stopped at that node or before it, and only a hit stops it there
      obtain ⟨c, there, onLevel, stop, le⟩ :=
        (run.level (i + 1) (by omega) (by omega)).stop_before
          (List.pairwise_append.mp sorted).2.1 left (by omega)
      have rankA := rank_hit a isHit
      apply ih (by omega) c there onLevel
      by_contra miss
      exact stop ⟨by omega, miss⟩

omit bounded in
/-- A visible hit is never moved over. -/
theorem Descent.visible_left {a : α} (isHit : hit a) (visible : Visible height rank ns a) :
    a ∈ suf 1 := by
  obtain ⟨u, w, split, lower⟩ := visible
  obtain ⟨m, eq, skip⟩ := run.skipped (i := 1) (by omega) (by omega)
  rw [split] at eq sorted
  have rankA := rank_hit a isHit
  have beyond : ∀ b ∈ w, height a < height b → ¬ rank b ≤ r := by
    intro b behind taller le
    have ge := (List.pairwise_cons.mp (List.pairwise_append.mp sorted).2.1).1 b behind
    have := lower b behind (by omega)
    omega
  rcases List.append_eq_append_iff.mp eq with ⟨v, rfl, rest⟩ | ⟨v, rfl, rest⟩
  · rcases v with - | ⟨c, v⟩
    · rw [List.nil_append] at rest
      rw [← rest]
      exact List.mem_cons_self
    · obtain ⟨rfl, rfl⟩ : a = c ∧ w = v ++ suf 1 := by simpa using rest
      exfalso
      rcases skip u a v rfl with pass | ⟨b, inV, taller, pass⟩
      · exact pass.2 isHit
      · exact beyond b (List.mem_append_left _ inV) taller pass.1
  · rw [rest]
    simp

/-- With the rule of a deletion a descent ends right before a hit if and only
if some hit is visible. -/
theorem Descent.head_hit_iff (some_level : 1 ≤ top) :
    (∃ a, (suf 1).head? = some a ∧ hit a) ↔ ∃ a, hit a ∧ Visible height rank ns a := by
  obtain ⟨m, eq, _⟩ := run.last (i := 1) (by omega) (by omega)
  constructor
  · intro found
    obtain ⟨z, first, isHit⟩ := found
    by_contra hidden
    push Not at hidden
    have inside : z ∈ suf 1 := List.mem_of_head? first
    have inNs : z ∈ ns := by
      rw [eq]
      exact List.mem_append_right m inside
    exact run.no_hit_left sorted bounded rank_hit hidden (i := 1) (by omega) (by omega) z inside
      (bounded z inNs).1 isHit
  · intro found
    obtain ⟨a, isHit, visible⟩ := found
    have left := run.visible_left sorted rank_hit isHit visible
    have level := run.level 1 (by omega) some_level
    have all : ∀ b ∈ suf 1, 1 ≤ height b := by
      intro b inside
      apply (bounded b ?_).1
      rw [eq]
      exact List.mem_append_right m inside
    rcases suffix : suf 1 with - | ⟨z, rest⟩
    · rw [suffix] at left
      cases left
    · rw [suffix] at level left all
      rw [eq, suffix] at sorted
      refine ⟨z, rfl, ?_⟩
      have stop : ¬ (rank z ≤ r ∧ ¬ hit z) := by
        apply level.stopped z
        rw [List.find?_cons_of_pos (by simpa using all z List.mem_cons_self)]
      have le : rank z ≤ r := by
        rw [← rank_hit a isHit]
        rcases List.mem_cons.mp left with rfl | later
        · exact le_refl _
        · exact (List.pairwise_cons.mp (List.pairwise_append.mp sorted).2.1).1 a later
      by_contra miss
      exact stop ⟨le, miss⟩

end Deletion

end Ordered

end XFireDB.Lib
