import Mathlib

/-!
# Guarded runs of a transition function

A system is a function `step : σ → ε → Option σ`: the event carries every
choice the environment or the scheduler makes, and `none` means that the event
is not enabled.  `Reach step ok s₀` are the states of the runs whose events all
meet the guard `ok` in the state they fire in; with the guard `fun _ _ => True`
these are all reachable states.
-/

namespace XFireDB.Lib

universe u v

variable {σ : Type u} {ε : Type v}

/-- The states reached from `s₀` by events that meet the guard. -/
inductive Reach (step : σ → ε → Option σ) (ok : σ → ε → Prop) (s₀ : σ) : σ → Prop
  | init : Reach step ok s₀ s₀
  | next {s s' : σ} {e : ε} :
    Reach step ok s₀ s → ok s e → step s e = some s' → Reach step ok s₀ s'

/-- A run in which every event is allowed. -/
abbrev Reachable (step : σ → ε → Option σ) (s₀ : σ) : σ → Prop :=
  Reach step (fun _ _ => True) s₀

/-- Fire a list of events in order. -/
def runEvents (step : σ → ε → Option σ) : σ → List ε → Option σ
  | s, [] => some s
  | s, e :: rest => (step s e).bind fun s' => runEvents step s' rest

/-- Every event of the list meets a decidable guard where it fires. -/
def guardedEvents (step : σ → ε → Option σ) (ok : σ → ε → Bool) : σ → List ε → Bool
  | _, [] => true
  | s, e :: rest =>
    ok s e && match step s e with
      | some s' => guardedEvents step ok s' rest
      | none => false

variable {step : σ → ε → Option σ} {ok : σ → ε → Prop} {s₀ : σ}

/-- What holds initially and is kept by every guarded step holds of every
reached state. -/
theorem Reach.invariant {I : σ → Prop} (base : I s₀)
    (keep : ∀ {s e s'}, I s → ok s e → step s e = some s' → I s') {s : σ}
    (run : Reach step ok s₀ s) : I s := by
  induction run with
  | init => exact base
  | next _ guard fired ih => exact keep ih guard fired

theorem Reach.mono {ok' : σ → ε → Prop} (weaker : ∀ s e, ok s e → ok' s e) {s : σ}
    (run : Reach step ok s₀ s) : Reach step ok' s₀ s := by
  induction run with
  | init => exact .init
  | next _ guard fired ih => exact .next ih (weaker _ _ guard) fired

theorem Reach.trans {s s' : σ} (first : Reach step ok s₀ s) (rest : Reach step ok s s') :
    Reach step ok s₀ s' := by
  induction rest with
  | init => exact first
  | next _ guard fired ih => exact .next ih guard fired

/-- The step in which a measure passes a bound. -/
theorem Reach.exists_crossing (μ : σ → Nat) {bound : Nat} {s : σ} (run : Reach step ok s₀ s)
    (start : μ s₀ ≤ bound) (past : bound < μ s) :
    ∃ m e m', Reach step ok s₀ m ∧ ok m e ∧ step m e = some m' ∧ Reach step ok m' s ∧
      μ m ≤ bound ∧ bound < μ m' := by
  induction run with
  | init => exact absurd start (Nat.not_le.mpr past)
  | @next s s' e reached guard fired ih =>
      rcases Nat.lt_or_ge bound (μ s) with before | here
      · obtain ⟨m, e', m', first, guard', fired', rest, low, high⟩ := ih before
        exact ⟨m, e', m', first, guard', fired', .next rest guard fired, low, high⟩
      · exact ⟨s, e, s', reached, guard, fired, .init, here, past⟩

theorem Reach.of_guardedEvents (okb : σ → ε → Bool) (sound : ∀ s e, okb s e = true → ok s e)
    (events : List ε) {s s' : σ} (guard : guardedEvents step okb s events = true)
    (ran : runEvents step s events = some s') : Reach step ok s s' := by
  induction events generalizing s with
  | nil =>
      obtain rfl := Option.some.inj ran
      exact .init
  | cons e rest ih =>
      rw [guardedEvents, Bool.and_eq_true] at guard
      obtain ⟨here, later⟩ := guard
      rw [runEvents] at ran
      cases fired : step s e with
      | none => simp [fired] at later
      | some mid =>
          simp only [fired, Option.bind_some] at later ran
          exact Reach.trans (.next .init (sound s e here) fired) (ih later ran)

theorem Reachable.of_runEvents (events : List ε) {s s' : σ}
    (ran : runEvents step s events = some s') : Reachable step s s' := by
  induction events generalizing s with
  | nil =>
      obtain rfl := Option.some.inj ran
      exact .init
  | cons e rest ih =>
      rw [runEvents, Option.bind_eq_some_iff] at ran
      obtain ⟨mid, fired, ran⟩ := ran
      exact Reach.trans (.next .init trivial fired) (ih ran)

/-! ## Event lists, state by state -/

/-- Every event that fires meets the guard in the state it fires in. -/
def AllMeet (step : σ → ε → Option σ) (ok : σ → ε → Prop) : σ → List ε → Prop
  | _, [] => True
  | s, e :: rest => ∀ s', step s e = some s' → ok s e ∧ AllMeet step ok s' rest

/-- The property holds after each event that fires. -/
def AfterEach (step : σ → ε → Option σ) (P : σ → Prop) : σ → List ε → Prop
  | _, [] => True
  | s, e :: rest => ∀ s', step s e = some s' → P s' ∧ AfterEach step P s' rest

/-- If an event keeps a property exactly where it meets the guard, the property
holds all along exactly where all events meet it. -/
theorem afterEach_iff_allMeet {I P : σ → Prop} {D : ε → Prop}
    (keep : ∀ {s e s'}, I s → D e → step s e = some s' → I s')
    (exact_step : ∀ {s e s'}, I s → D e → P s → step s e = some s' → (P s' ↔ ok s e))
    {events : List ε} (inside : ∀ e ∈ events, D e) {s : σ} (inv : I s) (start : P s) :
    AfterEach step P s events ↔ AllMeet step ok s events := by
  induction events generalizing s with
  | nil => exact Iff.rfl
  | cons e rest ih =>
      have here := inside e List.mem_cons_self
      have later : ∀ e ∈ rest, D e := fun e member =>
        inside e (List.mem_cons_of_mem _ member)
      constructor
      · intro after s' fired
        obtain ⟨holds, tail⟩ := after s' fired
        exact ⟨(exact_step inv here start fired).mp holds,
          (ih later (keep inv here fired) holds).mp tail⟩
      · intro meet s' fired
        obtain ⟨meets, tail⟩ := meet s' fired
        have holds := (exact_step inv here start fired).mpr meets
        exact ⟨holds, (ih later (keep inv here fired) holds).mpr tail⟩

/-- If every event fires where the invariant holds, every list of events runs
to its end. -/
theorem runEvents_defined {I : σ → Prop} {D : ε → Prop}
    (keep : ∀ {s e s'}, I s → D e → step s e = some s' → I s')
    (fires : ∀ {s e}, I s → D e → ∃ s', step s e = some s')
    {events : List ε} (inside : ∀ e ∈ events, D e) {s : σ} (inv : I s) :
    ∃ s', runEvents step s events = some s' := by
  induction events generalizing s with
  | nil => exact ⟨s, rfl⟩
  | cons e rest ih =>
      have here := inside e List.mem_cons_self
      obtain ⟨mid, fired⟩ := fires inv here
      rw [runEvents, fired]
      exact ih (fun e member => inside e (List.mem_cons_of_mem _ member)) (keep inv here fired)

end XFireDB.Lib
