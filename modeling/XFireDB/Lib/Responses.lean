import Mathlib

/-!
# Systems that reply

A system that replies is a function `step : σ → ε → Option (ρ × σ)`; `none` means
that an event does not return.  Its specification is a relation: which replies an
event may have in a state of the specification, and which state it leaves.

A system implements a specification if from related states every event of `D`
returns with a reply that is allowed, and leaves related states.  What holds of
one event then holds of every list of events: `Implements.replies`.  Two systems
that reply are compared in the same way, whether they return or not, by
`Simulates`; their replies need not be the same.
-/

namespace XFireDB.Lib

universe u v w x y

variable {σ : Type u} {τ : Type v} {ε : Type w} {ρ : Type x} {ρ' : Type y}

theorem optionRel_imp {α β : Type*} {r r' : α → β → Prop} {x : Option α} {y : Option β}
    (related : Option.Rel r x y) (weaker : ∀ a b, r a b → r' a b) : Option.Rel r' x y := by
  cases related with
  | none => exact .none
  | some both => exact .some (weaker _ _ both)

theorem optionRel_map {α β γ δ : Type*} {r : α → β → Prop} {r' : γ → δ → Prop}
    {f : α → γ} {g : β → δ} {x : Option α} {y : Option β} (related : Option.Rel r x y)
    (maps : ∀ a b, r a b → r' (f a) (g b)) :
    Option.Rel r' (x.map f) (y.map g) := by
  cases related with
  | none => exact .none
  | some both => exact .some (maps _ _ both)

theorem map_fst_related {α β γ δ : Type*} {q : α → γ → Prop} {r : β → δ → Prop} {x : Option (α × β)}
    {y : Option (γ × δ)} (related : Option.Rel
      (fun out out' => q out.1 out'.1 ∧ r out.2 out'.2) x y) :
    Option.Rel q (x.map Prod.fst) (y.map Prod.fst) :=
  optionRel_map related fun _ _ both => both.1

theorem exists_related {α β γ δ : Type*} {q : α → γ → Prop} {r : β → δ → Prop} {a : α} {b : β}
    {y : Option (γ × δ)} (related : Option.Rel (fun out out' => q out.1 out'.1 ∧ r out.2 out'.2)
      (some (a, b)) y) :
    ∃ a' b', y = some (a', b') ∧ q a a' ∧ r b b' := by
  cases related with
  | @some _ out' both => exact ⟨out'.1, out'.2, rfl, both⟩

/-- The replies to a list of events, and the state they leave. -/
def replies (step : σ → ε → Option (ρ × σ)) : σ → List ε → Option (List ρ × σ)
  | s, [] => some ([], s)
  | s, e :: rest =>
    (step s e).bind fun out => (replies step out.2 rest).map fun later =>
    (out.1 :: later.1, later.2)

/-- A list of events with replies that the specification allows. -/
inductive Allowed (spec : τ → ε → ρ → τ → Prop) : τ → List ε → List ρ → τ → Prop
  | nil (t : τ) : Allowed spec t [] [] t
  | cons {t t' t'' : τ} {e : ε} {r : ρ} {events : List ε} {rs : List ρ} (first : spec t e r t')
    (rest : Allowed spec t' events rs t'') : Allowed spec t (e :: events) (r :: rs) t''

/-- What a system replies is what the system allows. -/
theorem Allowed.replies_eq {step : τ → ε → Option (ρ × τ)} {t t' : τ}
    {events : List ε} {rs : List ρ}
    (allowed : Allowed (fun t e r t' => step t e = some (r, t')) t events rs t') :
    replies step t events = some (rs, t') := by
  induction allowed with
  | nil => rfl
  | cons first _ ih =>
      rw [replies, first, Option.bind_some, ih]
      rfl

/-- From related states each event of `D` returns, with a reply that is allowed,
and leaves related states. -/
def Implements (R : σ → τ → Prop) (D : ε → Prop) (step : σ → ε → Option (ρ × σ))
    (spec : τ → ε → ρ → τ → Prop) : Prop :=
  ∀ s t e, R s t → D e → ∃ r s' t', step s e = some (r, s') ∧ spec t e r t' ∧ R s' t'

/-- What is implemented for each event is for every list of events. -/
theorem Implements.replies {R : σ → τ → Prop} {D : ε → Prop} {step : σ → ε → Option (ρ × σ)}
    {spec : τ → ε → ρ → τ → Prop} (implements : Implements R D step spec) {s : σ} {t : τ}
    (related : R s t) {events : List ε} (inside : ∀ e ∈ events, D e) :
    ∃ rs s' t', replies step s events = some (rs, s') ∧ Allowed spec t events rs t' ∧ R s' t' := by
  induction events generalizing s t with
  | nil => exact ⟨[], s, t, rfl, .nil t, related⟩
  | cons e rest ih =>
      obtain ⟨r, s', t', fired, allowed, after⟩ :=
        implements s t e related (inside e List.mem_cons_self)
      obtain ⟨rs, s'', t'', ran, allowed', final⟩ :=
        ih after fun e' member => inside e' (List.mem_cons_of_mem e member)
      refine ⟨r :: rs, s'', t'', ?_, .cons allowed allowed', final⟩
      rw [Lib.replies, fired, Option.bind_some, ran]
      rfl

/-- From related states each event of `D` has related replies in the two systems and
leaves related states, or returns in neither. -/
def Simulates (Q : ρ → ρ' → Prop) (R : σ → τ → Prop) (D : ε → Prop) (step : σ → ε → Option (ρ × σ))
    (step' : τ → ε → Option (ρ' × τ)) : Prop :=
  ∀ s t e, R s t → D e →
    Option.Rel (fun out out' => Q out.1 out'.1 ∧ R out.2 out'.2) (step s e) (step' t e)

/-- Like `Simulates` for systems with a bound on how far they compute: for each state of the
second system some bound is enough in all related states of the first.  `R left` relates
states that `left` more events may follow. -/
def SimulatesWithin (Q : ρ → ρ' → Prop) (R : Nat → σ → τ → Prop) (D : ε → Prop)
    (step : Nat → σ → ε → Option (ρ × σ)) (step' : τ → ε → Option (ρ' × τ)) : Prop :=
  ∀ left t e, D e → ∃ bound, ∀ s fuel, R (left + 1) s t → bound ≤ fuel →
    Option.Rel (fun out out' => Q out.1 out'.1 ∧ R left out.2 out'.2) (step fuel s e) (step' t e)

theorem SimulatesWithin.replies {Q : ρ → ρ' → Prop} {R : Nat → σ → τ → Prop} {D : ε → Prop}
    {step : Nat → σ → ε → Option (ρ × σ)} {step' : τ → ε → Option (ρ' × τ)}
    (simulates : SimulatesWithin Q R D step step') (left : Nat) (t : τ) {events : List ε}
    (inside : ∀ e ∈ events, D e) :
    ∃ bound, ∀ s fuel, R (left + events.length) s t → bound ≤ fuel →
      Option.Rel (fun out out' => List.Forall₂ Q out.1 out'.1 ∧ R left out.2 out'.2)
        (Lib.replies (step fuel) s events) (Lib.replies step' t events) := by
  induction events generalizing t with
  | nil => exact ⟨0, fun s fuel related _ => .some ⟨.nil, related⟩⟩
  | cons e rest ih =>
      have later : ∀ e' ∈ rest, D e' := fun e' member => inside e' (List.mem_cons_of_mem e member)
      obtain ⟨first, here⟩ := simulates (left + rest.length) t e (inside e List.mem_cons_self)
      cases fired : step' t e with
      | none =>
          refine ⟨first, fun s fuel related enough => ?_⟩
          have alike := here s fuel related enough
          rw [fired] at alike
          rw [Lib.replies, Lib.replies, fired]
          cases ran : step fuel s e with
          | none => exact .none
          | some out =>
              rw [ran] at alike
              cases alike
      | some out' =>
          -- the second system goes on in one state, so one bound is enough for the rest
          obtain ⟨after, ih⟩ := ih out'.2 later
          refine ⟨max first after, fun s fuel related enough => ?_⟩
          have alike := here s fuel related (le_trans (le_max_left _ _) enough)
          rw [fired] at alike
          rw [Lib.replies, Lib.replies, fired, Option.bind_some]
          cases ran : step fuel s e with
          | none =>
              rw [ran] at alike
              cases alike
          | some out =>
              rw [ran] at alike
              obtain ⟨reply, state⟩ := show Q out.1 out'.1 ∧ R (left + rest.length) out.2 out'.2 by
                cases alike with
                | some both => exact both
              rw [Option.bind_some]
              apply optionRel_map (ih out.2 fuel state (le_trans (le_max_right _ _) enough))
              intro more more' both
              exact ⟨.cons reply both.1, both.2⟩

/-- Systems that are alike on each event are alike on every list of events. -/
theorem Simulates.replies {Q : ρ → ρ' → Prop} {R : σ → τ → Prop} {D : ε → Prop}
    {step : σ → ε → Option (ρ × σ)} {step' : τ → ε → Option (ρ' × τ)}
    (simulates : Simulates Q R D step step') {s : σ} {t : τ} (related : R s t) {events : List ε}
    (inside : ∀ e ∈ events, D e) :
    Option.Rel (fun out out' => List.Forall₂ Q out.1 out'.1 ∧ R out.2 out'.2)
      (replies step s events) (Lib.replies step' t events) := by
  have within : SimulatesWithin Q (fun _ => R) D (fun _ => step) step' :=
    fun _ t e inside => ⟨0, fun s _ related _ => simulates s t e related inside⟩
  obtain ⟨bound, alike⟩ := within.replies 0 t inside
  exact alike s bound related le_rfl

end XFireDB.Lib
