import Mathlib

/-!
# Programs over calls

`Prog C ε α` is a program that makes calls `C β`, may raise an `ε` and returns
an `α`.  A handler executes one call on a state: `none` means that the process
crashes, an `error` that the call raises, and a raise ends the program with the
state the call leaves behind.

`Prog.Meets` is the rule of pre- and postconditions for programs whose calls all
satisfy a guard.
-/

namespace XFireDB.Lib

/-- Programs over calls `C` with exceptions `ε`. -/
inductive Prog (C : Type → Type) (ε α : Type) : Type 1
  | ret (a : α)
  | raise (e : ε)
  | call {β : Type} (c : C β) (k : β → Prog C ε α)

namespace Prog

variable {C : Type → Type} {ε σ α β : Type}

def bind : Prog C ε α → (α → Prog C ε β) → Prog C ε β
  | ret a, f => f a
  | raise e, _ => raise e
  | call c k, f => call c fun b => (k b).bind f

instance : Monad (Prog C ε) where
  pure := ret
  bind := bind

/-- The program that makes one call. -/
def lift (c : C β) : Prog C ε β := call c ret

@[simp] theorem pure_eq (a : α) : (pure a : Prog C ε α) = ret a := rfl

@[simp] theorem ret_bind (a : α) (f : α → Prog C ε β) : (ret a >>= f) = f a := rfl

@[simp] theorem raise_bind (e : ε) (f : α → Prog C ε β) : (raise e >>= f) = raise e := rfl

@[simp] theorem call_bind {γ : Type} (c : C γ) (k : γ → Prog C ε α) (f : α → Prog C ε β) :
    (call c k >>= f) = call c fun b => k b >>= f := rfl

@[simp] theorem lift_bind (c : C β) (f : β → Prog C ε α) : (lift c >>= f) = call c f := rfl

/-- How one call changes a state. -/
abbrev Handler (C : Type → Type) (ε σ : Type) : Type 1 :=
  {β : Type} → σ → C β → Option (Except ε β × σ)

/-- Run a program to its end. -/
def run (h : Handler C ε σ) : σ → Prog C ε α → Option (Except ε α × σ)
  | s, ret a => some (.ok a, s)
  | s, raise e => some (.error e, s)
  | s, call c k =>
    match h s c with
    | none => none
    | some (.ok b, s') => run h s' (k b)
    | some (.error e, s') => some (.error e, s')

/-- Every call of the run meets the guard in the state it is made in. -/
def Guarded (h : Handler C ε σ) (ok : ∀ {β : Type}, σ → C β → Prop) : σ → Prog C ε α → Prop
  | _, ret _ => True
  | _, raise _ => True
  | s, call c k =>
    ok s c ∧ ∀ b s', h s c = some (.ok b, s') → Guarded h ok s' (k b)

/-- If the calls of the run meet the guard, the run ends without a crash and its
outcome and last state satisfy `Q`. -/
def Meets (h : Handler C ε σ) (ok : ∀ {β : Type}, σ → C β → Prop) (Q : Except ε α → σ → Prop) :
    σ → Prog C ε α → Prop
  | s, ret a => Q (.ok a) s
  | s, raise e => Q (.error e) s
  | s, call c k =>
    ok s c → ∃ r s', h s c = some (r, s') ∧
      match r with
      | .ok b => Meets h ok Q s' (k b)
      | .error e => Q (.error e) s'

variable {h : Handler C ε σ} {ok : ∀ {β : Type}, σ → C β → Prop}

/-- A program whose first part returns goes on with the rest. -/
theorem run_bind_ok {s s' : σ} {p : Prog C ε α} {f : α → Prog C ε β} {a : α}
    (first : p.run h s = some (.ok a, s')) : (p >>= f).run h s = (f a).run h s' := by
  induction p generalizing s with
  | ret b =>
      obtain ⟨⟨rfl⟩, rfl⟩ := Prod.mk.inj (Option.some.inj first)
      rfl
  | raise e => simp [Prog.run] at first
  | call c k ih =>
      rw [call_bind, Prog.run]
      rw [Prog.run] at first
      match handled : h s c with
      | none => simp [handled] at first
      | some (.ok b, mid) =>
          simp only [handled] at first ⊢
          exact ih b first
      | some (.error e, mid) => simp [handled] at first

theorem run_lift_ok {s s' : σ} {c : C α} {a : α} (handled : h s c = some (.ok a, s')) :
    (lift c : Prog C ε α).run h s = some (.ok a, s') := by
  simp only [lift, Prog.run, handled]

theorem run_bind_error {s s' : σ} {p : Prog C ε α} {f : α → Prog C ε β} {e : ε}
    (first : p.run h s = some (.error e, s')) : (p >>= f).run h s = some (.error e, s') := by
  induction p generalizing s with
  | ret b => cases first
  | raise e =>
      cases first
      rfl
  | call c k ih =>
      rw [call_bind, Prog.run]
      rw [Prog.run] at first
      match handled : h s c with
      | none => simp [handled] at first
      | some (.ok b, mid) =>
          simp only [handled] at first ⊢
          exact ih b first
      | some (.error e, mid) => simpa [handled] using first

theorem run_bind_none {s : σ} {p : Prog C ε α} {f : α → Prog C ε β} (first : p.run h s = none) :
    (p >>= f).run h s = none := by
  induction p generalizing s with
  | ret b => cases first
  | raise e => cases first
  | call c k ih =>
      rw [call_bind, Prog.run]
      rw [Prog.run] at first
      match handled : h s c with
      | none => rfl
      | some (.ok b, mid) =>
          simp only [handled] at first ⊢
          exact ih b first
      | some (.error e, mid) => simp [handled] at first

/-- Two handlers that agree where an invariant holds run programs alike. -/
theorem run_congr {h' : Handler C ε σ} {I : σ → Prop}
    (same : ∀ {s}, I s → ∀ {β : Type} (c : C β), h s c = h' s c)
    (keep : ∀ {s}, I s → ∀ {β : Type} (c : C β) r t, h' s c = some (r, t) → I t) {s : σ} (inv : I s)
    (p : Prog C ε α) : p.run h s = p.run h' s := by
  induction p generalizing s with
  | ret a => rfl
  | raise e => rfl
  | call c k ih =>
      rw [Prog.run, Prog.run, same inv]
      match handled : h' s c with
      | none => rfl
      | some (.ok b, mid) => exact ih b (keep inv c _ _ handled)
      | some (.error e, mid) => rfl

/-- What every call keeps, a run keeps. -/
theorem run_keeps {I : σ → Prop}
    (keep : ∀ {s}, I s → ∀ {β : Type} (c : C β) r t, h s c = some (r, t) → I t)
    {p : Prog C ε α} {s t : σ} {r : Except ε α} (inv : I s) (ran : p.run h s = some (r, t)) :
    I t := by
  induction p generalizing s with
  | ret a =>
      cases ran
      exact inv
  | raise e =>
      cases ran
      exact inv
  | call c k ih =>
      rw [Prog.run] at ran
      match handled : h s c with
      | none => simp [handled] at ran
      | some (.ok b, mid) =>
          simp only [handled] at ran
          exact ih b (keep inv c _ _ handled) ran
      | some (.error e, mid) =>
          simp only [handled] at ran
          cases ran
          exact keep inv c _ _ handled

theorem Meets.run {Q : Except ε α → σ → Prop} {s : σ} {p : Prog C ε α}
    (meets : p.Meets h ok Q s) (guard : p.Guarded h ok s) :
    ∃ r s', p.run h s = some (r, s') ∧ Q r s' := by
  induction p generalizing s with
  | ret a => exact ⟨_, _, rfl, meets⟩
  | raise e => exact ⟨_, _, rfl, meets⟩
  | call c k ih =>
      obtain ⟨safe, guardRest⟩ := guard
      obtain ⟨r, s', handled, rest⟩ := meets safe
      cases r with
      | ok b =>
          obtain ⟨r, s'', ran, post⟩ := ih b rest (guardRest b s' handled)
          exact ⟨r, s'', by simpa only [Prog.run, handled] using ran, post⟩
      | error e => exact ⟨.error e, s', by simp only [Prog.run, handled], rest⟩

/-- A call that is known to return. -/
theorem Meets.of_ok {Q : Except ε α → σ → Prop} {s s' : σ} {c : C β} {k : β → Prog C ε α} {b : β}
    (handled : h s c = some (.ok b, s')) (rest : (k b).Meets h ok Q s') :
    (call c k).Meets h ok Q s :=
  fun _ => ⟨.ok b, s', handled, rest⟩

/-- A call that is known to raise. -/
theorem Meets.of_error {Q : Except ε α → σ → Prop} {s s' : σ} {c : C β} {k : β → Prog C ε α} {e : ε}
    (handled : h s c = some (.error e, s')) (raised : Q (.error e) s') :
    (call c k).Meets h ok Q s :=
  fun _ => ⟨.error e, s', handled, raised⟩

theorem Meets.bind_ok {Q : Except ε α → σ → Prop} {s s' : σ} {c : C β} {f : β → Prog C ε α} {b : β}
    (handled : h s c = some (.ok b, s')) (rest : (f b).Meets h ok Q s') :
    (lift c >>= f).Meets h ok Q s :=
  fun _ => ⟨.ok b, s', handled, rest⟩

theorem Meets.bind_error {Q : Except ε α → σ → Prop} {s s' : σ} {c : C β} {f : β → Prog C ε α}
    {e : ε} (handled : h s c = some (.error e, s')) (raised : Q (.error e) s') :
    (lift c >>= f).Meets h ok Q s :=
  fun _ => ⟨.error e, s', handled, raised⟩

theorem Meets.mono {Q Q' : Except ε α → σ → Prop} (weaken : ∀ r s, Q r s → Q' r s) {s : σ}
    {p : Prog C ε α} (meets : p.Meets h ok Q s) : p.Meets h ok Q' s := by
  induction p generalizing s with
  | ret a => exact weaken _ _ meets
  | raise e => exact weaken _ _ meets
  | call c k ih =>
      intro safe
      obtain ⟨r, s', handled, rest⟩ := meets safe
      refine ⟨r, s', handled, ?_⟩
      cases r with
      | ok b => exact ih b rest
      | error e => exact weaken _ _ rest

/-- Sequencing: the postcondition of the first program is the precondition of
the rest. -/
theorem Meets.bind {Q : Except ε β → σ → Prop} {s : σ} {p : Prog C ε α} {f : α → Prog C ε β}
    (meets : p.Meets h ok (fun r s' =>
      match r with
      | .ok a => (f a).Meets h ok Q s'
      | .error e => Q (.error e) s') s) :
    (p >>= f).Meets h ok Q s := by
  induction p generalizing s with
  | ret a => exact meets
  | raise e => exact meets
  | call c k ih =>
      intro safe
      obtain ⟨r, s', handled, rest⟩ := meets safe
      refine ⟨r, s', handled, ?_⟩
      cases r with
      | ok b => exact ih b rest
      | error e => exact rest

/-! ## Programs that stay inside -/

section Within

variable {σ' : Type} (allowed : ∀ {β : Type}, C β → Prop) (gives : ∀ {β : Type}, C β → β → Prop)

/-- Every call the program can make is allowed, as long as calls give what they
should. -/
def Within : Prog C ε α → Prop
  | ret _ => True
  | raise _ => True
  | call c k => allowed c ∧ ∀ b, gives c b → Within (k b)

/-- Two outcomes with the same result and related states. -/
def SameOutcome (R : σ → σ' → Prop) :
    Option (Except ε α × σ) → Option (Except ε α × σ') → Prop
  | none, none => True
  | some (r, s), some (r', s') => r = r' ∧ R s s'
  | _, _ => False

theorem SameOutcome.mono {R R' : σ → σ' → Prop} (weaken : ∀ s s', R s s' → R' s s')
    {x : Option (Except ε α × σ)} {x' : Option (Except ε α × σ')} (same : SameOutcome R x x') :
    SameOutcome R' x x' := by
  match x, x', same with
  | none, none, _ => trivial
  | some (r, s), some (r', s'), ⟨results, related⟩ => exact ⟨results, weaken s s' related⟩

theorem SameOutcome.trans {R : σ → σ → Prop} (compose : ∀ s t u, R s t → R t u → R s u)
    {x y z : Option (Except ε α × σ)} (first : SameOutcome R x y) (second : SameOutcome R y z) :
    SameOutcome R x z := by
  match x, y, z, first, second with
  | none, none, none, _, _ => trivial
  | some (r, s), some (r', t), some (r'', u), ⟨results, related⟩, ⟨results', related'⟩ =>
      exact ⟨results.trans results', compose s t u related related'⟩

theorem SameOutcome.of_left {R : σ → σ' → Prop} {r : Except ε α} {s : σ}
    {x' : Option (Except ε α × σ')} (same : SameOutcome R (some (r, s)) x') :
    ∃ s', x' = some (r, s') ∧ R s s' := by
  match x', same with
  | some (_, s'), ⟨rfl, related⟩ => exact ⟨s', rfl, related⟩

theorem SameOutcome.of_right {R : σ → σ' → Prop} {x : Option (Except ε α × σ)} {r : Except ε α}
    {s' : σ'} (same : SameOutcome R x (some (r, s'))) : ∃ s, x = some (r, s) ∧ R s s' := by
  match x, same with
  | some (_, s), ⟨rfl, related⟩ => exact ⟨s, rfl, related⟩

/-- The same results on states that are changed alike. -/
theorem SameOutcome.map {τ τ' : Type} {R : σ → σ' → Prop} {R' : τ → τ' → Prop}
    {x : Option (Except ε α × σ)} {x' : Option (Except ε α × σ')} (same : SameOutcome R x x')
    {f : σ → τ} {f' : σ' → τ'} (keep : ∀ s s', R s s' → R' (f s) (f' s')) :
    SameOutcome R' (x.map fun out => (out.1, f out.2)) (x'.map fun out => (out.1, f' out.2)) := by
  rcases x with - | ⟨r, s⟩
  · rcases x' with - | ⟨r', s'⟩
    · trivial
    · exact same.elim
  · rcases x' with - | ⟨r', s'⟩
    · exact same.elim
    · exact ⟨same.1, keep s s' same.2⟩

variable {allowed gives}

theorem Within.bind {p : Prog C ε α} {f : α → Prog C ε β} (first : p.Within allowed gives)
    (rest : ∀ a, (f a).Within allowed gives) : (p >>= f).Within allowed gives := by
  induction p with
  | ret a => exact rest a
  | raise e => trivial
  | call c k ih => exact ⟨first.1, fun b given => ih b (first.2 b given)⟩

/-- One call inside, then a program for each result it may give. -/
theorem Within.lift_bind {c : C β} {f : β → Prog C ε α} (inside : allowed c)
    (rest : ∀ b, gives c b → (f b).Within allowed gives) :
    (lift c >>= f).Within allowed gives :=
  ⟨inside, rest⟩

theorem Within.lift {c : C β} (inside : allowed c) :
    (lift c : Prog C ε β).Within allowed gives :=
  ⟨inside, fun _ _ => trivial⟩

/-- A call with the same outcome on both sides, and rests with the same outcome. -/
theorem SameOutcome.run_call {h' : Handler C ε σ'} {R : σ → σ' → Prop} {s : σ} {s' : σ'} {c : C β}
    {k : β → Prog C ε α} (first : SameOutcome R (h s c) (h' s' c))
    (rest : ∀ b t t', R t t' → h s c = some (.ok b, t) →
      SameOutcome R ((k b).run h t) ((k b).run h' t')) :
    SameOutcome R ((call c k).run h s) ((call c k).run h' s') := by
  rw [Prog.run, Prog.run]
  match left : h s c, right : h' s' c with
  | none, none => exact trivial
  | none, some _ =>
      rw [left, right] at first
      exact first.elim
  | some (.ok b, t), none =>
      rw [left, right] at first
      exact first.elim
  | some (.error e, t), none =>
      rw [left, right] at first
      exact first.elim
  | some (r, t), some (r', t') =>
      rw [left, right] at first
      obtain ⟨rfl, after⟩ := first
      cases r with
      | ok b => exact rest b t t' after left
      | error e => exact ⟨rfl, after⟩

/-- Handlers that agree on the allowed calls give runs that agree. -/
theorem Within.run_same {h' : Handler C ε σ'} {R : σ → σ' → Prop}
    (same : ∀ {β : Type} (c : C β) s s', allowed c → R s s' → SameOutcome R (h s c) (h' s' c))
    (given : ∀ {β : Type} (c : C β) s s' b t, allowed c → R s s' → h s c = some (.ok b, t) →
      gives c b)
    {p : Prog C ε α} (within : p.Within allowed gives) {s : σ} {s' : σ'} (related : R s s') :
    SameOutcome R (p.run h s) (p.run h' s') := by
  induction p generalizing s s' with
  | ret a => exact ⟨rfl, related⟩
  | raise e => exact ⟨rfl, related⟩
  | call c k ih =>
      refine SameOutcome.run_call (same c s s' within.1 related) ?_
      intro b t t' after handled
      exact ih b (within.2 b (given c s s' b t within.1 related handled)) after

/-- What the allowed calls keep, a run keeps. -/
theorem Within.run_keeps {I : σ → Prop}
    (keep : ∀ {β : Type} (c : C β) s r t, allowed c → I s → h s c = some (r, t) →
      I t ∧ ∀ b, r = .ok b → gives c b)
    {p : Prog C ε α} (within : p.Within allowed gives) {s t : σ} {r : Except ε α} (before : I s)
    (ran : p.run h s = some (r, t)) : I t := by
  induction p generalizing s with
  | ret a =>
      obtain ⟨-, rfl⟩ := Prod.mk.inj (Option.some.inj ran)
      exact before
  | raise e =>
      obtain ⟨-, rfl⟩ := Prod.mk.inj (Option.some.inj ran)
      exact before
  | call c k ih =>
      rw [Prog.run] at ran
      match handled : h s c with
      | none => simp [handled] at ran
      | some (.ok b, mid) =>
          simp only [handled] at ran
          obtain ⟨after, given⟩ := keep c s _ mid within.1 before handled
          exact ih b (within.2 b (given b rfl)) after ran
      | some (.error e, mid) =>
          simp only [handled] at ran
          obtain ⟨-, rfl⟩ := Prod.mk.inj (Option.some.inj ran)
          exact (keep c s _ mid within.1 before handled).1

end Within

/-! ## Calls that are made -/

section Hits

variable (h) (hit : ∀ {β : Type}, σ → C β → Prop)

/-- The run makes a call that hits. -/
def Hits : σ → Prog C ε α → Prop
  | _, ret _ => False
  | _, raise _ => False
  | s, call c k => hit s c ∨ ∃ b s', h s c = some (.ok b, s') ∧ Hits s' (k b)

variable {h hit}

/-- A program whose allowed calls do not hit. -/
theorem Within.not_hits {allowed : ∀ {β : Type}, C β → Prop}
    {gives : ∀ {β : Type}, C β → β → Prop} {I : σ → Prop}
    (miss : ∀ {β : Type} (c : C β) s, allowed c → I s → ¬ hit s c)
    (keep : ∀ {β : Type} (c : C β) s b t, allowed c → I s → h s c = some (.ok b, t) →
      I t ∧ gives c b)
    {p : Prog C ε α} (within : p.Within allowed gives) {s : σ} (before : I s) :
    ¬ p.Hits h hit s := by
  induction p generalizing s with
  | ret a => exact id
  | raise e => exact id
  | call c k ih =>
      intro either
      rcases either with here | ⟨b, t, handled, later⟩
      · exact miss c s within.1 before here
      · obtain ⟨after, given⟩ := keep c s b t within.1 before handled
        exact ih b (within.2 b given) after later

end Hits

end Prog

end XFireDB.Lib
