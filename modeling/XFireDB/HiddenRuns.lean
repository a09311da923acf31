import XFireDB.HiddenKeys
import XFireDB.LoadTable
import XFireDB.WellFormed

/-!
# Requests that do not use hidden keys

Two clusters that differ in what hidden keys hold are run side by side.  A
request that is not exposed makes all its calls, on every node it comes to, in
the part of the node that visible keys reach, so the runs give the same reply,
stay alike, and leave the hidden part alone.
-/

namespace XFireDB

open Lib

/-- The part of a node that visible keys reach. -/
def Node.visible (n : Node) : Region := n.part fun k => k.toR ∉ hiddenKeys

theorem Node.keyIn_visible (n : Node) {key : RStr} (shown : key ∉ hiddenKeys) :
    n.visible.KeyIn key := by
  intro k known hidden
  rw [toR_of_stringValueCStr known] at hidden
  exact shown hidden

namespace Cluster

variable {ι : Type}

/-- Two clusters that agree on the visible part, the first of which has come from
`c₀` without a change outside it. -/
structure Tied (c₀ c c' : Cluster ι) : Prop where
  table : c'.table = c.table
  tableOut : c.table = c₀.table
  node : ∀ i, (c₀.node i).visible.Tied (c₀.node i) (c.node i) (c'.node i)

variable {c₀ c c' : Cluster ι}

theorem Tied.routes (tied : c₀.Tied c c') : c.SameRoutes c' :=
  ⟨tied.table, fun i => (tied.node i).slots⟩

theorem Tied.origin (tied : c₀.Tied c c') : c₀.SameRoutes c :=
  ⟨tied.tableOut, fun i => (tied.node i).slotsOut⟩

/-- A request at a node, and how far it may be passed on. -/
def turn [DecidableEq ι] (c : Cluster ι) (event : Nat × ι × Request) : Option (Cluster ι) :=
  (serve event.1 event.2.1 c event.2.2).map Prod.snd

variable [DecidableEq ι]

/-! ## Calls -/

theorem Tied.update (tied : c₀.Tied c c') (e : ι) {n n' : Node}
    (here : (c₀.node e).visible.Tied (c₀.node e) n n') :
    c₀.Tied { c with node := Function.update c.node e n }
      { c' with node := Function.update c'.node e n' } := by
  refine ⟨tied.table, tied.tableOut, ?_⟩
  intro i
  by_cases same : i = e
  · subst same
    simpa using here
  · simpa [same] using tied.node i

/-- A call in the visible part. -/
theorem Tied.call (tied : c₀.Tied c c') {e : ι} {fwd : Forwarder ι} {β : Type} {a : Call β}
    (permits : (c₀.node e).visible.Permits (fun _ _ => False) a) :
    Prog.SameOutcome c₀.Tied (Cluster.call fwd e c a) (Cluster.call fwd e c' a) := by
  rw [call_eq_onNode permits.2, call_eq_onNode permits.2, onNode, onNode]
  have new : (c₀.node e).visible.ids (c.node e).fresh := Or.inr (tied.node e).later
  exact ((tied.node e).call new permits.1).map fun _ _ here => tied.update e here

theorem Tied.call_gives (tied : c₀.Tied c c') {e : ι} {fwd : Forwarder ι} {β : Type} {a : Call β}
    (permits : (c₀.node e).visible.Permits (fun _ _ => False) a) {b : β} {t : Cluster ι}
    (handled : Cluster.call fwd e c a = some (.ok b, t)) : (c₀.node e).visible.Gives a b := by
  rw [call_eq_onNode permits.2, onNode, Option.map_eq_some_iff] at handled
  obtain ⟨⟨r, n⟩, ran, same⟩ := handled
  obtain ⟨rfl, -⟩ := Prod.mk.inj same
  have new : (c₀.node e).visible.ids (c.node e).fresh := Or.inr (tied.node e).later
  exact (tied.node e).call_gives new permits.1 ran

/-- The local part of a command on a visible key. -/
theorem Tied.local (tied : c₀.Tied c c') {e : ι} (fwd : Forwarder ι) {key : RStr} {looks : Bool}
    {here : Script Reply} (isLocal : Local key looks here)
    (shown : looks = true → key ∉ hiddenKeys) :
    Prog.SameOutcome c₀.Tied (here.run (Cluster.call fwd e) c)
      (here.run (Cluster.call fwd e) c') := by
  cases looks with
  | false =>
      rcases isLocal.halts rfl with ⟨r, rfl⟩ | ⟨r, rfl⟩
      · exact ⟨rfl, tied⟩
      · exact ⟨rfl, tied⟩
  | true =>
      have stays := isLocal.stays (c₀.node e).visible (fun _ _ => False)
        ((c₀.node e).keyIn_visible (shown rfl))
      refine Prog.Within.run_same ?_ ?_ stays tied
      · intro β a s s' permits related
        exact related.call permits
      · intro β a s s' b t permits related handled
        exact related.call_gives permits handled

/-! ## Commands -/

/-- Forwards of what is not exposed run alike. -/
def ForwardsAlike (c₀ : Cluster ι) (fuel : Nat) : Prop :=
  ∀ {c c' : Cluster ι} (e : ι) (key query : RStr), c₀.Tied c c' →
    (∀ fuel' i r, fuel = fuel' + 1 → c₀.target e key query = some (i, r) →
      exposes fuel' i c₀ r = false) →
    Prog.SameOutcome c₀.Tied (forward fuel e c key query) (forward fuel e c' key query)

/-- A key whose DELETE is passed on and comes back is not hidden. -/
theorem Tied.shown_of_forwarded (tied : c₀.Tied c c') {fuel : Nat} {e : ι} {key : RStr}
    {args : List RStr} (quiet : exposes fuel e c₀ ⟨.delete, key :: args⟩ = false)
    (elsewhere : (c.node e).shard.includes key = .ok false) {reply : Reply} {t : Cluster ι}
    (forwarded : forward fuel e c key (lit "DELETE " ++ key) = some (.ok reply, t)) :
    key ∉ hiddenKeys := by
  intro hidden
  obtain ⟨fuel', i, r, isSucc, found, returns⟩ :=
    (forward_delete_ok c fuel e key).mp ⟨reply, t, forwarded⟩
  rw [delete_returns, tied.origin.deletes] at returns
  rw [tied.origin.target] at found
  rw [tied.origin.includes] at elsewhere
  have exposed : exposes fuel e c₀ ⟨.delete, key :: args⟩ = true :=
    (exposes_iff rfl rfl fuel e c₀).mpr
      (Or.inr ⟨elsewhere, fuel', i, r, isSucc, found, Or.inr ⟨⟨rfl, hidden⟩, returns⟩⟩)
  rw [quiet] at exposed
  cases exposed

/-- The owner check, and what follows on each side. -/
theorem Tied.shardInclude (tied : c₀.Tied c c') {fuel : Nat} {e : ι} {key : RStr}
    {k : Bool → Script Reply}
    (rest : ∀ b, (c.node e).shard.includes key = .ok b →
      Prog.SameOutcome c₀.Tied ((k b).run (Cluster.call (forward fuel) e) c)
        ((k b).run (Cluster.call (forward fuel) e) c')) :
    Prog.SameOutcome c₀.Tied
      ((Prog.call (.shardInclude key) k).run (Cluster.call (forward fuel) e) c)
      ((Prog.call (.shardInclude key) k).run (Cluster.call (forward fuel) e) c') := by
  rw [Prog.run, Prog.run]
  have asked : ∀ s : Cluster ι, Cluster.call (forward fuel) e s (.shardInclude key) =
      some ((s.node e).shard.includes key, s) := fun s => onNode_shardInclude s e key
  rw [asked, asked, tied.routes.includes]
  cases included : (c.node e).shard.includes key with
  | error raised => exact ⟨rfl, tied⟩
  | ok b => exact rest b included

/-- DELETE on a key that is not exposed. -/
theorem Tied.delete (tied : c₀.Tied c c') {fuel : Nat} (far : c₀.ForwardsAlike fuel) {e : ι}
    {key : RStr} {args : List RStr} (quiet : exposes fuel e c₀ ⟨.delete, key :: args⟩ = false) :
    Prog.SameOutcome c₀.Tied ((Command.delete (key :: args)).run (Cluster.call (forward fuel) e) c)
      ((Command.delete (key :: args)).run (Cluster.call (forward fuel) e) c') := by
  have notExposed : ¬ exposes fuel e c₀ ⟨.delete, key :: args⟩ = true := by simp [quiet]
  rw [exposes_iff rfl rfl, ← tied.origin.includes] at notExposed
  push Not at notExposed
  obtain ⟨shown, passed⟩ := notExposed
  refine tied.shardInclude ?_
  intro included answer
  cases included with
  | true => exact tied.local (forward fuel) (local_deleteHere key) fun _ => shown answer rfl
  | false =>
      refine Prog.SameOutcome.run_call (far e key (lit "DELETE " ++ key) tied ?_) ?_
      · intro fuel' i r isSucc found
        simpa using (passed answer fuel' i r isSucc found).1
      · intro reply t t' after forwarded
        exact after.local (forward fuel) (local_deleteHere key) fun _ =>
          tied.shown_of_forwarded quiet answer forwarded

/-- Commands that are not exposed run alike if forwards do. -/
theorem Tied.exec_of_forward (tied : c₀.Tied c c') {fuel : Nat} (far : c₀.ForwardsAlike fuel)
    {e : ι} {r : Request} (quiet : exposes fuel e c₀ r = false) :
    Prog.SameOutcome c₀.Tied ((r.cmd.exec r.argv).run (Cluster.call (forward fuel) e) c)
      ((r.cmd.exec r.argv).run (Cluster.call (forward fuel) e) c') := by
  rcases r with ⟨cmd, argv⟩
  cases queryIs : cmd.query argv with
  | none =>
      obtain ⟨reply, same⟩ := Cmd.exec_of_query_none queryIs
      simp only [same]
      exact ⟨rfl, tied⟩
  | some query =>
      rcases argv with - | ⟨key, args⟩
      · cases cmd <;> cases queryIs
      · by_cases isDelete : cmd = .delete
        · subst isDelete
          exact tied.delete far quiet
        · obtain ⟨here, same, isLocal⟩ := Cmd.shape isDelete queryIs
          have notExposed : ¬ exposes fuel e c₀ ⟨cmd, key :: args⟩ = true := by simp [quiet]
          rw [exposes_iff rfl queryIs, ← tied.origin.includes] at notExposed
          push Not at notExposed
          obtain ⟨shown, passed⟩ := notExposed
          simp only [same]
          refine tied.shardInclude ?_
          intro included answer
          cases included with
          | true => exact tied.local (forward fuel) isLocal (shown answer)
          | false =>
              refine Prog.SameOutcome.run_call (far e key query tied ?_) ?_
              · intro fuel' i r isSucc found
                simpa using (passed answer fuel' i r isSucc found).1
              · intro reply t t' after _
                exact ⟨rfl, after⟩

omit [DecidableEq ι] in
theorem SameOutcome.busReply {x x' : Option (Except Raise Reply × Cluster ι)}
    (same : Prog.SameOutcome c₀.Tied x x') :
    Prog.SameOutcome c₀.Tied (Cluster.busReply x) (Cluster.busReply x') := by
  rcases x with - | ⟨r, t⟩
  · rcases x' with - | ⟨r', t'⟩
    · trivial
    · exact same.elim
  · rcases x' with - | ⟨r', t'⟩
    · cases r <;> exact same.elim
    · obtain ⟨rfl, after⟩ := same
      cases r with
      | ok reply => exact ⟨rfl, after⟩
      | error raised => exact ⟨rfl, after⟩

/-- However often they are passed on. -/
theorem forwardsAlike (c₀ : Cluster ι) (fuel : Nat) : c₀.ForwardsAlike fuel := by
  induction fuel with
  | zero =>
      intro c c' e key query tied quiet
      exact trivial
  | succ fuel ih =>
      intro c c' e key query tied quiet
      have origin := tied.origin.target e key query
      rcases found : c₀.target e key query with - | ⟨i, r⟩
      · rw [found] at origin
        obtain ⟨out, same⟩ := forward_no_target origin fuel
        rw [same c ⟨rfl, fun _ => rfl⟩, same c' tied.routes]
        exact ⟨rfl, tied⟩
      · rw [found] at origin
        rw [forward_target origin, forward_target ((tied.routes.target e key query).trans origin)]
        exact SameOutcome.busReply (tied.exec_of_forward ih (quiet fuel i r rfl found))

/-! ## Requests -/

/-- A request that is not exposed. -/
theorem Tied.serve (tied : c₀.Tied c c') (fuel : Nat) {e : ι} {r : Request}
    (quiet : refused r ∨ ∀ fuel, exposes fuel e c₀ r = false) :
    Prog.SameOutcome c₀.Tied (serve fuel e c r) (serve fuel e c' r) := by
  unfold Cluster.serve
  by_cases isRefused : refused r
  · obtain ⟨message, raises⟩ := script_of_refused isRefused
    rw [raises]
    exact ⟨rfl, tied⟩
  · rw [script_of_not_refused isRefused]
    exact tied.exec_of_forward (forwardsAlike c₀ fuel) (quiet.resolve_left isRefused fuel)

omit [DecidableEq ι]

theorem SameVisible.refl (c : Cluster ι) : c.SameVisible c :=
  ⟨rfl, fun _ => ⟨fun _ _ => rfl, fun _ _ _ _ => rfl, rfl, rfl⟩⟩

theorem SameVisible.routes (same : c.SameVisible c') : c.SameRoutes c' :=
  ⟨same.table, fun i => (same.node i).slots⟩

/-- Clusters that differ in what hidden keys hold are tied. -/
theorem SameVisible.tied (same : c.SameVisible c') (wf : ∀ i, (c.node i).Wf)
    (wf' : ∀ i, (c'.node i).Wf) : c.Tied c c' := by
  refine ⟨same.table, rfl, ?_⟩
  intro i
  have here := same.node i
  refine ⟨⟨here.db, ?_, here.slots, ?_, fun _ _ => rfl, fun _ _ => rfl, rfl⟩, here.fresh, le_rfl⟩
  · intro id either
    rcases either with ⟨k, shown, entry⟩ | new
    · exact here.objs k id shown entry
    · -- neither node has made an object of this number
      have missing : ∀ n : Node, n.Wf → n.fresh ≤ id → n.objs id = none := by
        intro n good later
        by_contra present
        obtain ⟨o, found⟩ := Option.ne_none_iff_exists'.mp present
        exact absurd (good.allocated id o found) (Nat.not_lt.mpr later)
      rw [missing _ (wf i) new, missing _ (wf' i) (here.fresh.symm ▸ new)]
  · intro k id shown entry
    exact Or.inl ⟨k, shown, entry⟩

theorem Tied.sameVisible (tied : c₀.Tied c c') : c.SameVisible c' := by
  refine ⟨tied.table, ?_⟩
  intro i
  have here := tied.node i
  refine ⟨here.db, ?_, here.slots, here.fresh⟩
  intro k id shown entry
  exact here.objs id (here.held k id shown entry)

/-- The hidden part is as it was. -/
theorem Tied.content_hidden (tied : c₀.Tied c c') {i : ι} (wf : (c₀.node i).Wf) {k : CStr}
    (hidden : k.toR ∈ hiddenKeys) : (c.node i).content k = (c₀.node i).content k := by
  have here := tied.node i
  have db : (c.node i).db k = (c₀.node i).db k := here.dbOut k (not_not.mpr hidden)
  rw [Node.content, Node.content, db]
  rcases entry : (c₀.node i).db k with - | s | id
  · rfl
  · rfl
  · have apart : ¬ (c₀.node i).visible.ids id := wf.not_part (not_not.mpr hidden) entry
    simp only [here.objsOut id apart]

/-- Where no node is given a hidden key, their values are not observable. -/
theorem unobservable_of_quiet [DecidableEq ι] {c : Cluster ι} (wf : ∀ i, (c.node i).Wf) {e : ι}
    {r : Request} (quiet : refused r ∨ ∀ fuel, exposes fuel e c r = false) :
    c.Unobservable e r := by
  intro fuel c' same wf'
  have tied := same.tied wf wf'
  refine ⟨(tied.serve fuel quiet).mono fun _ _ after => after.sameVisible, ?_⟩
  intro out t served i k hidden
  have quiet' : refused r ∨ ∀ fuel, exposes fuel e c' r = false := by
    refine quiet.imp_right ?_
    intro never fuel
    rw [same.routes.exposes]
    exact never fuel
  have alone := ((SameVisible.refl c').tied wf' wf').serve fuel quiet'
  rw [served] at alone
  exact alone.2.content_hidden (wf' i) hidden

/-- The values of hidden keys are neither used nor observable nor altered exactly
if the check refuses the request or no node that executes it, the first one or
one that it is passed on to, is given a hidden key. -/
theorem hidden_keys_unreachable_iff [DecidableEq ι] {c : Cluster ι} (wf : ∀ i, (c.node i).Wf)
    (e : ι) (r : Request) :
    (c.Untouched e r ∧ c.Unobservable e r) ↔
      refused r ∨ ∀ fuel, exposes fuel e c r = false := by
  constructor
  · intro found
    obtain ⟨untouched, _⟩ := found
    exact (untouched_iff c e r).mp untouched
  · intro quiet
    exact ⟨(untouched_iff c e r).mpr quiet, unobservable_of_quiet wf quiet⟩

/-! ## Nodes stay well formed -/

section WellFormed

variable [DecidableEq ι] {t : Cluster ι} {r : Except Raise Reply}

theorem wf_local (wf : ∀ i, (c.node i).Wf) {e : ι} {fwd : Forwarder ι} {key : RStr} {looks : Bool}
    {here : Script Reply} (isLocal : Local key looks here)
    (ran : here.run (Cluster.call fwd e) c = some (r, t)) (i : ι) : (t.node i).Wf := by
  let R : Region := (c.node e).part fun k => k.toR = key
  have single : ∀ k k' : CStr, k.toR = key → k'.toR = key → k = k' := by
    intro k k' isKey same
    obtain ⟨bytes, _⟩ := k
    obtain ⟨bytes', _⟩ := k'
    obtain rfl := isKey
    obtain rfl : bytes' = bytes := same
    rfl
  have stays : Stays R (fun _ _ => False) here :=
    isLocal.stays R _ fun k known => toR_of_stringValueCStr known
  have kept : (∀ i, (t.node i).Wf) ∧ R.Tied (c.node e) (t.node e) (t.node e) := by
    refine Prog.Within.run_keeps
      (I := fun t : Cluster ι => (∀ i, (t.node i).Wf) ∧ R.Tied (c.node e) (t.node e) (t.node e))
      ?_ stays ⟨wf, (c.node e).tied_part _⟩ ran
    intro β a s out s' permits found handled
    obtain ⟨good, tied⟩ := found
    rw [call_eq_onNode permits.2, onNode, Option.map_eq_some_iff] at handled
    obtain ⟨⟨out', n⟩, called, same⟩ := handled
    obtain ⟨rfl, rfl⟩ := Prod.mk.inj same
    have new : R.ids (s.node e).fresh := Or.inr tied.later
    have after := tied.call new permits.1
    rw [called] at after
    have fine : n.Wf := (good e).call ((wf e).storesAlone single tied permits.1) called
    refine ⟨⟨?_, ?_⟩, ?_⟩
    · intro i
      by_cases at_e : i = e
      · subst at_e
        simpa using fine
      · simpa [at_e] using good i
    · simpa using after.2
    · intro b same
      obtain rfl := same
      exact tied.call_gives new permits.1 called
  exact kept.1 i

omit [DecidableEq ι] in
theorem wf_busReply {x : Option (Except Raise Reply × Cluster ι)}
    (keeps : ∀ r t, x = some (r, t) → ∀ i, (t.node i).Wf) (ran : busReply x = some (r, t)) (i : ι) :
    (t.node i).Wf := by
  rcases x with - | ⟨raised | reply, t'⟩
  · cases ran
  · cases ran
    exact keeps _ _ rfl i
  · cases ran
    exact keeps _ _ rfl i

/-- A command keeps nodes well formed if what it passes on does. -/
theorem wf_exec_of_forward {fuel : Nat} {e : ι}
    (far : ∀ {c t : Cluster ι} {key query : RStr} {r : Except Raise Reply}, (∀ i, (c.node i).Wf) →
      forward fuel e c key query = some (r, t) → ∀ i, (t.node i).Wf)
    (wf : ∀ i, (c.node i).Wf) {q : Request}
    (ran : (q.cmd.exec q.argv).run (Cluster.call (forward fuel) e) c = some (r, t)) :
    ∀ i, (t.node i).Wf := by
  rcases q with ⟨cmd, argv⟩
  cases queryIs : cmd.query argv with
  | none =>
      obtain ⟨reply, same⟩ := Cmd.exec_of_query_none queryIs
      simp only [same] at ran
      cases ran
      exact wf
  | some query =>
      rcases argv with - | ⟨key, args⟩
      · cases cmd <;> cases queryIs
      · by_cases isDelete : cmd = .delete
        · subst isDelete
          replace ran : (Command.delete (key :: args)).run _ c = _ := ran
          rw [delete_run] at ran
          rcases included : (c.node e).shard.includes key with raised | - | -
          · rw [included] at ran
            cases ran
            exact wf
          · simp only [included] at ran
            rcases forwarded : forward fuel e c key (lit "DELETE " ++ key) with - | ⟨raised | b, c'⟩
            · rw [forwarded] at ran
              cases ran
            · rw [forwarded] at ran
              cases ran
              exact far wf forwarded
            · rw [forwarded] at ran
              exact wf_local (far wf forwarded) (local_deleteHere key) ran
          · rw [included] at ran
            exact wf_local wf (local_deleteHere key) ran
        · obtain ⟨here, same, isLocal⟩ := Cmd.shape isDelete queryIs
          simp only [same] at ran
          rw [unlessLocal_run] at ran
          rcases included : (c.node e).shard.includes key with raised | - | -
          · rw [included] at ran
            cases ran
            exact wf
          · rw [included] at ran
            exact far wf ran
          · rw [included] at ran
            exact wf_local wf isLocal ran

theorem wf_forward (fuel : Nat) {c t : Cluster ι} {e : ι} {key query : RStr}
    {r : Except Raise Reply} (wf : ∀ i, (c.node i).Wf)
    (ran : forward fuel e c key query = some (r, t)) : ∀ i, (t.node i).Wf := by
  induction fuel generalizing c t e key query r with
  | zero => cases ran
  | succ fuel ih =>
      rcases found : c.target e key query with - | ⟨i, q⟩
      · obtain ⟨out, same⟩ := forward_no_target found fuel
        rw [same c ⟨rfl, fun _ => rfl⟩] at ran
        cases ran
        exact wf
      · rw [forward_target found] at ran
        refine wf_busReply ?_ ran
        intro r t ran
        exact wf_exec_of_forward ih wf ran

/-- A request leaves a cluster of well-formed nodes such. -/
theorem wf_serve (wf : ∀ i, (c.node i).Wf) {fuel : Nat} {e : ι} {q : Request}
    (served : serve fuel e c q = some (r, t)) : ∀ i, (t.node i).Wf := by
  unfold serve at served
  by_cases isRefused : refused q
  · obtain ⟨message, raises⟩ := script_of_refused isRefused
    rw [raises] at served
    cases served
    exact wf
  · rw [script_of_not_refused isRefused] at served
    exact wf_exec_of_forward (wf_forward fuel) wf served

theorem wf_of_reach {c₀ : Cluster ι} (wf : ∀ i, (c₀.node i).Wf) (run : Reachable turn c₀ c) :
    ∀ i, (c.node i).Wf := by
  refine run.invariant (I := fun c : Cluster ι => ∀ i, (c.node i).Wf) wf ?_
  intro c event t wf _ fired
  obtain ⟨out, ran, rfl⟩ := Option.map_eq_some_iff.mp fired
  exact wf_serve wf ran

/-- After any requests to nodes that began well formed the values of hidden keys are safe
from the next one in the same cases. -/
theorem hidden_keys_of_reach {c₀ : Cluster ι} (wf : ∀ i, (c₀.node i).Wf)
    (run : Reachable turn c₀ c) (e : ι) (r : Request) :
    (c.Untouched e r ∧ c.Unobservable e r) ↔
      refused r ∨ ∀ fuel, exposes fuel e c r = false := by
  constructor
  · intro found
    obtain ⟨untouched, _⟩ := found
    exact (untouched_iff c e r).mp untouched
  · intro quiet
    exact ⟨(untouched_iff c e r).mpr quiet, unobservable_of_quiet (wf_of_reach wf run) quiet⟩

end WellFormed

theorem nodup_slotsOfPair : [lit "7629", lit "8217"].Nodup := by decide

/-- Two nodes: the second has the slots of the keys `k` and `xfiredb`. -/
def pair : Cluster (Fin 2) where
  node i := if i = 0 then Node.empty ⟨[], [], List.nodup_nil, List.nodup_nil⟩ 0 true
    else Node.empty ⟨[lit "7629", lit "8217"], [], nodup_slotsOfPair, List.nodup_nil⟩ 0 true
  table i := if i = 0 then [1] else [0]

theorem wf_pair (i : Fin 2) : (pair.node i).Wf := by
  simp only [pair]
  split
  · exact ⟨by simp [Node.empty], by simp [Node.empty]⟩
  · exact ⟨by simp [Node.empty], by simp [Node.empty]⟩

theorem hidden_keys_unreachable_get :
    pair.Untouched 0 ⟨.get, [lit "k"]⟩ ∧ pair.Unobservable 0 ⟨.get, [lit "k"]⟩ := by
  have visible : lit "k" ∉ hiddenKeys := by decide
  have notHere : (pair.node 0).shard.includes (lit "k") = .ok false := by decide
  have target : pair.target 0 (lit "k") (lit "GET " ++ lit "k") = some (1, ⟨.get, [lit "k"]⟩) := rfl
  have there : (pair.node 1).shard.includes (lit "k") = .ok true := by decide
  refine (hidden_keys_unreachable_iff wf_pair 0 _).mpr (Or.inr ?_)
  intro fuel
  rw [← Bool.not_eq_true, exposes_iff rfl rfl]
  intro either
  rcases either with ⟨owned, _⟩ | ⟨_, fuel', i, r, _, found, exposed | ⟨⟨isDelete, _⟩, _⟩⟩
  · rw [notHere] at owned
    cases owned
  · rw [target] at found
    cases found
    rw [exposes_iff rfl rfl] at exposed
    rcases exposed with ⟨_, _, hidden⟩ | ⟨elsewhere, _⟩
    · exact visible hidden
    · rw [there] at elsewhere
      cases elsewhere
  · cases isDelete

/-- A key with a blank in it. -/
def spacedSet : Request := ⟨.set, [lit "xfiredb x", lit "v"]⟩

theorem spacedSet_not_refused : ¬ refused spacedSet := by
  intro found
  obtain ⟨key, head, hidden⟩ := found
  obtain rfl := Option.some.inj head
  revert hidden
  decide

theorem spacedSet_target :
    pair.target 0 (lit "xfiredb x") (lit "SET " ++ lit "xfiredb x" ++ lit " " ++ quote (lit "v")) =
      some (1, ⟨.set, [lit "xfiredb", lit "x", lit "v"]⟩) := rfl

theorem nulFree_xfiredb : 0 ∉ lit "xfiredb" := by decide

theorem nulFree_x : 0 ∉ lit "x" := by decide

/-- What the second node holds under `xfiredb` afterwards. -/
theorem serve_spacedSet :
    ((serve 1 0 pair spacedSet).map fun out =>
      (out.2.node 1).content ⟨lit "xfiredb", nulFree_xfiredb⟩) =
        some (some (.string ⟨lit "x", nulFree_x⟩)) := by
  have passed : serve 1 0 pair spacedSet =
      busReply ((Cmd.set.exec [lit "xfiredb", lit "x", lit "v"]).run
        (Cluster.call (forward 0) 1) pair) := by
    rw [serve, script_of_not_refused spacedSet_not_refused]
    show (Command.unlessLocal _ _ _).run _ _ = _
    rw [unlessLocal_run, show (pair.node 0).shard.includes (lit "xfiredb x") = .ok false by decide]
    exact forward_target spacedSet_target 0
  rw [passed]
  show Option.map _ (busReply ((Command.unlessLocal _ _ _).run _ _)) = _
  rw [unlessLocal_run, show (pair.node 1).shard.includes (lit "xfiredb") = .ok true by decide]
  rfl

/-- A quoted key with a blank passes the check; the text that is forwarded has no
quotes, so the far node stores `x` under `xfiredb`. -/
theorem hidden_key_overwritten :
    requestOf (lit "SET \"xfiredb x\" \"v\"\n") = some spacedSet ∧ ¬ refused spacedSet ∧
      ¬ pair.Untouched 0 spacedSet ∧ ¬ pair.Unobservable 0 spacedSet := by
  have parsed : parseXql (chomp (lit "SET \"xfiredb x\" \"v\"\n")) =
      some ⟨lit "SET", [lit "xfiredb x", lit "v"]⟩ := by decide +kernel
  refine ⟨?_, spacedSet_not_refused, ?_, ?_⟩
  · rw [requestOf, parsed]
    rfl
  · rw [untouched_iff]
    intro either
    rcases either with isRefused | never
    · exact spacedSet_not_refused isRefused
    · have far : exposes 0 1 pair ⟨.set, [lit "xfiredb", lit "x", lit "v"]⟩ = true :=
        (exposes_iff rfl rfl 0 1 pair).mpr (Or.inl ⟨by decide, rfl, by decide⟩)
      have exposed : exposes 1 0 pair spacedSet = true :=
        (exposes_iff rfl rfl 1 0 pair).mpr
          (Or.inr ⟨by decide, 0, 1, _, rfl, spacedSet_target, Or.inl far⟩)
      rw [never 1] at exposed
      cases exposed
  · intro unobservable
    obtain ⟨_, unaltered⟩ := unobservable 1 pair (SameVisible.refl pair) wf_pair
    have stored := serve_spacedSet
    obtain ⟨⟨out, t⟩, served, content⟩ := Option.map_eq_some_iff.mp stored
    have same := unaltered out t served 1 ⟨lit "xfiredb", nulFree_xfiredb⟩ (by decide)
    have nothing : (pair.node 1).content ⟨lit "xfiredb", nulFree_xfiredb⟩ = none := rfl
    rw [same, nothing] at content
    cases content

end Cluster

end XFireDB
