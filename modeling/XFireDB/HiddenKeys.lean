import XFireDB.ClusterBus
import XFireDB.FootprintRuns
import XFireDB.Tracking

/-!
# Hidden keys

What clients can do with the keys that `Command#initialize` refuses.  The check
is made once, at the node a request arrives at; a forwarded command is executed
without it, on the key that the far node reads out of the text.
-/

namespace XFireDB

open Lib

namespace Cluster

variable {ι : Type}

/-- The node that gets a forwarded text and the command it makes of it. -/
def target (c : Cluster ι) (e : ι) (key query : RStr) : Option (ι × Request) :=
  match c.whereIs e key with
  | .error _ => none
  | .ok i =>
    (parseXql (wireLine query)).bind fun x => (Cmd.ofName x.cmd).map fun cmd => (i, ⟨cmd, x.args⟩)

/-- DELETE at node `e` comes to its end: every node it is passed on to answers. -/
def deletes : Nat → ι → Cluster ι → List RStr → Bool
  | fuel, e, c, argv =>
    match argv with
    | [] => true
    | key :: _ =>
      match (c.node e).shard.includes key with
      | .error _ => false
      | .ok true => true
      | .ok false =>
        match fuel with
        | 0 => false
        | fuel + 1 =>
          match c.target e key (lit "DELETE " ++ key) with
          | some (i, r) => deletes fuel i c r.argv
          | none => false

/-- The request, executed at node `e` without a check, or a node that it is passed
on to uses a hidden key.  This depends on the slots and on texts only. -/
def exposes : Nat → ι → Cluster ι → Request → Bool
  | fuel, e, c, r =>
    match r.cmd.query r.argv, r.argv.head? with
    | some query, some key =>
      match (c.node e).shard.includes key with
      | .error _ => false
      | .ok true => r.cmd.looks r.argv && decide (key ∈ hiddenKeys)
      | .ok false =>
        match fuel with
        | 0 => false
        | fuel + 1 =>
          match c.target e key query with
          | none => false
          | some (i, r') =>
            exposes fuel i c r' ||
              (decide (r.cmd = .delete ∧ key ∈ hiddenKeys) && deletes fuel i c r'.argv)
    | _, _ => false

variable [DecidableEq ι]

/-- A call at node `e` uses a hidden key, there or at a node it is passed on to. -/
def Touches : Nat → ι → {β : Type} → Cluster ι → Call β → Prop
  | 0, _, _, _, .forward _ _ => False
  | fuel + 1, e, _, c, .forward key query =>
    match c.target e key query with
    | none => False
    | some (i, r) =>
      (r.cmd.exec r.argv).Hits (Cluster.call (forward fuel) i) (Touches fuel i) c
  | _, _, _, _, call => ∃ key, call.dbKey = some key ∧ key ∈ hiddenKeys

/-- No call made for the request, at any node, uses a hidden key. -/
def Untouched (c : Cluster ι) (e : ι) (r : Request) : Prop :=
  ∀ fuel, ¬ r.script.Hits (Cluster.call (forward fuel) e) (Touches fuel e) c

end Cluster

/-- Nodes that differ at most in what hidden keys hold. -/
structure Node.SameVisible (n n' : Node) : Prop where
  db : ∀ k : CStr, k.toR ∉ hiddenKeys → n'.db k = n.db k
  objs : ∀ (k : CStr) id, k.toR ∉ hiddenKeys → n.db k = some (.object id) → n'.objs id = n.objs id
  slots : n'.shard.slots = n.shard.slots
  fresh : n'.fresh = n.fresh

namespace Cluster

variable {ι : Type}

/-- Clusters that differ at most in what hidden keys hold. -/
structure SameVisible (c c' : Cluster ι) : Prop where
  table : c'.table = c.table
  node : ∀ i, (c.node i).SameVisible (c'.node i)

/-- Neither the reply to the request nor its effect on other keys depends on what
hidden keys hold, and it leaves what they hold alone. -/
def Unobservable [DecidableEq ι] (c : Cluster ι) (e : ι) (r : Request) : Prop :=
  ∀ fuel (c' : Cluster ι), c.SameVisible c' → (∀ i, (c'.node i).Wf) →
    Prog.SameOutcome SameVisible (serve fuel e c r) (serve fuel e c' r) ∧
    ∀ out t, serve fuel e c' r = some (out, t) → ∀ i (k : CStr), k.toR ∈ hiddenKeys →
      (t.node i).content k = (c'.node i).content k

/-! ## Ownership decides the route -/

/-- The node tables and slots are the same. -/
structure SameRoutes (c c' : Cluster ι) : Prop where
  table : c'.table = c.table
  slots : ∀ i, (c'.node i).shard.slots = (c.node i).shard.slots

variable {c c' : Cluster ι}

theorem SameRoutes.includes (routes : c.SameRoutes c') (i : ι) (key : RStr) :
    (c'.node i).shard.includes key = (c.node i).shard.includes key :=
  Region.Tied.includes_congr (routes.slots i) key

theorem SameRoutes.ask (routes : c.SameRoutes c') (key : RStr) (ids : List ι) :
    c'.ask key ids = c.ask key ids := by
  induction ids with
  | nil => rfl
  | cons i ids ih =>
      have sameAnswer : c'.youHave i key = c.youHave i key := by
        unfold youHave
        split
        · rfl
        · rw [routes.includes]
      simp only [Cluster.ask, sameAnswer, ih]

theorem SameRoutes.whereIs (routes : c.SameRoutes c') (e : ι) (key : RStr) :
    c'.whereIs e key = c.whereIs e key := by
  unfold Cluster.whereIs
  split
  · rfl
  · rw [routes.table, routes.ask]

theorem SameRoutes.target (routes : c.SameRoutes c') (e : ι) (key query : RStr) :
    c'.target e key query = c.target e key query := by
  unfold Cluster.target
  rw [routes.whereIs]

theorem SameRoutes.deletes (routes : c.SameRoutes c') (fuel : Nat) (e : ι) (argv : List RStr) :
    deletes fuel e c' argv = deletes fuel e c argv := by
  induction fuel generalizing e argv with
  | zero =>
      unfold Cluster.deletes
      simp only [routes.includes]
  | succ fuel ih =>
      unfold Cluster.deletes
      simp only [routes.includes, routes.target, ih]

theorem SameRoutes.exposes (routes : c.SameRoutes c') (fuel : Nat) (e : ι) (r : Request) :
    exposes fuel e c' r = exposes fuel e c r := by
  induction fuel generalizing e r with
  | zero =>
      unfold Cluster.exposes
      simp only [routes.includes]
  | succ fuel ih =>
      unfold Cluster.exposes
      simp only [routes.includes, routes.target, routes.deletes, ih]

/-! ## Forwards -/

variable [DecidableEq ι]

theorem start_bus (cmd : Cmd) (argv : List RStr) : cmd.start true argv = cmd.exec argv := by
  unfold Cmd.start
  split
  · rw [if_neg (by simp)]
  · rfl

/-- A forward that has a target is the execution there. -/
theorem forward_target {e i : ι} {key query : RStr} {r : Request}
    (target : c.target e key query = some (i, r)) (fuel : Nat) :
    forward (fuel + 1) e c key query =
      busReply ((r.cmd.exec r.argv).run (Cluster.call (forward fuel) i) c) := by
  unfold Cluster.target at target
  rw [Cluster.forward]
  match owner : c.whereIs e key with
  | .error _ => simp [owner] at target
  | .ok j =>
      simp only [owner, Option.bind_eq_some_iff, Option.map_eq_some_iff] at target
      obtain ⟨x, parsed, cmd, named, same⟩ := target
      obtain ⟨rfl, rfl⟩ := Prod.mk.inj same
      simp only [busQuery, parsed, named, start_bus]

/-- A forward without a target changes nothing, and what becomes of it depends on
routes and texts only. -/
theorem forward_no_target {e : ι} {key query : RStr} (target : c.target e key query = none)
    (fuel : Nat) : ∃ out, ∀ c' : Cluster ι, c.SameRoutes c' →
      forward (fuel + 1) e c' key query = some (out, c') := by
  unfold Cluster.target at target
  match owner : c.whereIs e key with
  | .error r =>
      refine ⟨.error r, fun c' routes => ?_⟩
      simp only [Cluster.forward, routes.whereIs, owner]
  | .ok j =>
      simp only [owner] at target
      match parsed : parseXql (wireLine query) with
      | none =>
          refine ⟨.error .noReply, fun c' routes => ?_⟩
          simp only [Cluster.forward, routes.whereIs, owner, busQuery, parsed]
      | some x =>
          match named : Cmd.ofName x.cmd with
          | none =>
              refine ⟨.ok (Command.text "-Command not known").received, fun c' routes => ?_⟩
              simp only [Cluster.forward, routes.whereIs, owner, busQuery, parsed, named]
          | some cmd => simp [parsed, named] at target

theorem call_eq_onNode {β : Type} {call : Call β} (notForward : call.Sends fun _ _ => False)
    (fwd : Forwarder ι) (e : ι) (c : Cluster ι) : Cluster.call fwd e c call = c.onNode e call := by
  cases call <;> first | rfl | exact notForward.elim

theorem onNode_shardInclude (c : Cluster ι) (e : ι) (key : RStr) :
    c.onNode e (.shardInclude key) = some ((c.node e).shard.includes key, c) := by
  simp [onNode, Node.call]

omit [DecidableEq ι] in
/-- A forwarded DELETE arrives as DELETE. -/
theorem target_delete (c : Cluster ι) (e : ι) (key : RStr) :
    (∃ r, c.whereIs e key = .error r ∧ c.target e key (lit "DELETE " ++ key) = none) ∨
    ∃ i args, c.target e key (lit "DELETE " ++ key) = some (i, ⟨.delete, args⟩) := by
  have text : lit "DELETE " ++ key = lit "DELETE" ++ 32 :: key := by simp [lit]
  obtain ⟨rest, arrived⟩ := wireLine_word (w := lit "DELETE") (by decide) key
  obtain ⟨args, parsed⟩ := parseXql_word (w := lit "DELETE") ⟨by decide, by decide +kernel⟩ rest
  have isDelete : Cmd.ofName (upcase (lit "DELETE")) = some .delete := rfl
  unfold Cluster.target
  rw [text, arrived, parsed]
  cases owner : c.whereIs e key with
  | error r => exact Or.inl ⟨r, rfl, rfl⟩
  | ok i => exact Or.inr ⟨i, args, by simp [isDelete]⟩

theorem unlessLocal_run {key query : RStr} {here : Script Reply} (fwd : Forwarder ι) (e : ι)
    (c : Cluster ι) :
    (Command.unlessLocal key query here).run (Cluster.call fwd e) c =
      match (c.node e).shard.includes key with
      | .error r => some (.error r, c)
      | .ok true => here.run (Cluster.call fwd e) c
      | .ok false => fwd e c key query := by
  have asked : Cluster.call fwd e c (.shardInclude key) = some ((c.node e).shard.includes key, c) :=
    onNode_shardInclude c e key
  show Prog.run _ c (Prog.call (Call.shardInclude key) _) = _
  rw [Prog.run, asked]
  rcases (c.node e).shard.includes key with r | - | -
  · rfl
  · show Prog.run _ c (Prog.call (Call.forward key query) Prog.ret) = fwd e c key query
    rw [Prog.run, show Cluster.call fwd e c (.forward key query) = fwd e c key query from rfl]
    rcases fwd e c key query with - | ⟨r | b, c'⟩
    · rfl
    · rfl
    · rfl
  · rfl

/-! ## Who uses hidden keys -/

theorem hiddenKeys_nulFree {key : RStr} (hidden : key ∈ hiddenKeys) : 0 ∉ key := by
  revert key
  decide

/-- A local script uses a hidden key if it looks at its key and that is one. -/
theorem hits_local {key : RStr} {looks : Bool} {here : Script Reply}
    (isLocal : Local key looks here) (fuel : Nat) (e : ι) (c : Cluster ι) :
    here.Hits (Cluster.call (forward fuel) e) (Touches fuel e) c ↔
      looks = true ∧ key ∈ hiddenKeys := by
  constructor
  · intro hits
    cases looks with
    | false =>
        rcases isLocal.halts rfl with ⟨r, rfl⟩ | ⟨r, rfl⟩
        · exact hits.elim
        · exact hits.elim
    | true =>
        refine ⟨rfl, ?_⟩
        by_contra visible
        -- all calls are on the key
        let R : Region := ⟨fun k => k.toR = key, fun _ => True⟩
        have stays : Stays R (fun _ _ => False) here :=
          isLocal.stays R _ fun k known => toR_of_stringValueCStr known
        refine Prog.Within.not_hits (I := fun _ => True) ?_ ?_ stays trivial hits
        · intro β call c permits _ touches
          have named : ∃ key', call.dbKey = some key' ∧ key' ∈ hiddenKeys := by
            cases call with
            | forward key' query' => exact permits.2.elim
            | _ => cases fuel <;> exact touches
          obtain ⟨key', dbKey, hidden⟩ := named
          have inRegion : R.KeyIn key' := by
            cases call with
            | dbRef key'' => cases dbKey; exact permits.1
            | dbStore key'' data => cases dbKey; exact permits.1.1
            | dbDelete key'' => cases dbKey; exact permits.1
            | _ => cases dbKey
          have known : stringValueCStr key' = .ok ⟨key', hiddenKeys_nulFree hidden⟩ := by
            rw [stringValueCStr, dif_neg (hiddenKeys_nulFree hidden)]
          have same : key' = key := inRegion _ known
          exact visible (same ▸ hidden)
        · intro β call c b t _ _ _
          refine ⟨trivial, ?_⟩
          cases call with
          | dbRef key' => exact fun _ _ _ => trivial
          | _ => trivial
  · intro found
    obtain ⟨rfl, hidden⟩ := found
    obtain ⟨β, call, k, rfl, dbKey⟩ := isLocal.opens rfl
    refine Or.inl ?_
    cases call with
    | forward key' query' => cases dbKey
    | _ => cases fuel <;> exact ⟨key, dbKey, hidden⟩

theorem touches_forward_succ {fuel : Nat} {e : ι} {key query : RStr} :
    Touches (fuel + 1) e c (.forward key query) ↔
      ∃ i r, c.target e key query = some (i, r) ∧
        (r.cmd.exec r.argv).Hits (Cluster.call (forward fuel) i) (Touches fuel i) c := by
  simp only [Touches]
  split
  · rename_i noTarget
    simp [noTarget]
  · rename_i i r found
    constructor
    · exact fun hits => ⟨i, r, found, hits⟩
    · intro found
      obtain ⟨i', r', found', hits⟩ := found
      rw [found] at found'
      obtain ⟨rfl, rfl⟩ := Prod.mk.inj (Option.some.inj found')
      exact hits

theorem shardInclude_ok {fuel : Nat} {e : ι} {key : RStr} {b : Bool} :
    Cluster.call (forward fuel) e c (.shardInclude key) = some (.ok b, c') ↔
      (c.node e).shard.includes key = .ok b ∧ c' = c := by
  have asked : Cluster.call (forward fuel) e c (.shardInclude key) =
      c.onNode e (.shardInclude key) := rfl
  rw [asked, onNode_shardInclude, Option.some.injEq, Prod.mk.injEq]
  exact and_congr_right fun _ => eq_comm

theorem not_touches_shardInclude {fuel : Nat} {e : ι} {key : RStr} :
    ¬ Touches fuel e c (.shardInclude key) := by
  cases fuel <;> rintro ⟨_, named, _⟩ <;> cases named

theorem hits_unlessLocal {key query : RStr} {here : Script Reply} {fuel : Nat} {e : ι} :
    (Command.unlessLocal key query here).Hits (Cluster.call (forward fuel) e) (Touches fuel e) c ↔
      ((c.node e).shard.includes key = .ok true ∧
        here.Hits (Cluster.call (forward fuel) e) (Touches fuel e) c) ∨
      ((c.node e).shard.includes key = .ok false ∧ Touches fuel e c (.forward key query)) := by
  constructor
  · intro either
    rcases either with touches | ⟨included, c', answered, later⟩
    · exact absurd touches not_touches_shardInclude
    · obtain ⟨answer, rfl⟩ := shardInclude_ok.mp answered
      cases included with
      | true => exact Or.inl ⟨answer, later⟩
      | false =>
          rcases later with touches | ⟨_, _, _, never⟩
          · exact Or.inr ⟨answer, touches⟩
          · exact never.elim
  · intro either
    rcases either with ⟨answer, later⟩ | ⟨answer, touches⟩
    · exact Or.inr ⟨true, c, shardInclude_ok.mpr ⟨answer, rfl⟩, later⟩
    · exact Or.inr ⟨false, c, shardInclude_ok.mpr ⟨answer, rfl⟩, Or.inl touches⟩

/-! ## DELETE -/

/-- The part of DELETE that is local. -/
def deleteHere (key : RStr) : Script Reply := do
  Command.engine (.dbDelete key)
  Command.exec key false
  pure (Command.text "-OK")

theorem local_deleteHere (key : RStr) : Local key true (deleteHere key) :=
  ⟨fun _ _ mine => stays_removed mine, fun _ => ⟨_, _, _, rfl, rfl⟩, by simp⟩

theorem deleteHere_run {key : RStr} {k : CStr} (known : stringValueCStr key = .ok k)
    (fwd : Forwarder ι) (e : ι) (c : Cluster ι) :
    ∃ t, (deleteHere key).run (Cluster.call fwd e) c = some (.ok (Command.text "-OK"), t) := by
  obtain ⟨n, deleted⟩ : ∃ n, (c.node e).rbDbDelete key = (.ok (), n) := by
    unfold Node.rbDbDelete
    rw [known]
    split
    · cases ‹Except.ok _ = Except.error _›
    · split <;> exact ⟨_, rfl⟩
  have first : Cluster.call fwd e c (.dbDelete key) =
      some (.ok (), { c with node := Function.update c.node e n }) := by
    show c.onNode e (.dbDelete key) = _
    simp [onNode, Node.call, deleted]
  have ran : (deleteHere key).run (Cluster.call fwd e) c =
      (do
        Command.exec key false
        pure (Command.text "-OK") : Script Reply).run (Cluster.call fwd e)
          { c with node := Function.update c.node e n } :=
    Prog.run_bind_ok (Prog.run_lift_ok first)
  rw [ran]
  exact ⟨_, rfl⟩

theorem delete_run {key : RStr} {args : List RStr} (fwd : Forwarder ι) (e : ι) (c : Cluster ι) :
    (Command.delete (key :: args)).run (Cluster.call fwd e) c =
      match (c.node e).shard.includes key with
      | .error r => some (.error r, c)
      | .ok true => (deleteHere key).run (Cluster.call fwd e) c
      | .ok false =>
        match fwd e c key (lit "DELETE " ++ key) with
        | none => none
        | some (.error r, c') => some (.error r, c')
        | some (.ok _, c') => (deleteHere key).run (Cluster.call fwd e) c' := by
  have asked : Cluster.call fwd e c (.shardInclude key) = some ((c.node e).shard.includes key, c) :=
    onNode_shardInclude c e key
  show Prog.run _ c (Prog.call (Call.shardInclude key) _) = _
  rw [Prog.run, asked]
  rcases (c.node e).shard.includes key with r | - | -
  · rfl
  · show Prog.run _ c (Prog.call (Call.forward key _) _) = _
    rw [Prog.run, show Cluster.call fwd e c (.forward key (lit "DELETE " ++ key)) =
      fwd e c key (lit "DELETE " ++ key) from rfl]
    rcases fwd e c key (lit "DELETE " ++ key) with - | ⟨r | b, c'⟩
    · rfl
    · rfl
    · rfl
  · rfl

/-- A DELETE that is passed on returns where the far one does. -/
theorem forward_delete_ok (c : Cluster ι) (fuel : Nat) (e : ι) (key : RStr) :
    (∃ reply t, forward fuel e c key (lit "DELETE " ++ key) = some (.ok reply, t)) ↔
      ∃ fuel' i r, fuel = fuel' + 1 ∧ c.target e key (lit "DELETE " ++ key) = some (i, r) ∧
        ∃ reply t, (Command.delete r.argv).run (Cluster.call (forward fuel') i) c =
          some (.ok reply, t) := by
  cases fuel with
  | zero => simp [forward]
  | succ fuel =>
      rcases target_delete c e key with ⟨r, lost, noTarget⟩ | ⟨i, args, found⟩
      · simp [forward, lost, noTarget]
      · rw [forward_target found]
        constructor
        · intro found
          obtain ⟨reply, t, returned⟩ := found
          refine ⟨fuel, i, _, rfl, found, ?_⟩
          match ran : (Command.delete args).run (Cluster.call (forward fuel) i) c with
          | none => simp [Cmd.exec, ran, busReply] at returned
          | some (.error r, t) => simp [Cmd.exec, ran, busReply] at returned
          | some (.ok reply, t) => exact ⟨reply, t, rfl⟩
        · intro found
          obtain ⟨fuel', i', r, sameFuel, found', reply, t, ran⟩ := found
          obtain rfl := Nat.succ.inj sameFuel
          rw [found] at found'
          obtain ⟨rfl, rfl⟩ := Prod.mk.inj (Option.some.inj found')
          refine ⟨reply.received, t, ?_⟩
          show busReply ((Command.delete args).run _ c) = _
          rw [ran]
          rfl

/-- `deletes` says when DELETE returns. -/
theorem delete_returns (fuel : Nat) (e : ι) (c : Cluster ι) (argv : List RStr) :
    (∃ reply t, (Command.delete argv).run (Cluster.call (forward fuel) e) c = some (.ok reply, t)) ↔
      deletes fuel e c argv = true := by
  induction fuel generalizing e argv with
  | zero =>
      match argv with
      | [] => exact ⟨fun _ => rfl, fun _ => ⟨_, _, rfl⟩⟩
      | key :: args =>
          rw [delete_run, deletes]
          match included : (c.node e).shard.includes key with
          | .error r => simp
          | .ok true =>
              obtain ⟨k, known⟩ := KeyShard.includes_nulFree included
              obtain ⟨t, ran⟩ := deleteHere_run known (forward 0) e c
              exact ⟨fun _ => rfl, fun _ => ⟨_, t, ran⟩⟩
          | .ok false => simp [forward]
  | succ fuel ih =>
      match argv with
      | [] => exact ⟨fun _ => rfl, fun _ => ⟨_, _, rfl⟩⟩
      | key :: args =>
          rw [delete_run, deletes]
          match included : (c.node e).shard.includes key with
          | .error r => simp
          | .ok true =>
              obtain ⟨k, known⟩ := KeyShard.includes_nulFree included
              obtain ⟨t, ran⟩ := deleteHere_run known (forward (fuel + 1)) e c
              exact ⟨fun _ => rfl, fun _ => ⟨_, t, ran⟩⟩
          | .ok false =>
              have returns := forward_delete_ok c (fuel + 1) e key
              simp only
              constructor
              · intro found
                obtain ⟨reply, t, ran⟩ := found
                match forwarded : forward (fuel + 1) e c key (lit "DELETE " ++ key) with
                | none => simp [forwarded] at ran
                | some (.error r, c') => simp [forwarded] at ran
                | some (.ok reply', c') =>
                    obtain ⟨fuel', i, r, sameFuel, found, far⟩ := returns.mp ⟨reply', c', forwarded⟩
                    obtain rfl := Nat.succ.inj sameFuel
                    rw [found]
                    exact (ih i r.argv).mp far
              · intro ends
                match found : c.target e key (lit "DELETE " ++ key) with
                | none => simp [found] at ends
                | some (i, r) =>
                    simp only [found] at ends
                    obtain ⟨reply, c', forwarded⟩ :=
                      returns.mpr ⟨fuel, i, r, rfl, found, (ih i r.argv).mpr ends⟩
                    obtain ⟨k, known⟩ := KeyShard.includes_nulFree included
                    obtain ⟨t, ran⟩ := deleteHere_run known (forward (fuel + 1)) e c'
                    exact ⟨_, t, by rw [forwarded]; exact ran⟩

/-- DELETE uses a hidden key locally, there or where it is passed on to. -/
theorem hits_delete {key : RStr} {args : List RStr} {fuel : Nat} {e : ι} :
    (Command.delete (key :: args)).Hits (Cluster.call (forward fuel) e) (Touches fuel e) c ↔
      ((c.node e).shard.includes key = .ok true ∧ key ∈ hiddenKeys) ∨
      ((c.node e).shard.includes key = .ok false ∧
        (Touches fuel e c (.forward key (lit "DELETE " ++ key)) ∨
          (key ∈ hiddenKeys ∧
            ∃ reply t, forward fuel e c key (lit "DELETE " ++ key) = some (.ok reply, t)))) := by
  have here : ∀ t, (deleteHere key).Hits (Cluster.call (forward fuel) e) (Touches fuel e) t ↔
      key ∈ hiddenKeys := by
    intro t
    rw [hits_local (local_deleteHere key)]
    simp
  constructor
  · intro either
    rcases either with touches | ⟨included, c', answered, later⟩
    · exact absurd touches not_touches_shardInclude
    · obtain ⟨answer, rfl⟩ := shardInclude_ok.mp answered
      cases included with
      | true => exact Or.inl ⟨answer, (here _).mp later⟩
      | false =>
          rcases later with touches | ⟨reply, t, forwarded, after⟩
          · exact Or.inr ⟨answer, Or.inl touches⟩
          · exact Or.inr ⟨answer, Or.inr ⟨(here t).mp after, reply, t, forwarded⟩⟩
  · intro either
    rcases either with ⟨answer, hidden⟩ | ⟨answer, touches | ⟨hidden, reply, t, forwarded⟩⟩
    · exact Or.inr ⟨true, c, shardInclude_ok.mpr ⟨answer, rfl⟩, (here c).mpr hidden⟩
    · exact Or.inr ⟨false, c, shardInclude_ok.mpr ⟨answer, rfl⟩, Or.inl touches⟩
    · exact Or.inr ⟨false, c, shardInclude_ok.mpr ⟨answer, rfl⟩,
        Or.inr ⟨reply, t, forwarded, (here t).mpr hidden⟩⟩

/-! ## The condition -/

omit [DecidableEq ι] in
/-- A request that has its arguments is exposed by its own key, or where it is
passed on to. -/
theorem exposes_iff {r : Request} {key query : RStr} {args : List RStr}
    (argv : r.argv = key :: args)
    (queryIs : r.cmd.query r.argv = some query) (fuel : Nat) (e : ι) (c : Cluster ι) :
    exposes fuel e c r = true ↔
      ((c.node e).shard.includes key = .ok true ∧ r.cmd.looks r.argv = true ∧ key ∈ hiddenKeys) ∨
      ((c.node e).shard.includes key = .ok false ∧
        ∃ fuel' i r', fuel = fuel' + 1 ∧ c.target e key query = some (i, r') ∧
          (exposes fuel' i c r' = true ∨
            (r.cmd = .delete ∧ key ∈ hiddenKeys) ∧ deletes fuel' i c r'.argv = true)) := by
  have head : r.argv.head? = some key := by rw [argv]; rfl
  conv_lhs => unfold exposes
  simp only [queryIs, head]
  rcases (c.node e).shard.includes key with raised | - | -
  · simp
  · cases fuel with
    | zero => simp
    | succ fuel =>
        rcases c.target e key query with - | ⟨i, r'⟩
        · simp
        · simp
  · simp

/-- With what a forward may touch, what a command touches. -/
theorem hits_exec_of_forward {fuel : Nat} {e : ι}
    (far : ∀ key query, Touches fuel e c (.forward key query) ↔
      ∃ fuel' i r, fuel = fuel' + 1 ∧ c.target e key query = some (i, r) ∧
        exposes fuel' i c r = true) (r : Request) :
    (r.cmd.exec r.argv).Hits (Cluster.call (forward fuel) e) (Touches fuel e) c ↔
      exposes fuel e c r = true := by
  rcases r with ⟨cmd, argv⟩
  cases queryIs : cmd.query argv with
  | none =>
      obtain ⟨reply, same⟩ := Cmd.exec_of_query_none queryIs
      have blind : exposes fuel e c ⟨cmd, argv⟩ = false := by
        unfold exposes
        simp only [queryIs]
      simp only [same, blind, Bool.false_eq_true, iff_false]
      exact id
  | some query =>
      rcases argv with - | ⟨key, args⟩
      · cases cmd <;> cases queryIs
      · rw [exposes_iff rfl queryIs]
        by_cases isDelete : cmd = .delete
        · subst isDelete
          obtain rfl := Option.some.inj queryIs
          show (Command.delete (key :: args)).Hits _ _ c ↔ _
          rw [hits_delete]
          refine or_congr ?_ (and_congr_right fun _ => ?_)
          · simp [Cmd.looks]
          · rw [far, forward_delete_ok]
            simp only [delete_returns, true_and]
            constructor
            · rintro (⟨fuel', i, r, same, found, exposed⟩ |
                ⟨hidden, fuel', i, r, same, found, ends⟩)
              · exact ⟨fuel', i, r, same, found, Or.inl exposed⟩
              · exact ⟨fuel', i, r, same, found, Or.inr ⟨hidden, ends⟩⟩
            · intro found
              rcases found with ⟨fuel', i, r, same, found, exposed | ⟨hidden, ends⟩⟩
              · exact Or.inl ⟨fuel', i, r, same, found, exposed⟩
              · exact Or.inr ⟨hidden, fuel', i, r, same, found, ends⟩
        · obtain ⟨here, same, isLocal⟩ := Cmd.shape isDelete queryIs
          simp only [same, hits_unlessLocal, hits_local isLocal, far, isDelete, false_and, or_false]

/-- A command executed without a check uses a hidden key exactly if it is
exposed. -/
theorem hits_exec (fuel : Nat) (e : ι) (c : Cluster ι) (r : Request) :
    (r.cmd.exec r.argv).Hits (Cluster.call (forward fuel) e) (Touches fuel e) c ↔
      exposes fuel e c r = true := by
  induction fuel generalizing e r with
  | zero =>
      apply hits_exec_of_forward
      intro key query
      simp [Touches]
  | succ fuel ih =>
      apply hits_exec_of_forward
      intro key query
      rw [touches_forward_succ]
      simp [ih]

/-- The check refuses the request. -/
def refused (r : Request) : Prop := ∃ key, r.argv.head? = some key ∧ key ∈ hiddenKeys

theorem script_of_not_refused {r : Request} (allowed : ¬ refused r) :
    r.script = r.cmd.exec r.argv := by
  unfold Request.script Cmd.start
  split
  · rename_i key head
    rw [if_neg]
    intro found
    obtain ⟨_, hidden⟩ := found
    exact allowed ⟨key, head, hidden⟩
  · rfl

theorem script_of_refused {r : Request} (isRefused : refused r) : ∃ message,
    r.script = Prog.raise (.illegalKey message) := by
  obtain ⟨key, head, hidden⟩ := isRefused
  refine ⟨lit "Key: " ++ key ++ lit " is illegal", ?_⟩
  unfold Request.script Cmd.start
  simp only [head]
  rw [if_pos ⟨by decide, hidden⟩]

/-- Hidden keys are untouched exactly if the check refuses the request or no node
that executes it is given one. -/
theorem untouched_iff (c : Cluster ι) (e : ι) (r : Request) :
    c.Untouched e r ↔ refused r ∨ ∀ fuel, exposes fuel e c r = false := by
  by_cases isRefused : refused r
  · refine iff_of_true ?_ (Or.inl isRefused)
    obtain ⟨message, raises⟩ := script_of_refused isRefused
    intro fuel
    rw [raises]
    exact id
  · unfold Untouched
    simp only [script_of_not_refused isRefused, hits_exec, isRefused, false_or,
      Bool.not_eq_true]

end Cluster

end XFireDB
