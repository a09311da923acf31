import XFireDB.CommandRuns
import XFireDB.Restart

/-!
# Requests on a node

What holds between the requests that a node serves on keys of its own: the database is
well formed, its containers are exact, and in the engine itself they are ordered.
-/

namespace XFireDB

open Lib Node

/-! ## Exact containers stay exact -/

/-- What the effect leaves is exact. -/
def KeyEffect.Exact (e : KeyEffect) : Prop := ∀ r a, e = some (r, a) → Stored.Exact a.value

namespace KeyEffect

variable {v : Option Stored} {c : Container} {crash : List CStr → CStr → Bool}

theorem exact_list (elems : List CStr) : (Container.list elems).Exact := trivial

theorem exact_ofMap {nodes : Skiplist CStr} (distinct : (nodes.map SkiplistNode.key).Nodup) :
    (Container.ofMap nodes).Exact := ⟨distinct, rfl⟩

theorem exact_ofSet {nodes : Skiplist Unit} (distinct : (nodes.map SkiplistNode.key).Nodup) :
    (Container.ofSet nodes).Exact := ⟨distinct, rfl⟩

theorem exact_container (exact : c.Exact) (r : Except Raise Reply) (track : Option Bool) :
    KeyEffect.Exact (some (r, ⟨some (.container c), track⟩)) := by
  intro r a same c' held
  cases same
  cases held
  exact exact

theorem exact_same (exact : Stored.Exact v) (r : Except Raise Reply) :
    KeyEffect.Exact (some (r, ⟨v, none⟩)) := by
  intro r a same
  cases same
  exact exact

theorem exact_deletes (r : Reply) : KeyEffect.Exact (deletes r) := by
  intro r a same
  cases same
  nofun

theorem exact_leaves (exact : c.Exact) (r : Reply) : KeyEffect.Exact (leaves c r) := by
  unfold leaves
  split
  · exact exact_container exact _ _
  · exact exact_deletes r

section Loops

variable {β : Type} {nodes left : Skiplist β} {rv : Nat} {args : List RStr} {r : Except Raise Nat}

theorem removeAll_nodup (ran : removeAll crash nodes rv args = some (r, left))
    (distinct : (nodes.map SkiplistNode.key).Nodup) : (left.map SkiplistNode.key).Nodup := by
  induction args generalizing nodes rv with
  | nil =>
      cases ran
      exact distinct
  | cons h rest ih =>
      rw [removeAll] at ran
      split at ran
      · cases ran
        exact distinct
      · split at ran
        · cases ran
        · split at ran
          · exact ih ran (nodup_filter distinct _)
          · exact ih ran distinct

theorem exact_removed {of : Skiplist β → Container}
    (exactOf : ∀ left, (left.map SkiplistNode.key).Nodup → (of left).Exact)
    (distinct : (nodes.map SkiplistNode.key).Nodup) (args : List RStr) :
    KeyEffect.Exact (removed of (removeAll crash nodes 0 args)) := by
  cases ran : removeAll crash nodes 0 args with
  | none => nofun
  | some out =>
      obtain ⟨result, left⟩ := out
      have exact := exactOf left (removeAll_nodup ran distinct)
      cases result with
      | ok rv => exact exact_leaves exact _
      | error e => exact exact_container exact _ _

end Loops

theorem addAll_nodup {nodes left : Skiplist Unit} {rv : Nat} {args : List RStr}
    {r : Except Raise Nat} (ran : addAll crash nodes rv args = some (r, left))
    (distinct : (nodes.map SkiplistNode.key).Nodup) : (left.map SkiplistNode.key).Nodup := by
  induction args generalizing nodes rv with
  | nil =>
      cases ran
      exact distinct
  | cons h rest ih =>
      rw [addAll] at ran
      split at ran
      · cases ran
        exact distinct
      · split at ran
        · cases ran
        · split at ran
          · exact ih ran distinct
          · rename_i absent
            exact ih ran (nodup_insert distinct (by simpa using absent) ())

theorem exact_added {nodes : Skiplist Unit} (distinct : (nodes.map SkiplistNode.key).Nodup)
    (args : List RStr) : KeyEffect.Exact (added (addAll crash nodes 0 args)) := by
  cases ran : addAll crash nodes 0 args with
  | none => nofun
  | some out =>
      obtain ⟨result, left⟩ := out
      have exact := exact_ofSet (addAll_nodup ran distinct)
      cases result with
      | ok rv => exact exact_container exact _ _
      | error e => exact exact_container exact _ _

theorem putMap_nodup {nodes : Skiplist CStr} (distinct : (nodes.map SkiplistNode.key).Nodup)
    (h d : CStr) : ((putMap nodes h d).map SkiplistNode.key).Nodup := by
  rw [putMap]
  split
  · rw [map_key_setValue]
    exact distinct
  · rename_i absent
    exact nodup_insert distinct (by simpa using absent) d

theorem exact_answered (exact : Stored.Exact v) (x : Option (Except Raise (List RStr))) :
    KeyEffect.Exact (answered v x) := by
  unfold answered
  split
  · nofun
  · exact exact_same exact _
  · exact exact_same exact _

section Commands

variable (exact : Stored.Exact v)

include exact

theorem nodup_asSet : (((Stored.asSet v).getD []).map SkiplistNode.key).Nodup := by
  cases found : Stored.asSet v with
  | none => exact List.nodup_nil
  | some nodes =>
      obtain ⟨num, rfl⟩ := Stored.asSet_eq_some.mp found
      exact (exact _ rfl).1

theorem nodup_asMap : (((Stored.asMap v).getD []).map SkiplistNode.key).Nodup := by
  cases found : Stored.asMap v with
  | none => exact List.nodup_nil
  | some nodes =>
      obtain ⟨num, rfl⟩ := Stored.asMap_eq_some.mp found
      exact (exact _ rfl).1

theorem exact_mAdd (args : List RStr) : KeyEffect.Exact (mAdd crash v args) := by
  have distinct := nodup_asMap exact
  unfold mAdd
  split
  · have left := exact_ofMap distinct
    dsimp only
    split
    · exact exact_container left _ _
    · exact exact_container left _ _
    · rename_i h d _ _
      split
      · nofun
      · exact exact_container (exact_ofMap (putMap_nodup distinct h d)) _ _
  · exact exact_same exact _

/-- A command leaves an exact container if it finds one. -/
theorem exact_effect (cmd : Cmd) (args : List RStr) :
    KeyEffect.Exact (cmd.effect crash v args) := by
  cases cmd with
  | mAdd => exact exact_mAdd exact args
  | sAdd =>
      cases args with
      | nil => exact exact_same exact _
      | cons hkey rest => exact exact_added (nodup_asSet exact) _
  | mDel =>
      dsimp only [Cmd.effect, mDel]
      split
      · rename_i nodes found
        have distinct := nodup_asMap exact
        rw [found, Option.getD_some] at distinct
        exact exact_removed (fun _ => exact_ofMap) distinct args
      · exact exact_same exact _
  | sDel =>
      dsimp only [Cmd.effect]
      unfold sDel
      split
      · split
        · rename_i nodes found
          have distinct := nodup_asSet exact
          rw [found, Option.getD_some] at distinct
          exact exact_removed (fun _ => exact_ofSet) distinct _
        · exact exact_same exact _
      · exact exact_same exact _
  | mRef =>
      dsimp only [Cmd.effect, mRef]
      split
      · exact exact_answered exact _
      · exact exact_same exact _
  | sInclude =>
      dsimp only [Cmd.effect]
      unfold sInclude
      split
      · split
        · exact exact_answered exact _
        · exact exact_same exact _
      · exact exact_same exact _
  | set =>
      dsimp only [Cmd.effect]
      unfold set
      split
      · split
        · intro r a same
          cases same
          nofun
        · intro r a same
          cases same
          nofun
      · exact exact_same exact _
  | _ =>
    -- what is left of a list is a list, and the others keep the value or delete it
    simp only [Cmd.effect, get, clear, mSize, lPush, lPop, lPopIndex, lPopRange, lRef, lRefIndex,
      lRefRange, lSize, lSet]
    (repeat' split) <;> first
      | exact exact_same exact _
      | exact exact_deletes _
      | exact exact_container (exact_list _) _ _
      | exact exact_leaves (exact_list _) _

end Commands

end KeyEffect

/-! ## Between requests -/

/-- Well formed, with exact containers. -/
structure Node.Exact (n : Node) : Prop where
  wf : n.Wf
  stored : ∀ k, Stored.Exact (n.content k)

/-- The states of the engine: the skiplists are ordered too. -/
structure Node.Proper (n : Node) : Prop extends Node.Exact n where
  ordered : n.Ordered

variable {n t : Node} {k : CStr} {a : After} {crash : List CStr → CStr → Bool}

theorem Node.proper_empty (shard : KeyShard) (persistLevel : Nat) :
    (Node.empty shard persistLevel true).Proper where
  wf := ⟨nofun, nofun⟩
  stored := nofun
  ordered := nofun

theorem Node.Wf.db_eq_none (wf : n.Wf) (k : CStr) : n.db k = none ↔ n.content k = none := by
  rcases wf.content_cases k with ⟨missing, nothing⟩ | ⟨s, found, string⟩ | ⟨id, o, holds⟩
  · exact iff_of_true missing nothing
  · rw [found, string]
    exact iff_of_false nofun nofun
  · rw [holds.db, holds.content]
    exact iff_of_false nofun nofun

theorem Node.Leaves.here (leaves : n.Leaves k t a) : t.content k = a.value := by
  rw [leaves.content, Function.update_self]

theorem Node.Leaves.frame (leaves : n.Leaves k t a) {k' : CStr} (other : k' ≠ k) :
    t.content k' = n.content k' := by
  rw [leaves.content, Function.update_of_ne other]

theorem Node.Leaves.includes (leaves : n.Leaves k t a) (key : RStr) :
    t.shard.includes key = n.shard.includes key := Region.Tied.includes_congr leaves.slots key

theorem Node.Exact.leaves (exact : n.Exact) (leaves : n.Leaves k t a)
    (here : Stored.Exact a.value) : t.Exact := by
  refine ⟨leaves.wf, ?_⟩
  intro k'
  rcases eq_or_ne k' k with rfl | other
  · rw [leaves.here]
    exact here
  · rw [leaves.frame other]
    exact exact.stored k'

theorem Node.Exact.hasEffect (exact : n.Exact)
    (owned : n.shard.includes k.toR = .ok true) (cmd : Cmd) (args : List RStr) :
    HasEffect crash n k (cmd.exec (k.toR :: args)) (cmd.effect crash (n.content k) args) :=
  XFireDB.hasEffect exact.wf owned (exact.stored k) cmd args

section Engine

variable (proper : n.Proper) (owned : n.shard.includes k.toR = .ok true) {cmd : Cmd}
    {args : List RStr}
  {r : Except Raise Reply}

include proper owned

/-- What the engine does on a key of the node. -/
theorem Node.Proper.hasEffect (cmd : Cmd) (args : List RStr) :
    Prog.SameOutcome (n.Leaves k) ((cmd.exec (k.toR :: args)).run Node.call n)
      (cmd.effect collides (n.content k) args) := by
  rw [proper.ordered.run_eq]
  exact proper.toExact.hasEffect owned cmd args

omit owned in
theorem Node.Proper.leaves (leaves : n.Leaves k t a)
    (ran : (cmd.exec (k.toR :: args)).run Node.call n = some (r, t))
    (effect : cmd.effect collides (n.content k) args = some (r, a)) : t.Proper := by
  have here := KeyEffect.exact_effect (proper.stored k) cmd args r a effect
  exact ⟨proper.toExact.leaves leaves here, proper.ordered.run ran⟩

/-- A command with an effect runs to a proper state. -/
theorem Node.Proper.run_of_effect (effect : cmd.effect collides (n.content k) args = some (r, a)) :
    ∃ t, (cmd.exec (k.toR :: args)).run Node.call n = some (r, t) ∧ n.Leaves k t a ∧ t.Proper := by
  have same := proper.hasEffect owned cmd args
  rw [effect] at same
  obtain ⟨t, ran, leaves⟩ := same.of_right
  exact ⟨t, ran, leaves, proper.leaves leaves ran effect⟩

theorem Node.Proper.effect_of_run (ran : (cmd.exec (k.toR :: args)).run Node.call n = some (r, t)) :
    ∃ a, cmd.effect collides (n.content k) args = some (r, a) ∧ n.Leaves k t a ∧ t.Proper := by
  have same := proper.hasEffect owned cmd args
  rw [ran] at same
  obtain ⟨a, effect, leaves⟩ := same.of_left
  exact ⟨a, effect, leaves, proper.leaves leaves ran effect⟩

end Engine

/-! ## Requests -/

/-- The key, if it has a slot at all, is one of the node's. -/
def Request.Stays (n : Node) (r : Request) : Prop :=
  ∀ key ∈ r.argv.head?, n.shard.includes key ≠ .ok false

/-- Serve a request on exact containers; `none` if the process crashes. -/
def Node.serveWith (crash : List CStr → CStr → Bool) (n : Node) (r : Request) : Option Node :=
  (r.script.run (Node.callWith crash) n).map (·.2)

/-- A command without arguments is told its syntax. -/
theorem run_bare (cmd : Cmd) :
    ∃ r, (cmd.exec []).run (callWith crash) n = some (r, n) := by
  cases cmd <;> exact ⟨_, rfl⟩

/-- A key that has no slot raises before anything is done. -/
theorem run_unhashed {key : RStr} {e : Raise}
    (unhashed : n.shard.includes key = .error e) (cmd : Cmd) (args : List RStr) :
    ∃ r, (cmd.exec (key :: args)).run (callWith crash) n = some (r, n) := by
  have asked : callWith crash n (.shardInclude key) = some (n.shard.includes key, n) := rfl
  rw [unhashed] at asked
  have raising : ∀ query here, (Command.unlessLocal key query here).run (callWith crash) n =
      some (.error e, n) := fun query here => run_call_error asked
  cases cmd with
  | delete => exact ⟨_, run_call_error asked⟩
  | lSet =>
      match args with
      | [] => exact ⟨_, rfl⟩
      | [_] => exact ⟨_, rfl⟩
      | idx :: data :: rest =>
          dsimp only [Cmd.exec, Command.lSet]
          split
          · exact ⟨_, raising _ _⟩
          · exact ⟨_, rfl⟩
  | mAdd =>
      match args with
      | [] => exact ⟨_, rfl⟩
      | [_] => exact ⟨_, rfl⟩
      | hkey :: data :: rest => exact ⟨_, raising _ _⟩
  | sInclude => cases args <;> first | exact ⟨_, raising _ _⟩ | exact ⟨_, rfl⟩
  | sDel => cases args <;> first | exact ⟨_, raising _ _⟩ | exact ⟨_, rfl⟩
  | sAdd => cases args <;> first | exact ⟨_, raising _ _⟩ | exact ⟨_, rfl⟩
  | lPush => cases args <;> first | exact ⟨_, raising _ _⟩ | exact ⟨_, rfl⟩
  | lPop => cases args <;> first | exact ⟨_, raising _ _⟩ | exact ⟨_, rfl⟩
  | lRef => cases args <;> first | exact ⟨_, raising _ _⟩ | exact ⟨_, rfl⟩
  | set => cases args <;> first | exact ⟨_, raising _ _⟩ | exact ⟨_, rfl⟩
  | _ => exact ⟨_, raising _ _⟩

/-- The request is a command on the key `k` of the node, which is open to clients. -/
def Request.On (r : Request) (n : Node) (k : CStr) (args : List RStr) : Prop :=
  r.argv = k.toR :: args ∧ n.shard.includes k.toR = .ok true ∧ k.toR ∉ hiddenKeys

/-- A request is refused and changes nothing, or has the effect of its command on a key
of the node. -/
theorem Node.Exact.script_cases (exact : n.Exact) (crash : List CStr → CStr → Bool) {r : Request}
    (stays : r.Stays n) :
    ((∀ k args, ¬ r.On n k args) ∧ ∃ out, r.script.run (callWith crash) n = some (out, n)) ∨
    ∃ k args, r.On n k args ∧ HasEffect crash n k r.script
        (r.cmd.effect crash (n.content k) args) := by
  obtain ⟨cmd, argv⟩ := r
  cases argv with
  | nil => exact Or.inl ⟨nofun, run_bare cmd⟩
  | cons key args =>
      rw [Request.script, Cmd.start]
      dsimp only [List.head?_cons]
      split
      · rename_i hidden
        refine Or.inl ⟨?_, _, rfl⟩
        intro k args' found
        obtain ⟨argv, _, shown⟩ := found
        rw [← List.head_eq_of_cons_eq argv] at shown
        exact shown hidden.2
      · rename_i shown
        cases included : n.shard.includes key with
        | error e =>
            refine Or.inl ⟨?_, run_unhashed included cmd args⟩
            intro k args' found
            obtain ⟨argv, owned, _⟩ := found
            rw [← List.head_eq_of_cons_eq argv, included] at owned
            cases owned
        | ok owned =>
            cases owned with
            | false => exact absurd included (stays key rfl)
            | true =>
                obtain ⟨k, known⟩ := KeyShard.includes_nulFree included
                obtain rfl := toR_of_stringValueCStr known
                have shown : k.toR ∉ hiddenKeys := fun hidden => shown ⟨Bool.false_ne_true, hidden⟩
                exact Or.inr ⟨k, args, ⟨rfl, included, shown⟩, exact.hasEffect included cmd args⟩

/-- Requests on keys of the node keep the engine proper. -/
theorem Node.Proper.serve (proper : n.Proper) {r : Request} (stays : r.Stays n)
    (served : n.serve r = some t) :
    t.Proper := by
  obtain ⟨⟨out, t⟩, ran, rfl⟩ := Option.map_eq_some_iff.mp served
  have ordered := proper.ordered.run ran
  rw [proper.ordered.run_eq] at ran
  refine ⟨?_, ordered⟩
  rcases proper.toExact.script_cases collides stays with ⟨_, out', refused⟩ | ⟨k, args, _, has⟩
  · rw [refused] at ran
    cases ran
    exact proper.toExact
  · rw [HasEffect, ran] at has
    obtain ⟨a, effect, leaves⟩ := has.of_left
    exact proper.toExact.leaves leaves
      (KeyEffect.exact_effect (proper.stored k) r.cmd args out a effect)

/-- Every state that a node comes to by requests on its keys is proper. -/
theorem proper_of_reach (shard : KeyShard) (persistLevel : Nat)
    (run : Reach Node.serve (fun n r => r.Stays n) (Node.empty shard persistLevel true) n) :
    n.Proper := by
  refine run.invariant (Node.proper_empty shard persistLevel) ?_
  intro m r m' proper stays served
  exact proper.serve stays served

end XFireDB
