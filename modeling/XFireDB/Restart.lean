import XFireDB.LoadTable
import XFireDB.Lib.Runs

/-!
# Restarting a node

A node serves requests, the worker empties the queue into the table, and
`Engine#start` loads the table again.  The database comes back after every run
whose engine calls meet `PersistOk`; a run that breaks it loses data.
-/

namespace XFireDB

open Lib

/-- After the worker has emptied the queue, a restart brings the database back:
the same keys, types, strings, elements, bindings and members. -/
def Node.Restores (n : Node) : Prop :=
  ∃ n', engineStart n.shard n.persistLevel (bioWorker [] n.queue) = some n' ∧ n'.view = n.view

/-- The commands that write strings, hashmaps and sets. -/
def Cmd.keyedWrites : List Cmd := [.set, .delete, .mAdd, .mDel, .mClear, .sAdd, .sDel, .sClear]

/-- The commands that write lists. -/
def Cmd.listWrites : List Cmd := [.lPush, .lSet, .lPop, .lClear, .delete]

theorem Cmd.writes_of_keyedWrites {cmd : Cmd} (keyed : cmd ∈ Cmd.keyedWrites) : cmd.Writes := by
  cases cmd <;> simp [Cmd.keyedWrites, Cmd.Writes] at keyed ⊢

theorem Cmd.writes_of_listWrites {cmd : Cmd} (lists : cmd ∈ Cmd.listWrites) : cmd.Writes := by
  cases cmd <;> simp [Cmd.listWrites, Cmd.Writes] at lists ⊢

theorem Node.sound_empty (shard : KeyShard) {persistLevel : Nat} (below : persistLevel < 3) :
    (Node.empty shard persistLevel true).Sound where
  tracks := by
    refine ⟨[], ⟨?_, ?_⟩, fun _ => rfl, fun _ => rfl, fun _ j => ?_⟩
    · intro k id entry
      cases entry
    · intro id o found
      cases found
    · rw [show (Node.empty shard persistLevel true).queue = [] from rfl, List.take_nil]
      exact fun _ => ⟨none, rfl⟩
  persists := ⟨rfl, below⟩
  full := by
    intro k c stored
    cases stored

/-- A run of persistable writes keeps a node sound. -/
theorem Node.Sound.reach {cmds : List Cmd} (writes : ∀ cmd ∈ cmds, cmd.Writes) {n₀ n : Node}
    (sound : n₀.Sound) (run : Reach Node.serve (fun n r => r.cmd ∈ cmds ∧ n.Persistable r) n₀ n) :
    n.Sound := by
  refine run.invariant sound ?_
  intro m r m' sound' guard served
  obtain ⟨m'', served', after⟩ := sound'.serve (writes r.cmd guard.1) guard.2
  rw [served] at served'
  obtain rfl := Option.some.inj served'
  exact after

/-- Strings, hashmaps and sets survive a restart: after every run of writing
commands whose engine calls meet the guard, and such a run never crashes. -/
theorem keyed_restart_restores (shard : KeyShard) (persistLevel : Nat) (below : persistLevel < 3)
    {n : Node} (run : Reach Node.serve (fun n r => r.cmd ∈ Cmd.keyedWrites ∧ n.Persistable r)
      (Node.empty shard persistLevel true) n) :
    n.Restores ∧ ∀ r : Request, r.cmd ∈ Cmd.keyedWrites → n.Persistable r → (n.serve r).isSome := by
  have sound := Node.Sound.reach (fun _ => Cmd.writes_of_keyedWrites)
    (Node.sound_empty shard below) run
  refine ⟨sound.engineStart n.shard n.persistLevel, ?_⟩
  intro r keyed guard
  obtain ⟨n', served, _⟩ := sound.serve (Cmd.writes_of_keyedWrites keyed) guard
  rw [served]
  rfl

theorem nodup_slotOfK : [lit "7629"].Nodup := by decide

/-- A shard with the slot of the key `k`. -/
def shardOfK : KeyShard := ⟨[lit "7629"], [], nodup_slotOfK, List.nodup_nil⟩

def nodeOfK : Node := Node.empty shardOfK 0 true

theorem nulFree_k : (0 : UInt8) ∉ [107] := by decide

def keyK : CStr := ⟨[107], nulFree_k⟩

/-- `MADD k h v` on an empty node, call by call. -/
theorem persistable_mAdd :
    nodeOfK.Persistable ⟨.mAdd, [lit "k", lit "h", lit "v"]⟩ := by
  have clear : Skiplist.HashClear ([] : Skiplist CStr) ⟨[104], by decide⟩ :=
    ⟨by decide +kernel, by simp⟩
  -- the owner check, `ensure`, and the reference to the new hashmap
  refine ⟨trivial, ?_⟩
  intro _ _ found
  obtain ⟨rfl⟩ := found
  refine ⟨trivial, ?_⟩
  intro _ _ found
  obtain ⟨rfl⟩ := found
  refine ⟨trivial, ?_⟩
  intro _ _ found
  obtain ⟨rfl⟩ := found
  refine ⟨trivial, ?_⟩
  intro _ _ found
  obtain ⟨rfl⟩ := found
  refine ⟨trivial, ?_⟩
  intro _ _ found
  obtain ⟨rfl⟩ := found
  refine ⟨?_, ?_⟩
  · intro nodes found
    obtain ⟨rfl⟩ := found
    rw [if_neg (by decide)]
    exact clear
  · intro _ _ found
    obtain ⟨rfl⟩ := found
    refine ⟨trivial, ?_⟩
    intro _ _ found
    obtain ⟨rfl⟩ := found
    trivial

theorem keyed_restart_restores_mAdd :
    ∃ n, nodeOfK.serve ⟨.mAdd, [lit "k", lit "h", lit "v"]⟩ = some n ∧ n.Restores := by
  refine ⟨_, rfl, (keyed_restart_restores shardOfK 0 (by decide)
    (.next .init ⟨by decide, persistable_mAdd⟩ rfl)).1⟩

/-- `SET k v`, then `SET k` with a NUL inside the data: the second raises after
the old entry has left the dictionary, and the row stays. -/
def nulOverString : List Request :=
  [⟨.set, [lit "k", lit "v"]⟩, ⟨.set, [lit "k", [97, 0, 98]]⟩]

theorem nulOverString_not_restored :
    ∃ n, runEvents Node.serve nodeOfK nulOverString = some n ∧ ¬ n.Restores := by
  refine ⟨_, rfl, ?_⟩
  intro found
  obtain ⟨n', ⟨rfl⟩, same⟩ := found
  have here := congrArg Option.isSome (congrFun same keyK)
  revert here
  decide

/-- Lists survive a restart: after every run of list commands whose engine calls
meet the guard, and such a run never crashes. -/
theorem list_restart_restores (shard : KeyShard) (persistLevel : Nat) (below : persistLevel < 3)
    {n : Node} (run : Reach Node.serve (fun n r => r.cmd ∈ Cmd.listWrites ∧ n.Persistable r)
      (Node.empty shard persistLevel true) n) :
    n.Restores ∧ ∀ r : Request, r.cmd ∈ Cmd.listWrites → n.Persistable r → (n.serve r).isSome := by
  have sound := Node.Sound.reach (fun _ => Cmd.writes_of_listWrites)
    (Node.sound_empty shard below) run
  refine ⟨sound.engineStart n.shard n.persistLevel, ?_⟩
  intro r lists guard
  obtain ⟨n', served, _⟩ := sound.serve (Cmd.writes_of_listWrites lists) guard
  rw [served]
  rfl

/-- `LPUSH k a` on an empty node, call by call. -/
theorem persistable_lPush : nodeOfK.Persistable ⟨.lPush, [lit "k", lit "a"]⟩ := by
  refine ⟨trivial, ?_⟩
  intro _ _ found
  obtain ⟨rfl⟩ := found
  refine ⟨trivial, ?_⟩
  intro _ _ found
  obtain ⟨rfl⟩ := found
  refine ⟨trivial, ?_⟩
  intro _ _ found
  obtain ⟨rfl⟩ := found
  refine ⟨trivial, ?_⟩
  intro _ _ found
  obtain ⟨rfl⟩ := found
  refine ⟨trivial, ?_⟩
  intro _ _ found
  obtain ⟨rfl⟩ := found
  refine ⟨fun nul => absurd nul (by decide), ?_⟩
  intro _ _ found
  obtain ⟨rfl⟩ := found
  refine ⟨trivial, ?_⟩
  intro _ _ found
  obtain ⟨rfl⟩ := found
  trivial

theorem list_restart_restores_lPush :
    ∃ n, nodeOfK.serve ⟨.lPush, [lit "k", lit "a"]⟩ = some n ∧ n.Restores := by
  refine ⟨_, rfl, (list_restart_restores shardOfK 0 (by decide)
    (.next .init ⟨by decide, persistable_lPush⟩ rfl)).1⟩

/-- The list `a b a` loses its last element; on disk the first row goes. -/
def popLastOfEqual : List Request :=
  [⟨.lPush, [lit "k", lit "a"]⟩, ⟨.lPush, [lit "k", lit "b"]⟩, ⟨.lPush, [lit "k", lit "a"]⟩,
    ⟨.lPop, [lit "k", lit "2"]⟩]

theorem popLastOfEqual_not_restored :
    ∃ n, runEvents Node.serve nodeOfK popLastOfEqual = some n ∧ ¬ n.Restores := by
  refine ⟨_, rfl, ?_⟩
  intro found
  obtain ⟨n', ⟨rfl⟩, same⟩ := found
  have here := congrArg (Option.map Value.elems) (congrFun same keyK)
  revert here
  decide

end XFireDB
