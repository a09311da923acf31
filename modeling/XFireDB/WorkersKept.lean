import XFireDB.WorkerPool
import XFireDB.OneStore

/-!
# Lines that workers survive

A node that owns every slot serves its clients with a pool of one worker, so that no
other command runs between the calls of one.  Which lines cost the worker is decided by
the line and by what the key of its request holds: `workersKept_iff`.
-/

namespace XFireDB

open Lib Command

/-! ## Replies have a mark -/

namespace KeyEffect

/-- A reply of the effect has a mark. -/
def Speaks (e : KeyEffect) : Prop := ∀ reply a, e = some (.ok reply, a) → reply.Marked

variable {v : Option Stored} {c : Container} {r : Reply} {args : List RStr}

theorem speaks_of_ok {a : After} (marked : r.Marked) : Speaks (some (.ok r, a)) := by
  intro reply a same
  cases same
  exact marked

theorem speaks_of_error (e : Raise) (a : After) : Speaks (some (.error e, a)) := nofun

theorem speaks_none : Speaks none := nofun

theorem speaks_leaves (marked : r.Marked) : Speaks (leaves c r) := by
  unfold leaves
  split
  · exact speaks_of_ok marked
  · exact speaks_of_ok marked

theorem speaks_fixed {s : String} {a : After} (known : s ∈ replyTexts) :
    Speaks (some (.ok (text s), a)) :=
  speaks_of_ok (marked_fixed known)

theorem speaks_answered {β : Type} {nodes : Skiplist β} {word : Option (SkiplistNode β) → RStr}
    (marked : ∀ found, Marked (word found)) (args : List RStr) :
    Speaks (answered v (answers collides nodes word args)) := by
  match ran : answers collides nodes word args with
  | none => nofun
  | some (.ok rv) => exact speaks_of_ok (answers_marked marked ran)
  | some (.error e) => exact speaks_of_error e _

theorem speaks_removed {β : Type} (of : Skiplist β → Container)
    (x : Option (Except Raise Nat × Skiplist β)) : Speaks (removed of x) := by
  match x with
  | none => nofun
  | some (.ok rv, left) => exact speaks_leaves (marked_count rv)
  | some (.error e, left) => exact speaks_of_error e _

theorem speaks_added (x : Option (Except Raise Nat × Skiplist Unit)) : Speaks (added x) := by
  match x with
  | none => nofun
  | some (.ok rv, nodes) => exact speaks_of_ok (marked_count rv)
  | some (.error e, nodes) => exact speaks_of_error e _

theorem refRange_marked {elems : List CStr} {pos : Int} {count : Nat} {rv : List RStr}
    (ran : refRange elems pos count = .ok rv) : Reply.Marked (.lines rv) := by
  induction count generalizing pos rv with
  | zero =>
      cases ran
      exact fun s member => absurd member List.not_mem_nil
  | succ count ih =>
      rw [refRange] at ran
      split at ran
      · cases ran
      · cases ranLater : refRange elems (pos + 1) count with
        | error e =>
            rw [ranLater] at ran
            cases ran
        | ok later =>
            rw [ranLater] at ran
            cases ran
            refine List.forall_mem_cons.mpr ⟨?_, ih ranLater⟩
            split
            · exact marked_plus _
            · exact marked_nil

theorem speaks_lPop : Speaks (lPop v args) := by
  unfold lPop
  split
  · split
    · unfold lPopIndex
      (repeat' split) <;> first
        | exact speaks_of_error _ _
        | exact speaks_leaves (marked_plus _)
        | exact speaks_fixed (by simp [replyTexts])
    · split
      · exact speaks_of_error _ _
      · exact speaks_of_ok (marked_lPop _)
      · unfold lPopRange
        split
        · dsimp only
          split
          · split
            · exact speaks_of_error _ _
            · exact speaks_leaves (popRange_marked _ _ _)
          · exact speaks_of_ok (marked_lPop _)
        · exact speaks_fixed (by simp [replyTexts])
  · exact speaks_fixed (by simp [replyTexts])

theorem speaks_lRef : Speaks (lRef v args) := by
  unfold lRef
  split
  · split
    · unfold lRefIndex
      (repeat' split) <;> first
        | exact speaks_of_error _ _
        | exact speaks_of_ok (marked_plus _)
        | exact speaks_fixed (by simp [replyTexts])
    · split
      · exact speaks_of_error _ _
      · exact speaks_of_ok (marked_lRef _)
      · unfold lRefRange
        split
        · dsimp only
          split
          · split
            · exact speaks_of_error _ _
            · rename_i rv ran
              exact speaks_of_ok (refRange_marked ran)
          · exact speaks_of_ok (marked_lRef _)
        · exact speaks_fixed (by simp [replyTexts])
  · exact speaks_fixed (by simp [replyTexts])

theorem speaks_effect (cmd : Cmd) : Speaks (cmd.effect collides v args) := by
  cases cmd with
  | mRef =>
      dsimp only [Cmd.effect, mRef]
      split
      · apply speaks_answered
        intro found
        split
        · exact marked_nil
        · exact marked_plus _
      · exact speaks_fixed (by simp [replyTexts])
  | sInclude =>
      dsimp only [Cmd.effect]
      unfold sInclude
      split
      · split
        · apply speaks_answered
          intro found
          exact marked_front (s := "&") (by simp [replyTexts]) _
        · exact speaks_fixed (by simp [replyTexts])
      · exact speaks_fixed (by simp [replyTexts])
  | mDel =>
      dsimp only [Cmd.effect, mDel]
      split
      · exact speaks_removed _ _
      · exact speaks_fixed (by simp [replyTexts])
  | sDel =>
      dsimp only [Cmd.effect]
      unfold sDel
      split
      · split
        · exact speaks_removed _ _
        · exact speaks_fixed (by simp [replyTexts])
      · exact speaks_fixed (by simp [replyTexts])
  | sAdd =>
      dsimp only [Cmd.effect]
      unfold sAdd
      split
      · exact speaks_added _
      · exact speaks_fixed (by simp [replyTexts])
  | lPop => exact speaks_lPop
  | lRef => exact speaks_lRef
  | _ =>
      -- fixed texts, counts and single values
      simp only [Cmd.effect, get, set, clear, mAdd, mSize, lPush, lSize, lSet]
      (repeat' split) <;> first
        | exact speaks_none
        | exact speaks_of_error _ _
        | exact speaks_of_ok (marked_plus _)
        | exact speaks_of_ok (marked_count _)
        | exact speaks_of_ok (marked_size _)
        | exact speaks_fixed (by simp [replyTexts])

/-- An effect does not raise or crash exactly where the command is answerable. -/
theorem ok_iff_answerable (cmd : Cmd) :
    (∃ reply a, cmd.effect collides v args = some (.ok reply, a)) ↔ cmd.Answerable v args := by
  rw [← answered_iff]
  constructor
  · intro ok
    obtain ⟨reply, a, effect⟩ := ok
    exact ⟨reply, a, effect, speaks_effect cmd reply a effect⟩
  · intro answered
    obtain ⟨reply, a, effect, _⟩ := answered
    exact ⟨reply, a, effect⟩

end KeyEffect

/-! ## A node that owns every slot -/

structure Node.Whole (n : Node) : Prop where
  proper : n.Proper
  slots : n.shard.slots = allSlots

section Requests

variable {n t : Node}

theorem Node.Whole.includes (whole : n.Whole) (k : CStr) : n.shard.includes k.toR = .ok true := by
  rw [KeyShard.includes, keyToSlot_toR, whole.slots]
  exact congrArg Except.ok (decide_eq_true (keyToSlot_mem_allSlots (keyToSlot_toR k)))

/-- Requests keep the node whole. -/
theorem Node.Whole.answer (whole : n.Whole) {r : Request} {out : Except Raise Reply}
    (ran : n.answer r = some (out, t)) : t.Whole := by
  rcases Node.script_refused (n := n) rfl r with ⟨out', same, _⟩ | ⟨k, args, _, script, _⟩
  · cases same.symm.trans ran
    exact whole
  · rw [Node.answer, script] at ran
    obtain ⟨a, _, leaves, proper⟩ := whole.proper.effect_of_run (whole.includes k) ran
    exact ⟨proper, leaves.slots.trans whole.slots⟩

/-- The key of the request is not hidden, and a command that has its arguments has a
key it can hash and answers on it. -/
def Request.Survives (n : Node) (r : Request) : Prop :=
  ∀ key args, r.argv = key :: args → key ∉ hiddenKeys ∧
    (r.cmd.query r.argv ≠ none →
      ∃ k : CStr, key = k.toR ∧ r.cmd.Answerable (n.content k) args)

/-- A key with a NUL raises. -/
theorem exec_nul {key : RStr} (nul : 0 ∈ key) {cmd : Cmd} {args : List RStr}
    (has : cmd.query (key :: args) ≠ none) :
    ∃ e, (cmd.exec (key :: args)).run Node.call n = some (.error e, n) := by
  obtain ⟨e, unhashed⟩ : ∃ e, n.shard.includes key = .error e := by
    refine ⟨.argumentError, ?_⟩
    rw [KeyShard.includes, keyToSlot, crc16, stringValueCStr, dif_pos nul]
    rfl
  have notHere : n.shard.includes key ≠ .ok true := by
    rw [unhashed]
    intro same
    cases same
  rcases eq_or_ne cmd .delete with rfl | notDelete
  · have gone := Node.delete_elsewhere args notHere
    rw [unhashed] at gone
    exact ⟨e, gone⟩
  · obtain ⟨query, queryIs⟩ := Option.ne_none_iff_exists'.mp has
    obtain ⟨here, same, _⟩ := Cmd.shape notDelete queryIs
    rw [same, Node.unlessLocal_elsewhere notHere, unhashed]
    exact ⟨e, rfl⟩

/-- Which requests have a reply. -/
theorem Node.Whole.answer_ok_iff (whole : n.Whole) (r : Request) :
    (∃ reply t, n.answer r = some (.ok reply, t)) ↔ r.Survives n := by
  obtain ⟨cmd, argv⟩ := r
  cases argv with
  | nil =>
      obtain ⟨reply, same⟩ := Cmd.exec_of_query_none (show cmd.query [] = none by cases cmd <;> rfl)
      refine iff_of_true ⟨reply, n, ?_⟩ nofun
      show (cmd.exec []).run Node.call n = _
      rw [same]
      rfl
  | cons key args =>
      have about : Request.Survives n ⟨cmd, key :: args⟩ ↔ key ∉ hiddenKeys ∧
          (cmd.query (key :: args) ≠ none → ∃ k : CStr, key = k.toR ∧
            cmd.Answerable (n.content k) args) := by
        constructor
        · intro survives
          exact survives key args rfl
        · intro both key' args' same
          cases same
          exact both
      rw [about, Node.answer]
      by_cases isRefused : Cluster.refused ⟨cmd, key :: args⟩
      · obtain ⟨message, raises⟩ := Cluster.script_of_refused isRefused
        obtain ⟨key', head, hidden⟩ := isRefused
        cases head
        rw [raises]
        refine iff_of_false ?_ fun both => both.1 hidden
        intro ok
        obtain ⟨reply, t, ran⟩ := ok
        cases ran
      · have shown : key ∉ hiddenKeys := fun hidden => isRefused ⟨key, rfl, hidden⟩
        rw [Cluster.script_of_not_refused isRefused, and_iff_right shown]
        dsimp only
        by_cases has : cmd.query (key :: args) = none
        · obtain ⟨reply, same⟩ := Cmd.exec_of_query_none has
          rw [same]
          exact iff_of_true ⟨reply, n, rfl⟩ fun some => absurd has some
        · rw [imp_iff_right has]
          by_cases nul : 0 ∈ key
          · obtain ⟨e, raised⟩ := exec_nul (n := n) nul has
            rw [raised]
            refine iff_of_false ?_ ?_
            · intro ok
              obtain ⟨reply, t, ran⟩ := ok
              cases ran
            · intro proper
              obtain ⟨k, rfl, _⟩ := proper
              exact k.nulFree nul
          · -- a command on a key of the node
            let k : CStr := ⟨key, nul⟩
            have named : (∃ k' : CStr, key = k'.toR ∧ cmd.Answerable (n.content k') args) ↔
                cmd.Answerable (n.content k) args := by
              constructor
              · intro some
                obtain ⟨k', same, answerable⟩ := some
                have : k' = k := CStr.toR_injective same.symm
                rwa [← this]
              · intro answerable
                exact ⟨k, rfl, answerable⟩
            rw [named, ← KeyEffect.ok_iff_answerable]
            constructor
            · intro ok
              obtain ⟨reply, t, ran⟩ := ok
              obtain ⟨a, effect, _⟩ := whole.proper.effect_of_run (whole.includes k) ran
              exact ⟨reply, a, effect⟩
            · intro ok
              obtain ⟨reply, a, effect⟩ := ok
              obtain ⟨t, ran, _⟩ := whole.proper.run_of_effect (whole.includes k) effect
              exact ⟨reply, t, ran⟩

end Requests

/-! ## Lines and events -/

/-- The line is a word of the protocol, or it has a command in it and the worker has a
reply to that. -/
def Caller.Survives (n : Node) (caller : Caller) (data : RStr) : Prop :=
  (¬ caller.afterStream ∧ upcase data = lit "STREAM") ∨ upcase data = lit "QUIT" ∨
    ∃ x, parseXql data = some x ∧
      ∀ cmd, Cmd.ofName x.cmd = some cmd → (Request.mk cmd x.args).Survives n

/-- No command of the line is a CLUSTER command. -/
def StorageLine (data : RStr) : Prop := ∀ x, parseXql data = some x → x.cmd ≠ lit "CLUSTER"

section Lines

variable {cluster : ClusterCommand} {n t : Node} {caller : Caller} {data : RStr} {round : Round}

theorem query_storage (cluster : ClusterCommand) {x : Xql}
    (storage : x.cmd ≠ lit "CLUSTER") (n : Node) :
    (Cmd.ofName x.cmd = none ∧ n.query cluster x =
      some (.ok (text "-Command not known").written, n)) ∨
    ∃ cmd, Cmd.ofName x.cmd = some cmd ∧
      n.query cluster x = (n.answer ⟨cmd, x.args⟩).map fun out =>
        (out.1.map Reply.written, out.2) := by
  rw [Node.query, if_neg storage]
  cases named : Cmd.ofName x.cmd with
  | none => exact Or.inl ⟨rfl, rfl⟩
  | some cmd => exact Or.inr ⟨cmd, rfl, rfl⟩

/-- A line that is read to its end costs the worker exactly if it does not survive. -/
theorem Node.Whole.loopLine (whole : n.Whole) (storage : StorageLine data)
    (ran : (nodeServer cluster).loopLine n caller data = some (round, t)) :
    t.Whole ∧ (round ≠ .raises ↔ caller.Survives n data) := by
  rw [Server.loopLine] at ran
  split at ran
  · rename_i isStream
    cases ran
    exact ⟨whole, iff_of_true (Round.goesOn_ne_raises _) (Or.inl isStream)⟩
  · rename_i notStream
    split at ran
    · rename_i isQuit
      cases ran
      exact ⟨whole, iff_of_true Round.ends_ne_raises (Or.inr (Or.inl isQuit))⟩
    · rename_i notQuit
      have spoken : caller.Survives n data ↔ ∃ x, parseXql data = some x ∧
          ∀ cmd, Cmd.ofName x.cmd = some cmd → (Request.mk cmd x.args).Survives n := by
        rw [Caller.Survives, or_iff_right notStream, or_iff_right notQuit]
      rw [spoken]
      split at ran
      · rename_i blank
        cases ran
        refine ⟨whole, iff_of_false (fun kept => kept rfl) ?_⟩
        intro some
        obtain ⟨x, parsed, _⟩ := some
        rw [blank] at parsed
        cases parsed
      · rename_i x parsed
        have only : (∃ x', some x = some x' ∧
            ∀ cmd, Cmd.ofName x'.cmd = some cmd → (Request.mk cmd x'.args).Survives n) ↔
            ∀ cmd, Cmd.ofName x.cmd = some cmd → (Request.mk cmd x.args).Survives n := by
          simp
        rw [parsed, only]
        have queried : (nodeServer cluster).query x n = n.query cluster x := rfl
        rw [queried] at ran
        rcases query_storage cluster (storage x parsed) n with
          ⟨unnamed, replied⟩ | ⟨cmd, named, answered⟩
        · rw [replied] at ran
          cases ran
          refine ⟨whole, iff_of_true ?_ ?_⟩
          · split
            · exact Round.goesOn_ne_raises _
            · exact Round.ends_ne_raises
          · intro cmd named
            rw [unnamed] at named
            cases named
        · have survives :
            (∀ cmd', Cmd.ofName x.cmd = some cmd' → (Request.mk cmd' x.args).Survives n) ↔
              (Request.mk cmd x.args).Survives n := by
            rw [named]
            simp
          rw [survives, ← whole.answer_ok_iff]
          rw [answered] at ran
          rcases outcome : n.answer ⟨cmd, x.args⟩ with _ | ⟨e | reply, n'⟩
          · rw [outcome] at ran
            cases ran
          · rw [outcome] at ran
            cases ran
            refine ⟨whole.answer outcome, iff_of_false (fun kept => kept rfl) ?_⟩
            intro ok
            obtain ⟨reply, t, same⟩ := ok
            cases same
          · rw [outcome] at ran
            cases ran
            refine ⟨whole.answer outcome, iff_of_true ?_ ⟨reply, _, rfl⟩⟩
            split
            · exact Round.goesOn_ne_raises _
            · exact Round.ends_ne_raises

end Lines

namespace Pool

variable {num : Nat}

/-- The state that a step leaves. -/
def next {σ : Type} (server : Server σ) (p : Pool σ num) (e : Event num) : Option (Pool σ num) :=
  (p.step server e).map Prod.snd

/-- The event is the reading of a line that the worker survives, or not the reading of
a line; the connection is not reset. -/
def Survives (p : Pool Node num) : Event num → Prop
  | .line w data => ∀ stream caller, p.worker w = .serving stream caller →
      caller.Survives p.state data
  | .reset _ => False
  | _ => True

def Event.Storage : Event num → Prop
  | .line _ data => StorageLine data
  | _ => True

/-- No worker has left its loop. -/
def Complete {σ : Type} (p : Pool σ num) : Prop := ∀ w, p.worker w ≠ .finished

theorem complete_update {worker : Fin num → Worker}
    (complete : ∀ v, worker v ≠ .finished) (w : Fin num)
    (now : Worker) : (∀ v, Function.update worker w now v ≠ .finished) ↔ now ≠ .finished := by
  constructor
  · intro all
    have here := all w
    rwa [Function.update_self] at here
  · intro kept v
    rcases eq_or_ne v w with rfl | other
    · rwa [Function.update_self]
    · rw [Function.update_of_ne other]
      exact complete v

theorem waiting_ne_finished : Worker.waiting ≠ .finished := by
  intro same
  cases same

theorem serving_ne_finished (stream : Nat) (caller : Caller) :
    Worker.serving stream caller ≠ .finished := by
  intro same
  cases same

theorem worker_ne_finished (stream : Nat) {round : Round} :
    Round.worker stream round ≠ .finished ↔ round ≠ .raises := by
  cases round with
  | goesOn caller =>
      exact iff_of_true (serving_ne_finished stream caller)
        (Round.goesOn_ne_raises caller)
  | ends => exact iff_of_true waiting_ne_finished Round.ends_ne_raises
  | raises => exact iff_of_false (fun kept => kept rfl) fun kept => kept rfl

section Steps

variable {cluster : ClusterCommand} {p p' : Pool Node num} {e : Event num}

/-- One step keeps the node whole, and it keeps every worker exactly if it is
survived. -/
theorem next_cases (whole : p.state.Whole) (storage : e.Storage)
    (fired : next (nodeServer cluster) p e = some p') :
    p'.state.Whole ∧ (p.Complete → (p'.Complete ↔ p.Survives e)) := by
  obtain ⟨⟨report, q⟩, stepped, rfl⟩ := Option.map_eq_some_iff.mp fired
  cases e with
  | accept =>
      cases stepped
      exact ⟨whole, fun complete => iff_of_true complete trivial⟩
  | pop w =>
      rw [step] at stepped
      split at stepped
      · cases stepped
        exact ⟨whole, fun complete =>
          iff_of_true ((complete_update complete w _).mpr (serving_ne_finished _ _)) trivial⟩
      · cases stepped
  | line w data =>
      rw [step] at stepped
      split at stepped
      · rename_i stream caller serves
        obtain ⟨⟨round, n⟩, ran, same⟩ := Option.map_eq_some_iff.mp stepped
        cases same
        have looped : (nodeServer cluster).loopLine p.state caller data = some (round, n) := ran
        obtain ⟨whole', survives⟩ := whole.loopLine storage looped
        refine ⟨whole', fun complete => ?_⟩
        have about : p.Survives (.line w data) ↔ caller.Survives p.state data := by
          simp [Survives, serves]
        rw [about, ← survives, ← worker_ne_finished stream]
        exact complete_update complete w _
      · cases stepped
  | hangUp w =>
      rw [step] at stepped
      split at stepped
      · cases stepped
        exact ⟨whole, fun complete =>
          iff_of_true ((complete_update complete w _).mpr waiting_ne_finished) trivial⟩
      · cases stepped
  | reset w =>
      rw [step] at stepped
      split at stepped
      · cases stepped
        refine ⟨whole, fun complete => iff_of_false ?_ id⟩
        intro still
        exact (complete_update complete w _).mp still rfl
      · cases stepped

end Steps

/-- In every run of sessions with storage commands on a node that owns every slot, its one
worker stays in its loop all along exactly if each line that it reads is one it survives,
and no connection is reset. -/
theorem workersKept_iff (cluster : ClusterCommand) {p : Pool Node 1} (whole : p.state.Whole)
    (complete : p.Complete) {events : List (Event 1)} (storage : ∀ e ∈ events, e.Storage) :
    AfterEach (next (nodeServer cluster)) Complete p events ↔
      AllMeet (next (nodeServer cluster)) Survives p events := by
  apply afterEach_iff_allMeet (I := fun p => p.state.Whole)
    (D := Event.Storage) ?_ ?_ storage whole complete
  · intro q e q' whole storage fired
    exact (next_cases whole storage fired).1
  · intro q e q' whole storage complete fired
    exact (next_cases whole storage fired).2 complete

theorem whole_empty (level : Nat) : (Node.empty wholeShard level true).Whole where
  proper := Node.proper_empty _ _
  slots := by rfl

/-- A line of blanks ends the worker. -/
theorem workersKept_iff_blank :
    (AfterEach (next (nodeServer fun _ _ => none)) Complete
        (init 1 (Node.empty wholeShard 0 true)) [.accept, .pop 0, .line 0 [32]] ↔
      AllMeet (next (nodeServer fun _ _ => none)) Survives
        (init 1 (Node.empty wholeShard 0 true)) [.accept, .pop 0, .line 0 [32]]) ∧
    ¬ AfterEach (next (nodeServer fun _ _ => none)) Complete
      (init 1 (Node.empty wholeShard 0 true)) [.accept, .pop 0, .line 0 [32]] := by
  have storage : ∀ e ∈ ([.accept, .pop 0, .line 0 [32]] : List (Event 1)), e.Storage := by
    intro e member
    rcases List.mem_cons.mp member with rfl | later
    · trivial
    · rcases List.mem_cons.mp later with rfl | last
      · trivial
      · rw [List.mem_singleton.mp last]
        intro x parsed
        cases parsed
  have complete : (init 1 (Node.empty wholeShard 0 true)).Complete := by
    intro w same
    cases same
  have exact := workersKept_iff (fun _ _ => none) (whole_empty 0) complete storage
  refine ⟨exact, ?_⟩
  rw [exact]
  intro meets
  obtain ⟨_, meets⟩ := meets _ rfl
  obtain ⟨_, meets⟩ := meets _ rfl
  obtain ⟨survives, _⟩ := meets _ rfl
  rcases survives 0 _ rfl with isStream | isQuit | some
  · exact absurd isStream.2 (by decide)
  · exact absurd isQuit (by decide)
  · obtain ⟨x, parsed, _⟩ := some
    cases parsed

end Pool

end XFireDB
