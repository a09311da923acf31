import XFireDB.RestartReplies

/-!
# Restarts after a crash

The worker executes the queue in order, so a server that is killed leaves on disk what
a beginning of its queue makes of the table.  Such a table can always be loaded, and
the new server is the old one after some of its requests: those whose statements are
all on disk.  Only the key of the request that was cut off may hold something else.
-/

namespace XFireDB

open Lib

namespace Node

variable {n n₀ t : Node} {journal : List BioQ}

theorem serve_upon (n : Node) (journal : List BioQ) (r : Request) :
    (n.upon journal).serve r = (n.serve r).map fun t => t.upon journal := by
  rw [serve, serve, run_upon, Option.map_map, Option.map_map]
  rfl

theorem serve_slots {r : Request} (served : n.serve r = some t) :
    t.shard.slots = n.shard.slots := by
  obtain ⟨⟨out, t⟩, ran, rfl⟩ := Option.map_eq_some_iff.mp served
  exact run_slots ran

/-! ## Nodes with a table -/

theorem Backed.wf (backed : n.Backed journal) : n.Wf := backed.proper.wf

theorem Backed.serve (backed : n.Backed journal) {r : Request} (kept : n.Lasting r)
    (served : n.serve r = some t) : t.Backed journal := by
  refine ⟨?_, serve_ordered backed.ordered served⟩
  rcases kept with reads | ⟨writes, guard⟩
  · rw [serve_reads reads served]
    exact backed.sound
  · have guarded : (n.upon journal).Persistable r := (guarded_upon n journal r.script).mpr guard
    obtain ⟨t', served', after⟩ := backed.sound.serve writes guarded
    rw [serve_upon, served] at served'
    obtain rfl := Option.some.inj served'
    exact after

theorem Backed.reach (backed : n₀.Backed journal) (run : Reach Node.serve Lasting n₀ n) :
    n.Backed journal ∧ n.shard.slots = n₀.shard.slots := by
  apply run.invariant (I := fun n => n.Backed journal ∧ n.shard.slots = n₀.shard.slots)
    ⟨backed, rfl⟩
  intro m r m' before kept served
  exact ⟨before.1.serve kept served, (serve_slots served).trans before.2⟩

/-- A crash leaves a table that mirrors something. -/
theorem Backed.cuts (backed : n.Backed journal) (j i : Nat) :
    Mirrored (bioWorker [] ((journal ++ n.queue.take j).take i)) := by
  obtain ⟨rows, tracks⟩ := backed.sound.tracks
  have whole : journal ++ n.queue.take j = (journal ++ n.queue).take (journal.length + j) := by
    rw [List.take_length_add_append]
  rw [whole, List.take_take]
  exact tracks.cuts backed.sound.persists _

/-! ## What comes back -/

/-- What comes back is the node after the requests whose statements are all on disk.
The key of the next request may hold something else. -/
def ComesBack (n₀ n : Node) (j : Nat) (n' : Node) : Prop :=
  (n.queue.length ≤ j ∧ ∀ requests,
    (replies answer n' requests).map Prod.fst = (replies answer n requests).map Prod.fst) ∨
  ∃ m r m' k, Reach Node.serve Lasting n₀ m ∧ m.Lasting r ∧ m.serve r = some m' ∧
    Reach Node.serve Lasting m' n ∧ m.queue.length ≤ j ∧ j < m'.queue.length ∧ r.key = some k ∧
    ∀ requests : List Request, (∀ q ∈ requests, q.key ≠ some k) →
      (replies answer n' requests).map Prod.fst = (replies answer m requests).map Prod.fst

/-- Requests do not take statements back. -/
theorem Backed.queue_grows (backed : n₀.Backed journal) (run : Reach Node.serve Lasting n₀ n) :
    n₀.queue <+: n.queue := by
  apply And.right (a := n.Backed journal)
  apply run.invariant (I := fun n => n.Backed journal ∧ n₀.queue <+: n.queue)
    ⟨backed, List.prefix_rfl⟩
  intro m r m' before kept served
  obtain ⟨ops, queue, _⟩ := before.1.wf.serve_queue served
  exact ⟨before.1.serve kept served, before.2.trans (queue ▸ List.prefix_append _ _)⟩

theorem Backed.comesBack (backed₀ : n₀.Backed journal) (fresh₀ : n₀.queue = [])
    (run : Reach Node.serve Lasting n₀ n) (j : Nat) {n' : Node}
    (backed' : n'.Backed (journal ++ n.queue.take j)) (fresh' : n'.queue = [])
    (slots : n'.shard.slots = n.shard.slots) : n₀.ComesBack n j n' := by
  obtain ⟨backed, kept⟩ := backed₀.reach run
  rcases Nat.lt_or_ge j n.queue.length with early | late
  · right
    have start : n₀.queue.length ≤ j := by
      rw [fresh₀]
      exact Nat.zero_le j
    obtain ⟨m, r, m', first, lasting, served, rest, low, high⟩ :=
      run.exists_crossing (fun n => n.queue.length) start early
    obtain ⟨before, keptHere⟩ := backed₀.reach first
    obtain ⟨ops, queue, forKey⟩ := before.wf.serve_queue served
    -- the request has queued something, so it is on a key
    have some_op : ops ≠ [] := by
      intro none
      rw [queue, none, List.append_nil] at high
      exact absurd low (Nat.not_le.mpr high)
    obtain ⟨q, inOps⟩ := List.exists_mem_of_ne_nil ops some_op
    have key := forKey q inOps
    have sameKey : ∀ p ∈ ops.take (j - m.queue.length), p.key = q.key := by
      intro p member
      exact Option.some.inj ((forKey p (List.mem_of_mem_take member)).symm.trans key)
    have cut : n.queue.take j = m.queue ++ ops.take (j - m.queue.length) := by
      obtain ⟨later, whole⟩ := (before.serve lasting served).queue_grows rest
      rw [← whole, List.take_append_of_le_length high.le, queue, List.take_append,
        List.take_of_length_le low]
    refine ⟨m, r, m', q.key, first, lasting, served, rest, low, high, key, ?_⟩
    intro requests others
    have alike : AlikeOn (fun k => k ≠ q.key) m n' := by
      refine ⟨before.proper, backed'.proper, ?_, slots.trans (kept.trans keptHere.symm)⟩
      intro k other
      apply before.content_eq backed' fresh'
      rw [cut, ← List.append_assoc, bioWorker_append, rowsOf_bioWorker sameKey,
        if_neg (Ne.symm other)]
    apply alike.replies requests
    intro p member k named same
    exact others p member (same ▸ named)
  · left
    refine ⟨late, fun requests => ?_⟩
    have alike : AlikeOn (fun _ => True) n n' := by
      refine ⟨backed.proper, backed'.proper, fun k _ => ?_, slots⟩
      apply backed.content_eq backed' fresh'
      rw [List.take_of_length_le late]
    exact alike.replies requests fun _ _ _ _ => trivial

end Node

/-! ## One life after another -/

/-- The lives of a server with these slots: the table on disk when a life begins, and the
node that has been started on it. -/
inductive Lives (slots : List RStr) : Table → Node → Prop
  | first {shard : KeyShard} {persistLevel : Nat} {n : Node} :
    shard.slots = slots → persistLevel < 3 → engineStart shard persistLevel [] = some n →
    Lives slots [] n
  | again {disk : Table} {n₀ n n' : Node} {shard : KeyShard} {persistLevel : Nat} (j : Nat) :
    Lives slots disk n₀ → Reach Node.serve Node.Lasting n₀ n → shard.slots = slots →
    persistLevel < 3 → engineStart shard persistLevel (bioWorker disk (n.queue.take j)) = some n' →
    Lives slots (bioWorker disk (n.queue.take j)) n'

theorem Lives.backed {slots : List RStr} {disk : Table} {n : Node} (lives : Lives slots disk n) :
    ∃ journal, disk = bioWorker [] journal ∧ n.Backed journal ∧ n.queue = [] ∧
      n.shard.slots = slots := by
  induction lives with
  | @first shard persistLevel n same below started =>
      have nothing : ∀ i, Mirrored (bioWorker [] (([] : List BioQ).take i)) := by
        intro i k
        rw [List.take_nil]
        exact ⟨none, rfl⟩
      obtain ⟨n', started', backed, fresh, kept⟩ := Node.backed_engineStart nothing shard below
      obtain rfl := Option.some.inj (started.symm.trans started')
      exact ⟨[], rfl, backed, fresh, kept.trans same⟩
  | @again disk n₀ n n' shard persistLevel j _ run same below started ih =>
      obtain ⟨journal, rfl, backed₀, fresh₀, kept₀⟩ := ih
      obtain ⟨backed, _⟩ := backed₀.reach run
      rw [← bioWorker_append] at started ⊢
      obtain ⟨t, started', back, fresh, kept⟩ :=
        Node.backed_engineStart (backed.cuts j) shard below
      obtain rfl := Option.some.inj (started.symm.trans started')
      exact ⟨_, rfl, back, fresh, kept.trans same⟩

/-- However often a server has been killed and started again, it can be killed in any run
and started once more, and comes back as it was after some of the run's requests. -/
theorem crash_restart {slots : List RStr} {disk : Table} {n₀ n : Node} (lives : Lives slots disk n₀)
    (run : Reach Node.serve Node.Lasting n₀ n) (j : Nat) {shard : KeyShard}
    (same : shard.slots = slots) {persistLevel : Nat} (below : persistLevel < 3) :
    ∃ n', engineStart shard persistLevel (bioWorker disk (n.queue.take j)) = some n' ∧
      n₀.ComesBack n j n' := by
  obtain ⟨journal, rfl, backed₀, fresh₀, kept₀⟩ := lives.backed
  obtain ⟨backed, kept⟩ := backed₀.reach run
  obtain ⟨n', started, back, fresh, slots'⟩ := Node.backed_engineStart (backed.cuts j) shard below
  rw [bioWorker_append] at started
  refine ⟨n', started, backed₀.comesBack fresh₀ run j back fresh ?_⟩
  rw [slots', same, ← kept₀, kept]

/-- `MADD k h v` and a crash before anything is on disk. -/
theorem crash_restart_mAdd :
    ∃ n n', nodeOfK.serve ⟨.mAdd, [lit "k", lit "h", lit "v"]⟩ = some n ∧
      engineStart shardOfK 0 (bioWorker [] (n.queue.take 0)) = some n' ∧
        nodeOfK.ComesBack n 0 n' := by
  have kept : nodeOfK.Lasting ⟨.mAdd, [lit "k", lit "h", lit "v"]⟩ :=
    Or.inr ⟨Cmd.writes_of_keyedWrites (by decide), persistable_mAdd⟩
  have low : 0 < 3 := by decide
  have started : Lives shardOfK.slots [] nodeOfK := .first rfl low rfl
  obtain ⟨n', restarted, back⟩ := crash_restart started (.next .init kept rfl) 0 rfl low
  exact ⟨_, n', rfl, restarted, back⟩

end XFireDB
