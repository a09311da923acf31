import XFireDB.NodeTable

/-!
# A node's own entry

Every storage command goes through `local_node`, the table's entry under the
node's own id.  `add_node`, `forget` and gossip packets edit the table without
looking whose entry it is.
-/

namespace XFireDB

open Lib

namespace Directory

/-- The entry under the node's own id is its `LocalNode`. -/
def KnowsItself (d : Directory) : Prop := ∃ p, d.nodes.lookup d.own = some p ∧ p.isLocal = true

/-- What happens at the node. -/
inductive Event
  | addNode (id ip : RStr) (port : Int)
  | forget (id : RStr) (shards : Int) (delivered : Bool)
  | gossip (latest : List RStr)

/-- The directory after the event, and whether a packet has raised. -/
def step (s : Directory × Bool) : Event → Option (Directory × Bool)
  | .addNode id ip port => some (s.1.addNode id ip port, false)
  | .forget id shards delivered => some (s.1.forget id shards delivered, false)
  | .gossip latest => some ((s.1.gossip latest).2, !(s.1.gossip latest).1.isOk)

/-- The node knows itself, and the last packet was processed without an error. -/
def Alright (s : Directory × Bool) : Prop := s.1.KnowsItself ∧ s.2 = false

/-- A group of a packet that does no harm in a directory. -/
def Harmless (d : Directory) (g : Gossip) : Prop :=
  -- a node that is not known is pushed to the stored list
  ((g.msg = gossipAdd ∨ g.msg = gossipCheck) → d.nodes.lookup g.id = none →
    d.dbnodes ≠ none ∧ 0 ∉ nodeLine g.id g.ip g.port) ∧
  -- a known node is searched in the stored list
  (g.msg = gossipDel → g.id ≠ d.own ∧ (d.nodes.lookup g.id ≠ none → d.dbnodes ≠ none)) ∧
  g.msg ≠ gossipMove

/-- Every group is harmless in the directory that the ones before it leave. -/
def AllHarmless (d : Directory) : List Gossip → Prop
  | [] => True
  | g :: rest => d.Harmless g ∧ AllHarmless (d.gossipOne g).2 rest

/-- Events that leave the node its own entry and raise nothing. -/
def Sane (s : Directory × Bool) : Event → Prop
  | .addNode id _ _ => id ≠ s.1.own
  | .forget id shards delivered =>
    id = s.1.own → (0 < shards ∧ s.1.nodes.length = 1) ∨ delivered = false
  | .gossip latest => s.1.AllHarmless (gossips latest)

variable {d : Directory} {id ip port : RStr} {g : Gossip}

/-! ## The table under each operation -/

theorem knowsItself_addNode (knows : d.KnowsItself) (n : Int) :
    (d.addNode id ip n).KnowsItself ↔ id ≠ d.own := by
  unfold KnowsItself addNode
  simp only [lookup_put]
  by_cases same : d.own = id
  · simp [same]
  · simp only [if_neg same]
    exact iff_of_true knows (Ne.symm same)

theorem removeNode_eq (d : Directory) (id : RStr) : (d.removeNode id).2.own = d.own ∧
    ∀ k, (d.removeNode id).2.nodes.lookup k = if k = id then none else d.nodes.lookup k := by
  unfold removeNode
  cases found : d.nodes.lookup id with
  | none =>
      refine ⟨rfl, ?_⟩
      intro k
      by_cases same : k = id
      · rw [if_pos same, same]
        exact found
      · rw [if_neg same]
  | some p =>
      cases stored : d.dbnodes with
      | none =>
          exact ⟨rfl, lookup_unbind d.nodes id⟩
      | some lines =>
          exact ⟨rfl, lookup_unbind d.nodes id⟩

theorem knowsItself_removeNode (knows : d.KnowsItself) :
    (d.removeNode id).2.KnowsItself ↔ id ≠ d.own := by
  unfold KnowsItself
  obtain ⟨own, nodes⟩ := d.removeNode_eq id
  rw [own, nodes]
  by_cases same : d.own = id
  · simp [same]
  · simp only [if_neg same]
    exact iff_of_true knows (Ne.symm same)

theorem knowsItself_forget (knows : d.KnowsItself) (shards : Int) (delivered : Bool) :
    (d.forget id shards delivered).KnowsItself ↔
      (id = d.own → (0 < shards ∧ d.nodes.length = 1) ∨ delivered = false) := by
  unfold forget
  cases found : d.nodes.lookup id with
  | none =>
      refine iff_of_true knows ?_
      intro same
      obtain rfl := same
      obtain ⟨p, own, _⟩ := knows
      rw [found] at own
      cases own
  | some p =>
      by_cases divided : 0 < shards ∧ d.nodes.length = 1
      · simp only [if_pos divided]
        exact iff_of_true knows fun _ => Or.inl divided
      · cases delivered with
        | false =>
            simp only [if_neg divided, Bool.false_eq_true, if_false]
            exact iff_of_true knows fun _ => Or.inr trivial
        | true =>
            simp only [if_neg divided, if_true, knowsItself_removeNode knows]
            simp [divided]

/-- Where a node is learned, it goes to the stored list first. -/
theorem learn_cases (d : Directory) (g : Gossip) :
    (∃ p, d.nodes.lookup g.id = some p ∧ d.learn g = (.ok (), d)) ∨
    (d.nodes.lookup g.id = none ∧ ∃ lines, d.dbnodes = some lines ∧
      0 ∉ nodeLine g.id g.ip g.port ∧
      d.learn g = (.ok (), Directory.addNode
        ⟨d.own, d.nodes, some (lines ++ [nodeLine g.id g.ip g.port])⟩
        g.id g.ip (wordToI g.port))) ∨
    (d.nodes.lookup g.id = none ∧
      ¬ (d.dbnodes ≠ none ∧ 0 ∉ nodeLine g.id g.ip g.port) ∧
      ∃ e, d.learn g = (.error e, d)) := by
  unfold learn
  cases found : d.nodes.lookup g.id with
  | some p => exact Or.inl ⟨p, rfl, rfl⟩
  | none =>
      refine Or.inr ?_
      cases stored : d.dbnodes with
      | none =>
          refine Or.inr ⟨rfl, by simp, .noMethodError, ?_⟩
          simp only [pushLine, stored]
      | some lines =>
          by_cases nul : 0 ∈ nodeLine g.id g.ip g.port
          · refine Or.inr ⟨rfl, fun both => both.2 nul, .argumentError, ?_⟩
            simp only [pushLine, stored, stringValueCStr, dif_pos nul]
          · refine Or.inl ⟨rfl, lines, rfl, nul, ?_⟩
            simp only [pushLine, stored, stringValueCStr, dif_neg nul, CStr.toR]

/-! ## One packet -/

/-- A node that has lost its entry does not get it back. -/
theorem knowsItself_of_gossipOne (knows : (d.gossipOne g).2.KnowsItself) : d.KnowsItself := by
  have learned : (d.learn g).2.KnowsItself → d.KnowsItself := by
    rcases d.learn_cases g with ⟨p, _, same⟩ | ⟨_, lines, _, _, new⟩ | ⟨_, _, e, same⟩
    · rw [same]
      exact id
    · rw [new]
      intro found
      obtain ⟨p, own, isLocal⟩ := found
      unfold addNode at own
      rw [lookup_put] at own
      split at own
      · obtain rfl := Option.some.inj own
        cases isLocal
      · exact ⟨p, own, isLocal⟩
    · rw [same]
      exact id
  unfold gossipOne at knows
  split at knows
  · exact learned knows
  · split at knows
    · obtain ⟨own, nodes⟩ := d.removeNode_eq g.id
      obtain ⟨p, found, isLocal⟩ := knows
      rw [own, nodes] at found
      split at found
      · cases found
      · exact ⟨p, found, isLocal⟩
    · split at knows
      · exact knows
      · split at knows
        · exact learned knows
        · exact knows

/-- A handler has done no harm. -/
def Spares (out : Except Raise Unit × Directory) : Prop := out.1.isOk = true ∧ out.2.KnowsItself

theorem spares_learn (knows : d.KnowsItself) : Spares (d.learn g) ↔
    (d.nodes.lookup g.id = none → d.dbnodes ≠ none ∧ 0 ∉ nodeLine g.id g.ip g.port) := by
  rcases d.learn_cases g with ⟨p, found, same⟩ | ⟨missing, lines, stored, proper, new⟩ |
    ⟨missing, unstorable, e, same⟩
  · rw [same]
    refine iff_of_true ⟨rfl, knows⟩ ?_
    intro missing
    rw [found] at missing
    cases missing
  · rw [new]
    refine iff_of_true ⟨rfl, ?_⟩ ?_
    · have other : g.id ≠ d.own := by
        intro same
        obtain ⟨p, own, _⟩ := knows
        rw [← same, missing] at own
        cases own
      exact (knowsItself_addNode (d := ⟨d.own, d.nodes, _⟩) knows _).mpr other
    · intro _
      rw [stored]
      exact ⟨Option.some_ne_none lines, proper⟩
  · rw [same]
    refine iff_of_false ?_ ?_
    · intro found
      obtain ⟨ok, _⟩ := found
      cases ok
    · intro storable
      exact unstorable (storable missing)

theorem spares_removeNode (knows : d.KnowsItself) : Spares (d.removeNode id) ↔
    id ≠ d.own ∧ (d.nodes.lookup id ≠ none → d.dbnodes ≠ none) := by
  rw [Spares, knowsItself_removeNode knows, and_comm]
  refine and_congr_right ?_
  intro _
  unfold removeNode
  cases found : d.nodes.lookup id with
  | none => simp [Except.isOk, Except.toBool]
  | some p =>
      cases stored : d.dbnodes with
      | none => simp [Except.isOk, Except.toBool]
      | some lines => simp [Except.isOk, Except.toBool]

theorem spares_gossipOne (knows : d.KnowsItself) : Spares (d.gossipOne g) ↔ d.Harmless g := by
  have addDel : gossipAdd ≠ gossipDel := by decide
  have addMove : gossipAdd ≠ gossipMove := by decide
  have delMove : gossipDel ≠ gossipMove := by decide
  have checkDel : gossipCheck ≠ gossipDel := by decide
  have checkMove : gossipCheck ≠ gossipMove := by decide
  unfold gossipOne Harmless
  by_cases add : g.msg = gossipAdd
  · rw [if_pos add, spares_learn knows, add]
    simp [addDel, addMove]
  rw [if_neg add]
  by_cases del : g.msg = gossipDel
  · rw [if_pos del, spares_removeNode knows, del]
    simp [addDel.symm, checkDel.symm, delMove]
  rw [if_neg del]
  by_cases move : g.msg = gossipMove
  · rw [if_pos move, move]
    refine iff_of_false ?_ (fun harmless => harmless.2.2 rfl)
    intro found
    obtain ⟨ok, _⟩ := found
    revert ok
    cases d.nodes.lookup g.id <;> simp [Except.isOk, Except.toBool]
  rw [if_neg move]
  by_cases check : g.msg = gossipCheck
  · rw [if_pos check, spares_learn knows, check]
    simp [checkDel, checkMove]
  · rw [if_neg check]
    simp [add, del, move, check, Spares, knows, Except.isOk, Except.toBool]

theorem gossipLoop_knows {gs : List Gossip} (knows : (d.gossipLoop gs).2.KnowsItself) :
    d.KnowsItself := by
  induction gs generalizing d with
  | nil => exact knows
  | cons g gs ih =>
      rw [gossipLoop] at knows
      apply knowsItself_of_gossipOne (g := g)
      revert knows
      rcases d.gossipOne g with ⟨r, d'⟩
      intro knows
      cases r with
      | error e => exact knows
      | ok _ => exact ih knows

/-- A packet does no harm exactly if none of its groups does. -/
theorem spares_gossipLoop {gs : List Gossip} (knows : d.KnowsItself) :
    Spares (d.gossipLoop gs) ↔ d.AllHarmless gs := by
  induction gs generalizing d with
  | nil => exact iff_of_true ⟨rfl, knows⟩ trivial
  | cons g gs ih =>
      have one := spares_gossipOne (g := g) knows
      rw [gossipLoop, AllHarmless, ← one]
      rcases d.gossipOne g with ⟨r, d'⟩
      cases r with
      | error e =>
          refine iff_of_false ?_ ?_
          · intro found
            obtain ⟨ok, _⟩ := found
            cases ok
          · intro found
            obtain ⟨⟨ok, _⟩, _⟩ := found
            cases ok
      | ok _ =>
          by_cases kept : d'.KnowsItself
          · rw [ih kept]
            exact (and_iff_right ⟨rfl, kept⟩).symm
          · refine iff_of_false ?_ ?_
            · intro found
              obtain ⟨_, knows'⟩ := found
              exact kept (gossipLoop_knows knows')
            · intro found
              obtain ⟨⟨_, knows'⟩, _⟩ := found
              exact kept knows'

/-! ## Runs -/

theorem alright_step {s s' : Directory × Bool} {e : Event} (fine : Alright s)
    (fired : step s e = some s') : Alright s' ↔ Sane s e := by
  cases e with
  | addNode id ip port =>
      obtain rfl := Option.some.inj fired
      rw [Alright, Sane, knowsItself_addNode fine.1]
      exact and_iff_left rfl
  | forget id shards delivered =>
      obtain rfl := Option.some.inj fired
      rw [Alright, Sane, knowsItself_forget fine.1]
      exact and_iff_left rfl
  | gossip latest =>
      obtain rfl := Option.some.inj fired
      rw [Alright, Sane, ← spares_gossipLoop fine.1, Spares, and_comm]
      exact and_congr_left fun _ => by simp [gossip]

/-- The directory after `Cluster#initialize`: the node's own entry is set last. -/
def started (own addr : RStr) (port : Int) (others : List (RStr × Peer))
    (dbnodes : Option (List RStr)) : Directory :=
  ⟨own, put others own ⟨addr, port, true⟩, dbnodes⟩

/-- In every run of operations the node keeps its own entry and no packet raises,
exactly if every operation is sane where it happens. -/
theorem knowsItself_iff_sane (own addr : RStr) (port : Int) (others : List (RStr × Peer))
    (dbnodes : Option (List RStr)) (events : List Event) :
    AfterEach step Alright (started own addr port others dbnodes, false) events ↔
      AllMeet step Sane (started own addr port others dbnodes, false) events := by
  have start : Alright (started own addr port others dbnodes, false) := by
    refine ⟨⟨⟨addr, port, true⟩, ?_, rfl⟩, rfl⟩
    unfold started
    rw [lookup_put, if_pos rfl]
  refine afterEach_iff_allMeet (I := fun _ => True) (D := fun _ => True) ?_ ?_
    (fun _ _ => trivial) trivial start
  · intros
    trivial
  · intro s e s' _ _ fine fired
    exact alright_step fine fired

/-- The packet that `CLUSTER FORGET` elsewhere sends to the forgotten node. -/
theorem forgotten_node_loses_itself :
    ¬ AfterEach step Alright
      (started (lit "a") (lit "10.0.0.1") 7000 [] (some []), false)
      [.gossip (splitSpace (lit "a 10.0.0.1 7000 101"))] := by
  intro after
  obtain ⟨⟨⟨p, own, _⟩, _⟩, _⟩ := after _ rfl
  exact absurd own (by decide +revert)

end Directory

end XFireDB
