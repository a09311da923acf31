import XFireDB.Interleaving

/-!
# Commands on different keys do not disturb one another

While the commands in progress are compatible, each of them would end with the
reply and the data that it gives when it is executed after the commands that are
done.  So the commands, in the order in which they end, are a sequential
execution of the run.
-/

namespace XFireDB

open Lib

/-! ## What a run has in common with its sequential execution -/

/-- No command in progress writes the key. -/
def Service.Quiet (s : Service) (k : CStr) : Prop :=
  ∀ c j p, s.running c = some (j, p) → j.request.key = some k → j.request.cmd.Reads

/-- A command in progress.  Let alone, it ends with the reply and the data that
it gives after the commands that are done. -/
structure Underway (home : Nat → Option CStr) (n m : Node) (j : Job) (p : Script Reply) : Prop where
  owns : Owns home j
  stays : Stays (j.region home) (fun _ _ => True) p
  reads : j.request.cmd.Reads → ReadsOnly p
  outcome : Prog.SameOutcome (j.region home).Meet (p.run (Node.callAs j.number) n)
    (j.request.script.run (Node.callAs j.number) m)

/-- The commands that are done, executed in that order, lead to `m`; on keys that
are quiet the node is where `m` is. -/
structure Explained (n₀ : Node) (s : Service) (m : Node) (home : Nat → Option CStr) : Prop where
  seq : serveAll n₀ (s.done.map Prod.fst) = some (s.done.map Prod.snd, m)
  held : ∀ k id, s.node.db k = some (.object id) → home id = some k
  heldSeq : ∀ k id, m.db k = some (.object id) → home id = some k
  old : ∀ id k, home id = some k → id < s.next
  unused : ∀ id, s.next ≤ id → s.node.objs id = none ∧ m.objs id = none
  slots : m.shard.slots = s.node.shard.slots
  quiet : ∀ k, s.Quiet k → (keyRegion home k).Meet s.node m
  underway : ∀ c j p, s.running c = some (j, p) →
    j.client = c ∧ j.number < s.next ∧ Underway home s.node m j p
  distinct : ∀ c c' j j' p p', c ≠ c' → s.running c = some (j, p) → s.running c' = some (j', p') →
    j.number ≠ j'.number ∧ Compatible j.request j'.request
  order : ∀ c, s.started.filter (·.client = c) =
    (s.done.map Prod.fst).filter (·.client = c) ++ ((s.running c).map Prod.fst).toList

theorem serveAll_append {n m t : Node} {jobs : List Job} {rs : List (Except Raise Reply)} {j : Job}
    {r : Except Raise Reply} (first : serveAll n jobs = some (rs, m))
    (last : j.request.script.run (Node.callAs j.number) m = some (r, t)) :
    serveAll n (jobs ++ [j]) = some (rs ++ [r], t) := by
  induction jobs generalizing n rs with
  | nil =>
      obtain ⟨rfl, rfl⟩ := Prod.mk.inj (Option.some.inj first)
      simp [serveAll, last]
  | cons job jobs ih =>
      rw [serveAll] at first
      rw [List.cons_append, serveAll]
      match ran : job.request.script.run (Node.callAs job.number) n with
      | none => simp [ran] at first
      | some (r', n') =>
          simp only [ran] at first ⊢
          obtain ⟨⟨rest, m'⟩, later, same⟩ := Option.map_eq_some_iff.mp first
          obtain ⟨rfl, rfl⟩ := Prod.mk.inj same
          rw [ih later]
          rfl

section Steps

variable {home : Nat → Option CStr} {n m : Node} {j : Job}

theorem own_number (j : Job) : (j.region home).ids j.number := Or.inl rfl

/-- One call of a job. -/
theorem Underway.effect_call {β : Type} {c : Call β} {k : β → Script Reply}
    (underway : Underway home n m j (.call c k))
    (held : ∀ k id, n.db k = some (.object id) → home id = some k) {r : Except Raise β} {t : Node}
    (handled : n.callAs j.number c = some (r, t)) : Effect home j n t where
  spares := ((Region.Meet.refl _ n).agree (closed_region held j)).callAs_spares (own_number j)
    underway.stays.1.1 handled
  reads := fun reads => Node.callAs_reads (underway.reads reads).1 handled

/-- A whole job, executed after the commands that are done. -/
theorem effect_script (held : ∀ k id, m.db k = some (.object id) → home id = some k)
    {r : Except Raise Reply} {t : Node}
    (ran : j.request.script.run (Node.callAs j.number) m = some (r, t)) : Effect home j m t where
  spares := (stays_script (R := j.region home) fun _ mine => mine).run_spares (own_number j)
    (closed_region held j) ran
  reads := by
    intro reads
    refine Prog.Within.run_keeps (h := Node.callAs j.number)
      (I := fun t => Region.whole.Meet m t) ?_
      (readsOnly_script reads) (Region.Meet.refl _ m) ran
    intro β c s r t read before handled
    exact ⟨before.trans (Node.callAs_reads read handled), fun _ _ => trivial⟩

/-- The command's remaining run after one of its calls. -/
theorem Underway.call {β : Type} {c : Call β} {k : β → Script Reply}
    (underway : Underway home n m j (.call c k))
    (held : ∀ k id, n.db k = some (.object id) → home id = some k) {b : β} {t : Node}
    (handled : n.callAs j.number c = some (.ok b, t)) : Underway home t m j (k b) where
  owns := underway.owns
  stays := underway.stays.2 b (((Region.Meet.refl _ n).agree (closed_region held j)).callAs_gives
    (own_number j) underway.stays.1.1 handled)
  reads := fun reads => (underway.reads reads).2 b trivial
  outcome := by
    have outcome := underway.outcome
    rw [Prog.run] at outcome
    simpa only [handled] using outcome

theorem Underway.call_error {β : Type} {c : Call β} {k : β → Script Reply}
    (underway : Underway home n m j (.call c k)) {e : Raise} {t : Node}
    (handled : n.callAs j.number c = some (.error e, t)) : Underway home t m j (.raise e) where
  owns := underway.owns
  stays := trivial
  reads := fun _ => trivial
  outcome := by
    have outcome := underway.outcome
    rw [Prog.run] at outcome
    simp only [handled] at outcome
    exact outcome

/-- A command in progress does not see what other jobs do to the node. -/
theorem Underway.of_meet {p : Script Reply} {t : Node} (underway : Underway home n m j p)
    (held : ∀ k id, n.db k = some (.object id) → home id = some k)
    (meet : (j.region home).Meet n t) : Underway home t m j p where
  owns := underway.owns
  stays := underway.stays
  reads := underway.reads
  outcome := by
    have same := underway.stays.run_meet (own_number j)
      (fun k id mine entry => closed_region held j k id mine ((meet.db k mine).symm ▸ entry))
      meet.symm
    exact same.trans (fun _ _ _ first second => first.trans second) underway.outcome

/-- Nor does it matter to it that other jobs are done. -/
theorem Underway.of_meet_seq {p : Script Reply} {t : Node} (underway : Underway home n m j p)
    (heldSeq : ∀ k id, m.db k = some (.object id) → home id = some k)
    (meet : (j.region home).Meet m t) : Underway home n t j p where
  owns := underway.owns
  stays := underway.stays
  reads := underway.reads
  outcome := by
    have same := (stays_script (R := j.region home) fun _ mine => mine).run_meet (own_number j)
      (closed_region heldSeq j) meet
    exact underway.outcome.trans (fun _ _ _ first second => first.trans second) same

end Steps

/-! ## The invariant -/

variable {n₀ m : Node} {s : Service} {home : Nat → Option CStr}

/-- One call of a client's command. -/
theorem Explained.resume (explained : Explained n₀ s m home) {client : Nat} {j : Job}
    {p p' : Script Reply} (running : s.running client = some (j, p)) {t : Node}
    (effect : Effect home j s.node t) (underway : Underway home t m j p') :
    Explained n₀ (s.resume client j t p') m home := by
  obtain ⟨isClient, number, before⟩ := explained.underway client j p running
  have others : ∀ c, c ≠ client → (s.resume client j t p').running c = s.running c :=
    fun c other => Function.update_of_ne other _ _
  have here : (s.resume client j t p').running client = some (j, p') := Function.update_self _ _ _
  have runningIff : ∀ c j' q, (s.resume client j t p').running c = some (j', q) →
      ∃ q', s.running c = some (j', q') := by
    intro c j' q found
    by_cases same : c = client
    · subst same
      rw [here] at found
      obtain ⟨rfl, _⟩ := Prod.mk.inj (Option.some.inj found)
      exact ⟨p, running⟩
    · exact ⟨q, others c same ▸ found⟩
  refine ⟨explained.seq, effect.held before.owns explained.held, explained.heldSeq,
    explained.old, ?_, explained.slots.trans effect.spares.slotsOut.symm, ?_, ?_, ?_, ?_⟩
  · intro id later
    have sameObj : t.objs id = s.node.objs id := effect.unused number explained.old later
    exact ⟨sameObj.trans (explained.unused id later).1, (explained.unused id later).2⟩
  · intro k quiet
    have quietBefore : s.Quiet k := by
      intro c j' q found key
      by_cases same : c = client
      · subst same
        rw [running] at found
        obtain ⟨rfl, _⟩ := Prod.mk.inj (Option.some.inj found)
        exact quiet c j p' here key
      · exact quiet c j' q ((others c same).trans found) key
    exact (effect.meet_key before.owns (quiet client j p' here)).symm.trans
      (explained.quiet k quietBefore)
  · intro c j' q found
    by_cases same : c = client
    · subst same
      rw [here] at found
      obtain ⟨rfl, rfl⟩ := Prod.mk.inj (Option.some.inj found)
      exact ⟨isClient, number, underway⟩
    · rw [others c same] at found
      obtain ⟨isClient', number', underway'⟩ := explained.underway c j' q found
      obtain ⟨differ, compatible⟩ :=
        explained.distinct client c j j' p q (Ne.symm same) running found
      exact ⟨isClient', number', underway'.of_meet explained.held
        (effect.meet_job before.owns underway'.owns differ compatible)⟩
  · intro c c' j₁ j₂ p₁ p₂ differ first second
    obtain ⟨q₁, first⟩ := runningIff c j₁ p₁ first
    obtain ⟨q₂, second⟩ := runningIff c' j₂ p₂ second
    exact explained.distinct c c' j₁ j₂ q₁ q₂ differ first second
  · intro c
    have order := explained.order c
    by_cases same : c = client
    · subst same
      rw [here]
      rw [running] at order
      exact order
    · rw [others c same]
      exact order

/-- A client's command ends. -/
theorem Explained.finish (explained : Explained n₀ s m home) {client : Nat} {j : Job}
    {p : Script Reply} (running : s.running client = some (j, p)) {r : Except Raise Reply}
    (ended : p.run (Node.callAs j.number) s.node = some (r, s.node)) :
    ∃ m', Explained n₀ (s.finish client j r) m' home := by
  obtain ⟨isClient, number, before⟩ := explained.underway client j p running
  -- the sequential execution of the job gives the same reply
  obtain ⟨m', ran, meet⟩ : ∃ m', j.request.script.run (Node.callAs j.number) m = some (r, m') ∧
      (j.region home).Meet s.node m' := by
    have outcome := before.outcome
    rw [ended] at outcome
    match ran : j.request.script.run (Node.callAs j.number) m with
    | none =>
        rw [ran] at outcome
        exact outcome.elim
    | some (r', m') =>
        rw [ran] at outcome
        obtain ⟨rfl, meet⟩ := outcome
        exact ⟨m', rfl, meet⟩
  have effect : Effect home j m m' := effect_script explained.heldSeq ran
  have others : ∀ c, c ≠ client → (s.finish client j r).running c = s.running c :=
    fun c other => Function.update_of_ne other _ _
  have here : (s.finish client j r).running client = none := Function.update_self _ _ _
  have stillRunning : ∀ c j' q, (s.finish client j r).running c = some (j', q) →
      c ≠ client ∧ s.running c = some (j', q) := by
    intro c j' q found
    have other : c ≠ client := by
      intro same
      obtain rfl := same
      rw [here] at found
      cases found
    exact ⟨other, others c other ▸ found⟩
  refine ⟨m', ?_, explained.held, effect.held before.owns explained.heldSeq, explained.old, ?_,
    effect.spares.slotsOut.trans explained.slots, ?_, ?_, ?_, ?_⟩
  · simp only [Service.finish, List.map_append, List.map_cons, List.map_nil]
    exact serveAll_append explained.seq ran
  · intro id later
    have sameObj : m'.objs id = m.objs id := effect.unused number explained.old later
    exact ⟨(explained.unused id later).1, sameObj.trans (explained.unused id later).2⟩
  · intro k quiet
    by_cases wrote : j.request.key = some k ∧ ¬ j.request.cmd.Reads
    · -- the key was the job's alone, and the job is done on both sides
      refine ⟨?_, ?_, meet.slots⟩
      · intro k' same
        obtain rfl := same
        exact meet.db k' wrote.1
      · intro id lives
        exact meet.objs id (Or.inr ⟨k, wrote.1, lives⟩)
    · have readsHere : j.request.key = some k → j.request.cmd.Reads := by
        intro key
        by_contra writes
        exact wrote ⟨key, writes⟩
      have quietBefore : s.Quiet k := by
        intro c j' q found key
        by_cases same : c = client
        · subst same
          rw [running] at found
          obtain ⟨rfl, _⟩ := Prod.mk.inj (Option.some.inj found)
          exact readsHere key
        · exact quiet c j' q ((others c same).trans found) key
      exact (explained.quiet k quietBefore).trans (effect.meet_key before.owns readsHere)
  · intro c j' q found
    obtain ⟨other, found⟩ := stillRunning c j' q found
    obtain ⟨isClient', number', underway'⟩ := explained.underway c j' q found
    obtain ⟨differ, compatible⟩ :=
      explained.distinct client c j j' p q (Ne.symm other) running found
    exact ⟨isClient', number', underway'.of_meet_seq explained.heldSeq
      (effect.meet_job before.owns underway'.owns differ compatible)⟩
  · intro c c' j₁ j₂ p₁ p₂ differ first second
    exact explained.distinct c c' j₁ j₂ p₁ p₂ differ (stillRunning c j₁ p₁ first).2
      (stillRunning c' j₂ p₂ second).2
  · intro c
    have order := explained.order c
    simp only [Service.finish, List.map_append, List.map_cons, List.map_nil, List.filter_append]
    by_cases same : c = client
    · subst same
      rw [running] at order
      rw [Function.update_self]
      simpa [isClient] using order
    · rw [Function.update_of_ne same]
      have notHers : j.client ≠ c := fun sameClient => same (sameClient.symm.trans isClient)
      simpa [notHers] using order

theorem Underway.congr {home' : Nat → Option CStr} {n : Node} {j : Job} {p : Script Reply}
    (underway : Underway home n m j p) (region : j.region home' = j.region home)
    (own : home' j.number = home j.number) : Underway home' n m j p where
  owns := ⟨by rw [own]; exact underway.owns.own, by rw [own]; exact underway.owns.writes⟩
  stays := by
    rw [region]
    exact underway.stays
  reads := underway.reads
  outcome := by
    rw [region]
    exact underway.outcome

/-! ### A client sends a command -/

/-- The service once a client has sent a command. -/
def Service.begin (s : Service) (client : Nat) (r : Request) : Service :=
  { s with
    next := s.next + 1
    started := s.started ++ [⟨client, s.next, r⟩]
    running := Function.update s.running client (some (⟨client, s.next, r⟩, r.script)) }

/-- The new name belongs to the key of a command that writes. -/
def homeWith (home : Nat → Option CStr) (number : Nat) (r : Request) : Nat → Option CStr :=
  Function.update home number (if r.cmd.Reads then none else r.key)

section Begin

variable {client : Nat} {r : Request} {k : CStr}

theorem homeWith_of_ne {id number : Nat} (other : id ≠ number) :
    homeWith home number r id = home id :=
  Function.update_of_ne other _ _

theorem writes_of_homeWith {number : Nat} (lives : homeWith home number r number = some k) :
    ¬ r.cmd.Reads ∧ r.key = some k := by
  unfold homeWith at lives
  rw [Function.update_self] at lives
  split at lives
  · cases lives
  · rename_i writes
    exact ⟨writes, lives⟩

theorem Explained.free (explained : Explained n₀ s m home) : home s.next ≠ some k :=
  fun lives => lt_irrefl _ (explained.old s.next k lives)

theorem Explained.homeWith_of_some (explained : Explained n₀ s m home) {id : Nat}
    (lives : home id = some k) : homeWith home s.next r id = some k := by
  have other : id ≠ s.next := fun same => explained.free (same ▸ lives)
  rw [homeWith_of_ne other, lives]

theorem running_begin {c : Nat} {j : Job} {p : Script Reply}
    (found : (s.begin client r).running c = some (j, p)) :
    (c = client ∧ j = ⟨client, s.next, r⟩ ∧ p = r.script) ∨
      (c ≠ client ∧ s.running c = some (j, p)) := by
  unfold Service.begin at found
  dsimp only at found
  by_cases same : c = client
  · subst same
    rw [Function.update_self] at found
    obtain ⟨rfl, rfl⟩ := Prod.mk.inj (Option.some.inj found)
    exact Or.inl ⟨rfl, rfl, rfl⟩
  · rw [Function.update_of_ne same] at found
    exact Or.inr ⟨same, found⟩

theorem quiet_of_begin (idle : s.running client = none) (quiet : (s.begin client r).Quiet k) :
    s.Quiet k := by
  intro c j p found key
  have other : c ≠ client := by
    intro same
    obtain rfl := same
    rw [idle] at found
    cases found
  exact quiet c j p ((Function.update_of_ne other _ _).trans found) key

theorem Explained.quiet_begin (explained : Explained n₀ s m home)
    (idle : s.running client = none) (quiet : (s.begin client r).Quiet k) :
    (keyRegion (homeWith home s.next r) k).Meet s.node m := by
  have meet := explained.quiet k (quiet_of_begin idle quiet)
  refine ⟨meet.db, ?_, meet.slots⟩
  intro id lives
  have other : id ≠ s.next := by
    intro same
    obtain rfl := same
    obtain ⟨writes, key⟩ := writes_of_homeWith lives
    exact writes (quiet client _ _ (Function.update_self _ _ _) key)
  exact meet.objs id ((homeWith_of_ne other).symm.trans lives)

/-- Nobody writes the key of the new command, so the node is where the sequential
execution is. -/
theorem Explained.underway_new (explained : Explained n₀ s m home)
    (compatible : ∀ c j p, s.running c = some (j, p) → Compatible r j.request) :
    Underway (homeWith home s.next r) s.node m ⟨client, s.next, r⟩ r.script := by
  refine ⟨⟨fun k lives => (writes_of_homeWith lives).2, ?_⟩, stays_script fun _ mine => mine,
    readsOnly_script, ?_⟩
  · intro writes
    exact (Function.update_self _ _ _).trans (if_neg writes)
  · have quietKey : ∀ k, r.key = some k → s.Quiet k :=
      fun k key c' j' p' found' key' => (compatible c' j' p' found' k key key').2
    refine (stays_script (R := Job.region (homeWith home s.next r) ⟨client, s.next, r⟩)
      fun _ mine => mine).run_meet (own_number _)
      (closed_region (fun k id entry =>
        explained.homeWith_of_some (explained.held k id entry)) _) ?_
    refine ⟨?_, ?_, explained.slots⟩
    · intro k mine
      exact (explained.quiet k (quietKey k mine)).db k rfl
    · intro id either
      rcases either with rfl | ⟨k, mine, lives⟩
      · obtain ⟨here, there⟩ := explained.unused s.next le_rfl
        exact there.trans here.symm
      · by_cases same : id = s.next
        · subst same
          obtain ⟨here, there⟩ := explained.unused s.next le_rfl
          exact there.trans here.symm
        · exact (explained.quiet k (quietKey k mine)).objs id
            ((homeWith_of_ne same).symm.trans lives)

/-- A command in progress does not share the key that the new one writes. -/
theorem Explained.underway_begin (explained : Explained n₀ s m home)
    (compatible : ∀ c j p, s.running c = some (j, p) → Compatible r j.request) {c : Nat} {j : Job}
    {p : Script Reply} (found : s.running c = some (j, p)) :
    Underway (homeWith home s.next r) s.node m j p := by
  obtain ⟨_, number, underway⟩ := explained.underway c j p found
  refine underway.congr ?_ (homeWith_of_ne (Nat.ne_of_lt number))
  refine congrArg (Region.mk _) (funext fun id => propext ?_)
  by_cases same : id = s.next
  · subst same
    constructor
    · intro either
      rcases either with own | ⟨k, key, lives⟩
      · exact Or.inl own
      · obtain ⟨writes, newKey⟩ := writes_of_homeWith lives
        exact absurd (compatible c j p found k newKey key).1 writes
    · intro either
      rcases either with own | ⟨k, key, lives⟩
      · exact Or.inl own
      · exact absurd lives explained.free
  · rw [homeWith_of_ne same]

theorem Explained.distinct_begin (explained : Explained n₀ s m home)
    (compatible : ∀ c j p, s.running c = some (j, p) → Compatible r j.request) {c c' : Nat}
    {j₁ j₂ : Job} {p₁ p₂ : Script Reply} (differ : c ≠ c')
    (first : (s.begin client r).running c = some (j₁, p₁))
    (second : (s.begin client r).running c' = some (j₂, p₂)) :
    j₁.number ≠ j₂.number ∧ Compatible j₁.request j₂.request := by
  rcases running_begin first with ⟨rfl, rfl, rfl⟩ | ⟨_, running₁⟩
  · rcases running_begin second with ⟨rfl, _, _⟩ | ⟨_, running₂⟩
    · exact absurd rfl differ
    · obtain ⟨_, number, _⟩ := explained.underway c' j₂ p₂ running₂
      exact ⟨Nat.ne_of_gt number, compatible c' j₂ p₂ running₂⟩
  · rcases running_begin second with ⟨rfl, rfl, rfl⟩ | ⟨_, running₂⟩
    · obtain ⟨_, number, _⟩ := explained.underway c j₁ p₁ running₁
      exact ⟨Nat.ne_of_lt number, (compatible c j₁ p₁ running₁).symm⟩
    · exact explained.distinct c c' j₁ j₂ p₁ p₂ differ running₁ running₂

theorem Explained.start (explained : Explained n₀ s m home)
    (idle : s.running client = none)
    (compatible : ∀ c j p, s.running c = some (j, p) → Compatible r j.request) :
    Explained n₀ (s.begin client r) m (homeWith home s.next r) where
  seq := explained.seq
  held k id entry := explained.homeWith_of_some (explained.held k id entry)
  heldSeq k id entry := explained.homeWith_of_some (explained.heldSeq k id entry)
  old := by
    intro id k lives
    by_cases same : id = s.next
    · rw [same]
      exact Nat.lt_succ_self _
    · rw [homeWith_of_ne same] at lives
      exact Nat.lt_succ_of_lt (explained.old id k lives)
  unused id later := explained.unused id (Nat.le_of_succ_le later)
  slots := explained.slots
  quiet _ quiet := explained.quiet_begin idle quiet
  underway := by
    intro c j p found
    rcases running_begin found with ⟨rfl, rfl, rfl⟩ | ⟨_, before⟩
    · exact ⟨rfl, Nat.lt_succ_self _, explained.underway_new compatible⟩
    · obtain ⟨isClient, number, _⟩ := explained.underway c j p before
      exact ⟨isClient, Nat.lt_succ_of_lt number, explained.underway_begin compatible before⟩
  distinct _ _ _ _ _ _ differ first second :=
    explained.distinct_begin compatible differ first second
  order := by
    intro c
    have order := explained.order c
    simp only [Service.begin, List.filter_append]
    by_cases same : c = client
    · subst same
      rw [idle] at order
      rw [Function.update_self, order]
      simp
    · rw [Function.update_of_ne same, order]
      simp [Ne.symm same]

end Begin

/-- A turn that keeps the commands in progress compatible. -/
def Service.Admits (s : Service) : Service.Turn → Prop
  | .start _ r => ∀ c j p, s.running c = some (j, p) → Compatible r j.request
  | .step _ => True

theorem Explained.step {s' : Service} {turn : Service.Turn} (explained : Explained n₀ s m home)
    (admits : s.Admits turn) (fired : s.step turn = some s') :
    ∃ m' home', Explained n₀ s' m' home' := by
  cases turn with
  | start client r =>
      simp only [Service.step] at fired
      cases idle : s.running client with
      | some _ => simp [idle] at fired
      | none =>
          simp only [idle, Option.some.injEq] at fired
          subst fired
          exact ⟨m, _, explained.start idle admits⟩
  | step client =>
      simp only [Service.step] at fired
      match running : s.running client with
      | none => simp [running] at fired
      | some (j, .ret reply) =>
          simp only [running, Option.some.injEq] at fired
          obtain ⟨m', after⟩ := explained.finish running rfl
          exact ⟨m', home, fired ▸ after⟩
      | some (j, .raise e) =>
          simp only [running, Option.some.injEq] at fired
          obtain ⟨m', after⟩ := explained.finish running rfl
          exact ⟨m', home, fired ▸ after⟩
      | some (j, .call c k) =>
          obtain ⟨_, _, underway⟩ := explained.underway client j _ running
          simp only [running] at fired
          match handled : s.node.callAs j.number c with
          | none => simp [handled] at fired
          | some (.ok b, t) =>
              simp only [handled, Option.some.injEq] at fired
              have effect := underway.effect_call explained.held handled
              exact ⟨m, home, fired ▸ explained.resume running effect
                (underway.call explained.held handled)⟩
          | some (.error e, t) =>
              simp only [handled, Option.some.injEq] at fired
              have effect := underway.effect_call explained.held handled
              exact ⟨m, home, fired ▸ explained.resume running effect (underway.call_error handled)⟩

theorem explained_init {n₀ : Node} (wf : n₀.Wf) :
    Explained n₀ (.init n₀) n₀ fun id => (n₀.objs id).bind Obj.key := by
  have held : ∀ k id, n₀.db k = some (.object id) → (n₀.objs id).bind Obj.key = some k := by
    intro k id entry
    obtain ⟨o, found, key⟩ := wf.held k id entry
    rw [found, Option.bind_some, key]
  refine ⟨rfl, held, held, ?_, ?_, rfl, fun k _ => Region.Meet.refl _ _, ?_, ?_, fun c => rfl⟩
  · intro id k lives
    obtain ⟨o, found, _⟩ := Option.bind_eq_some_iff.mp lives
    exact wf.allocated id o found
  · intro id later
    have absent : n₀.objs id = none := by
      by_contra present
      obtain ⟨o, found⟩ := Option.ne_none_iff_exists'.mp present
      exact absurd (wf.allocated id o found) (Nat.not_lt.mpr later)
    exact ⟨absent, absent⟩
  · intro c j p running
    cases running
  · intro c c' j j' p p' _ running
    cases running

/-- Runs in which a command starts only beside compatible ones are sequential
executions in disguise: when no command is in progress, the replies and the
database are those of the commands one after another, in the order in which they
ended. -/
theorem linearizes_of_admits {n₀ : Node} (wf : n₀.Wf) {s : Service}
    (run : Reach Service.step Service.Admits (.init n₀) s) (idle : ∀ c, s.running c = none) :
    s.Linearizes n₀ := by
  obtain ⟨m, home, explained⟩ : ∃ m home, Explained n₀ s m home := by
    refine run.invariant (I := fun s => ∃ m home, Explained n₀ s m home)
      ⟨n₀, _, explained_init wf⟩ ?_
    intro s turn s' found admits fired
    obtain ⟨m, home, explained⟩ := found
    exact explained.step admits fired
  refine ⟨s.done, m, List.Perm.refl _, ?_, explained.seq, ?_⟩
  · intro c
    have order := explained.order c
    rw [idle c] at order
    simpa using order.symm
  · funext k
    have meet := explained.quiet k fun c j p running => by
      rw [idle c] at running
      cases running
    have sameDb := meet.db k rfl
    have sameContent : m.content k = s.node.content k := by
      rw [Node.content, Node.content, sameDb]
      rcases entry : s.node.db k with - | v | id
      · rfl
      · rfl
      · simp only [meet.objs id (explained.held k id entry)]
    rw [Node.view, Node.view, sameContent]

theorem nodup_slotsOfJK : [lit "3564", lit "7629"].Nodup := by decide

/-- A node with the slots of the keys `j` and `k`. -/
def nodeOfJK : Node :=
  Node.empty ⟨[lit "3564", lit "7629"], [], nodup_slotsOfJK, List.nodup_nil⟩ 0 true

theorem wf_nodeOfJK : nodeOfJK.Wf :=
  ⟨by simp [nodeOfJK, Node.empty], by simp [nodeOfJK, Node.empty]⟩

/-- The calls of `LPUSH k x` and `SET j y`, in turns. -/
def pushBesideSet : List Service.Turn :=
  [.step 0, .step 0, .step 1, .step 0, .step 1, .step 0, .step 1, .step 0, .step 1,
    .step 0, .step 0, .step 0]

theorem linearizes_pushBesideSet :
    ∃ s₁ s₂ s, (Service.init nodeOfJK).step (.start 0 ⟨.lPush, [lit "k", lit "x"]⟩) = some s₁ ∧
      s₁.step (.start 1 ⟨.set, [lit "j", lit "y"]⟩) = some s₂ ∧
      runEvents Service.step s₂ pushBesideSet = some s ∧ s.Linearizes nodeOfJK := by
  refine ⟨_, _, _, rfl, rfl, rfl, linearizes_of_admits wf_nodeOfJK (.trans (.next (.next .init
    (e := .start 0 ⟨.lPush, [lit "k", lit "x"]⟩) ?_ rfl)
    (e := .start 1 ⟨.set, [lit "j", lit "y"]⟩) ?_ rfl) (Reach.of_guardedEvents
      (fun _ turn => match turn with | .step _ => true | .start _ _ => false) ?_
      pushBesideSet rfl rfl)) ?_⟩
  · intro c j p running
    cases running
  · intro c j p running
    by_cases first : c = 0
    · subst first
      obtain ⟨rfl, _⟩ := Prod.mk.inj (Option.some.inj running)
      intro k here there
      exact absurd (here.trans there.symm) (by decide)
    · simp [Function.update_of_ne first, Service.init] at running
  · intro s turn allowed
    cases turn with
    | start client r => cases allowed
    | step client => trivial
  · intro c
    by_cases first : c = 0
    · subst first
      rfl
    · by_cases second : c = 1
      · subst second
        rfl
      · simp [Service.finish, Service.resume, Function.update_of_ne first,
          Function.update_of_ne second, Service.init]

/-- Two clients push to the free key `k`.  Both find no list; the second stores
its new list after the first has looked its own up again, so that the first
pushes to a list that has left the database. -/
def pushesToFreeKey : List Service.Turn :=
  [.start 0 ⟨.lPush, [lit "k", lit "x"]⟩, .start 1 ⟨.lPush, [lit "k", lit "y"]⟩,
    .step 0, .step 0, .step 1, .step 1, .step 0, .step 0, .step 0, .step 1, .step 1,
    .step 0, .step 0, .step 0, .step 1, .step 1, .step 1, .step 1]

/-- Both replies are `-OK` and one element is missing. -/
theorem pushesToFreeKey_not_linearizes :
    ∃ s, runEvents Service.step (.init nodeOfJK) pushesToFreeKey = some s ∧
      (∀ c, s.running c = none) ∧ ¬ s.Linearizes nodeOfJK := by
  refine ⟨_, rfl, ?_, ?_⟩
  · intro c
    by_cases first : c = 0
    · subst first
      rfl
    · by_cases second : c = 1
      · subst second
        rfl
      · simp [Service.finish, Service.resume, Function.update_of_ne first,
          Function.update_of_ne second, Service.init]
  · intro found
    obtain ⟨order, m, perm, _, served, sameView⟩ := found
    have here := congrArg (Option.map Value.elems) (congrFun sameView ⟨[107], by decide⟩)
    rcases List.perm_pair.mp perm with rfl | rfl
    · obtain ⟨_, rfl⟩ := Prod.mk.inj (Option.some.inj served)
      revert here
      decide
    · obtain ⟨_, rfl⟩ := Prod.mk.inj (Option.some.inj served)
      revert here
      decide

end XFireDB
