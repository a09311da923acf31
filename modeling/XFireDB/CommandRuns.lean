import XFireDB.CommandEffects
import XFireDB.Carry
import XFireDB.PersistCommands

/-!
# Commands have their effects

A storage command on a key of its node has the effect `Cmd.effect` on that key: the
reply, what the key holds, and whether it is tracked.  Nothing else in the database
changes.
-/

namespace XFireDB

open Lib Command Node

/-! ## What a command leaves -/

/-- An exact counter and no key twice. -/
def Container.Exact : Container → Prop
  | .list _ => True
  | .hashmap nodes num => (nodes.map SkiplistNode.key).Nodup ∧ num = int32 nodes.length
  | .set nodes num => (nodes.map SkiplistNode.key).Nodup ∧ num = int32 nodes.length

/-- What a key holds is exact. -/
def Stored.Exact (v : Option Stored) : Prop := ∀ c, v = some (.container c) → c.Exact

/-- The keys tracked after a command on `k`. -/
def After.Tracks (a : After) (keys : List RStr) (k : CStr) (key : RStr) : Prop :=
  match a.track with
  | none => key ∈ keys
  | some true => key ∈ keys ∨ key = k.toR
  | some false => key ∈ keys ∧ key ≠ k.toR

/-- `t` is `n` after a command on `k`. -/
structure Node.Leaves (n : Node) (k : CStr) (t : Node) (a : After) : Prop where
  wf : t.Wf
  content : t.content = Function.update n.content k a.value
  slots : t.shard.slots = n.shard.slots
  keys : ∀ key, key ∈ t.shard.keys ↔ a.Tracks n.shard.keys k key

/-- Inside a command on `k`: the key holds the container `c` in the object `id`, and nothing
else has changed. -/
structure Node.Working (n : Node) (k : CStr) (id : Nat) (t : Node) (c : Container) : Prop where
  wf : t.Wf
  content : t.content = Function.update n.content k (some (.container c))
  shard : t.shard = n.shard
  holds : ∃ o, t.Holds k id o ∧ o.c = c

variable {n t : Node} {k : CStr} {id : Nat} {c : Container}

theorem Node.Wf.leaves (wf : n.Wf) (k : CStr) : n.Leaves k n ⟨n.content k, none⟩ :=
  ⟨wf, (Function.update_eq_self k n.content).symm, rfl, fun _ => Iff.rfl⟩

theorem Node.Working.leaves (working : n.Working k id t c) :
    n.Leaves k t ⟨some (.container c), none⟩ := by
  refine ⟨working.wf, working.content, ?_, ?_⟩
  · rw [working.shard]
  · intro key
    rw [working.shard]
    exact Iff.rfl

theorem Node.Wf.working (wf : n.Wf) {o : Obj} (holds : n.Holds k id o) : n.Working k id n o.c := by
  refine ⟨wf, ?_, rfl, o, holds, rfl⟩
  rw [← holds.content, Function.update_eq_self]

@[simp] theorem notices_shard (n : Node) (ops : List BioQ) : (n.notices ops).shard = n.shard := by
  rw [notices_eq]

@[simp] theorem noticeAll_shard (n : Node) (key : Option CStr) (f : CStr → List BioQ) :
    (n.noticeAll key f).shard = n.shard := by
  cases key with
  | none => rfl
  | some k => exact notices_shard n (f k)

/-- A method call that puts `c'` in the place of the data. -/
theorem Node.Working.put (working : n.Working k id t c) {o : Obj} (holds : t.Holds k id o)
    (c' : Container) (f : CStr → List BioQ) (forKey : ∀ q ∈ f k, q.key = k) :
    n.Working k id ((t.setObj id { o with c := c' }).noticeAll o.key f) c' := by
  have changes := working.wf.changes_object holds c' forKey
  have told : (t.setObj id { o with c := c' }).noticeAll o.key f =
      (t.setObj id { o with c := c' }).notices (f k) := by
    rw [working.wf.holds_key holds, Node.noticeAll]
  rw [told]
  refine ⟨changes.wf, ?_, ?_, _, holds_setObj holds _ _, rfl⟩
  · rw [changes.content, working.content, Function.update_idem]
  · rw [notices_shard]
    exact working.shard

/-- The same with the notices before. -/
theorem Node.Working.putFirst (working : n.Working k id t c) {o : Obj} (holds : t.Holds k id o)
    (c' : Container) (f : CStr → List BioQ) (forKey : ∀ q ∈ f k, q.key = k) :
    n.Working k id ((t.noticeAll o.key f).setObj id { o with c := c' }) c' := by
  have put := working.put holds c' f forKey
  rw [working.wf.holds_key holds, Node.noticeAll] at put ⊢
  rwa [setObj_notices] at put

theorem rawRbDbDelete_shard (n : Node) (k : CStr) (entry : Entry) :
    (n.rawRbDbDelete k entry).shard = n.shard := by
  unfold Node.rawRbDbDelete
  split
  · exact notices_shard n [_]
  · split
    · exact noticeAll_shard n _ _
    · rfl

theorem rbDbStoreFresh_shard (n : Node) (k : CStr) (data : Val) :
    (n.rbDbStoreFresh k data).2.shard = n.shard := by
  unfold Node.rbDbStoreFresh
  split
  · rfl
  · split
    · rfl
    · exact notices_shard _ [_]
  · split
    · exact noticeAll_shard _ _ _
    · rfl

theorem rbDbStore_shard (n : Node) (key : RStr) (data : Val) :
    (n.rbDbStore key data).2.shard = n.shard := by
  unfold Node.rbDbStore
  split
  · rfl
  · split
    · exact rbDbStoreFresh_shard n _ data
    · dsimp only
      split
      · split
        · rfl
        · exact notices_shard _ [_]
      · split
        · exact rbDbStoreFresh_shard _ _ _
        · rw [rbDbStoreFresh_shard, rawRbDbDelete_shard]
          rfl
      · rw [rbDbStoreFresh_shard, rawRbDbDelete_shard]
        rfl

theorem rbDbDelete_shard (n : Node) (key : RStr) : (n.rbDbDelete key).2.shard = n.shard := by
  unfold Node.rbDbDelete
  split
  · rfl
  · split
    · rfl
    · exact rawRbDbDelete_shard _ _ _

/-- A string with a NUL is refused, and what the key held is gone. -/
theorem Node.Wf.rbDbStore_refused (wf : n.Wf) {key : RStr} (known : stringValueCStr key = .ok k)
    {data : RStr} {e : Raise} (value : stringValueCStr data = .error e) :
    ∃ m, n.rbDbStore key (.str data) = (.error e, m) ∧ m.Wf ∧
      m.content = Function.update n.content k none := by
  by_cases isString : ∃ s, n.db k = some (.string s)
  · obtain ⟨s, found⟩ := isString
    refine ⟨n.setDb k none, ?_, wf.setDb (by simp), content_setDb_none n k⟩
    simp only [Node.rbDbStore, known, found, value]
  · push Not at isString
    obtain ⟨m, raised, changes⟩ := wf.rbDbStore_raise known value isString
    exact ⟨m, raised, changes.wf, changes.content⟩

/-! ## Running on -/

section Run

variable {crash : List CStr → CStr → Bool} {α β : Type}

/-- One call that returns, then the rest. -/
theorem run_call_ok {c : Call β} {b : β} {f : β → Script α}
    (handled : callWith crash n c = some (.ok b, t)) :
    (engine c >>= f).run (callWith crash) n = (f b).run (callWith crash) t :=
  Prog.run_bind_ok (Prog.run_lift_ok handled)

theorem run_call_error {c : Call β} {e : Raise} {f : β → Script α}
    (handled : callWith crash n c = some (.error e, t)) :
    (engine c >>= f).run (callWith crash) n = some (.error e, t) := by
  rw [engine, Prog.lift_bind, Prog.run, handled]

theorem run_call_none {c : Call β} {f : β → Script α} (handled : callWith crash n c = none) :
    (engine c >>= f).run (callWith crash) n = none := by
  rw [engine, Prog.lift_bind, Prog.run, handled]

theorem run_here {query : RStr} {here : Script Reply} (owned : n.shard.includes k.toR = .ok true) :
    (unlessLocal k.toR query here).run (callWith crash) n = here.run (callWith crash) n := by
  have asked : callWith crash n (.shardInclude k.toR) = some (n.shard.includes k.toR, n) := rfl
  rw [owned] at asked
  exact run_call_ok asked

variable (crash) in
/-- The key is tracked, then the reply. -/
theorem Node.Leaves.run_exec_add {v : Option Stored} (leaves : n.Leaves k t ⟨v, none⟩)
    (owned : n.shard.includes k.toR = .ok true) (a : α) :
    ∃ t', (exec k.toR true >>= fun _ => pure a : Script α).run (callWith crash) t =
      some (.ok a, t') ∧ n.Leaves k t' ⟨v, some true⟩ := by
  have same : t.shard.includes k.toR = .ok true := by
    rw [Region.Tied.includes_congr leaves.slots, owned]
  obtain ⟨shard, grown, slots, keys⟩ : ∃ shard, t.shard.addKey k.toR = .ok shard ∧
      shard.slots = t.shard.slots ∧ shard.keys = setAdd t.shard.keys k.toR := by
    rw [KeyShard.addKey, same]
    exact ⟨_, rfl, rfl, rfl⟩
  have added : callWith crash t (.addKey k.toR) = some (.ok (), { t with shard }) := by
    show Node.call t (.addKey k.toR) = _
    rw [Node.call, grown]
  refine ⟨_, run_call_ok added, ⟨leaves.wf.held, leaves.wf.allocated⟩, leaves.content,
    slots.trans leaves.slots, ?_⟩
  intro key
  show key ∈ shard.keys ↔ key ∈ n.shard.keys ∨ key = k.toR
  rw [keys, mem_setAdd, leaves.keys key]
  exact Iff.rfl

variable (crash) in
/-- The key is deleted and no longer tracked, then the reply. -/
theorem Node.Leaves.run_delete {v : Option Stored} (leaves : n.Leaves k t ⟨v, none⟩) (a : α) :
    ∃ t', (do
      engine (.dbDelete k.toR)
      exec k.toR false
      pure a : Script α).run (callWith crash) t = some (.ok a, t') ∧
        n.Leaves k t' ⟨none, some false⟩ := by
  obtain ⟨m, deleted, changes⟩ := leaves.wf.rbDbDelete (stringValueCStr_toR k)
  have shard : m.shard = t.shard := by
    rw [← rbDbDelete_shard t k.toR, deleted]
  have first : callWith crash t (.dbDelete k.toR) = some (.ok (), m) := congrArg some deleted
  have second : callWith crash m (.delKey k.toR) =
      some (.ok (), { m with shard := m.shard.delKey k.toR }) := rfl
  refine ⟨_, (run_call_ok first).trans (run_call_ok second),
    ⟨changes.wf.held, changes.wf.allocated⟩, ?_, ?_, ?_⟩
  · exact changes.content.trans (by rw [leaves.content, Function.update_idem])
  · rw [← leaves.slots, ← shard]
    rfl
  · intro key
    have tracked : key ∈ m.shard.keys ↔ key ∈ n.shard.keys := by
      rw [shard]
      exact leaves.keys key
    show key ∈ m.shard.keys.filter (· ≠ k.toR) ↔ key ∈ n.shard.keys ∧ key ≠ k.toR
    rw [List.mem_filter, tracked, decide_eq_true_iff]

variable (crash) in
/-- Look the key up and go on by what it holds. -/
theorem Node.Wf.run_dbRef (wf : n.Wf) (k : CStr) (rest : Val → Script α) :
    (n.content k = none ∧ (engine (.dbRef k.toR) >>= rest).run (callWith crash) n =
      (rest .nil).run (callWith crash) n) ∨
    (∃ s, n.content k = some (.string s) ∧ (engine (.dbRef k.toR) >>= rest).run (callWith crash) n =
      (rest (.str s.toR)).run (callWith crash) n) ∨
    ∃ id c, n.content k = some (.container c) ∧ n.Working k id n c ∧
      (engine (.dbRef k.toR) >>= rest).run (callWith crash) n =
        (rest (.obj c.kind id)).run (callWith crash) n := by
  have known := stringValueCStr_toR k
  rcases wf.content_cases k with ⟨missing, nothing⟩ | ⟨s, found, string⟩ | ⟨id, o, holds⟩
  · exact Or.inl ⟨nothing, run_call_ok (congrArg some (rbDbRef_none known missing))⟩
  · exact Or.inr (Or.inl ⟨s, string, run_call_ok (congrArg some (rbDbRef_string known found))⟩)
  · exact Or.inr (Or.inr ⟨id, o.c, holds.content, wf.working holds,
      run_call_ok (congrArg some (rbDbRef_object known holds))⟩)

/-- What holds of what a key holds when it is of a kind, or not. -/
theorem Node.Wf.run_lookup (wf : n.Wf) (k : CStr) (kind : Kind) {rest : Val → Script Reply}
    (missing : rest .nil = pure (text "-nil")) (string : ∀ s, rest (.str s) = pure (text "-nil"))
    (other : ∀ kind' id, kind' ≠ kind → rest (.obj kind' id) = pure (text "-nil")) :
    (∃ id c, n.content k = some (.container c) ∧ c.kind = kind ∧ n.Working k id n c ∧
      (engine (.dbRef k.toR) >>= rest).run (callWith crash) n =
        (rest (.obj kind id)).run (callWith crash) n) ∨
    ((∀ c, n.content k = some (.container c) → c.kind ≠ kind) ∧
      (engine (.dbRef k.toR) >>= rest).run (callWith crash) n = some (.ok (text "-nil"), n)) := by
  rcases wf.run_dbRef crash k rest with
    ⟨nothing, ran⟩ | ⟨s, isString, ran⟩ | ⟨id, c, stored, working, ran⟩
  · right
    rw [nothing, ran, missing]
    exact ⟨nofun, rfl⟩
  · right
    rw [isString, ran, string]
    exact ⟨nofun, rfl⟩
  · rcases eq_or_ne c.kind kind with same | differs
    · left
      rw [same] at ran
      exact ⟨id, c, stored, same, working, ran⟩
    · right
      rw [ran, other _ _ differs]
      refine ⟨?_, rfl⟩
      intro c' stored'
      rw [stored] at stored'
      cases stored'
      exact differs

/-- The container of a kind that `ensure` leaves under a key. -/
def ensured (kind : Kind) : Option Stored → Container
  | some (.container c) => if c.kind = kind then c else Container.alloc kind
  | _ => Container.alloc kind

/-- `ensure`, behind the look-up. -/
def ensureFound (key : RStr) (kind : Kind) : Val → Script Unit
  | .obj k _ =>
    if k = kind then pure ()
    else do
      let id ← engine (.newObj kind)
      engine (.dbStore key (.obj kind id))
  | _ => do
    let id ← engine (.newObj kind)
    engine (.dbStore key (.obj kind id))

variable (crash) in
/-- `db[key] = Class.new unless db[key].is_a? Class`. -/
theorem Node.Wf.run_ensure (wf : n.Wf) (k : CStr) (kind : Kind) (rest : Unit → Script α) :
    ∃ t id, (ensure k.toR kind >>= rest).run (callWith crash) n = (rest ()).run (callWith crash) t ∧
      n.Working k id t (ensured kind (n.content k)) := by
  have known := stringValueCStr_toR k
  -- the branches that allocate and store
  have create : ∃ t id, (do
      let id ← engine (.newObj kind)
      engine (.dbStore k.toR (.obj kind id)) : Script Unit).run (callWith crash) n =
        some (.ok (), t) ∧ n.Working k id t (Container.alloc kind) := by
    obtain ⟨m, allocated, wf₁, unplaced, content, _⟩ := wf.newObj kind
    obtain ⟨t, stored, changes, holds⟩ := wf₁.rbDbStore_new known unplaced
    have shard : t.shard = n.shard := by
      have shard₁ := rbDbStore_shard m k.toR (.obj kind n.fresh)
      rw [stored] at shard₁
      have shard₂ := congrArg (fun out => out.2.shard) allocated
      exact shard₁.trans shard₂.symm
    have newed : callWith crash n (.newObj kind) = some (.ok n.fresh, m) := congrArg some allocated
    have placed : callWith crash m (.dbStore k.toR (.obj kind n.fresh)) = some (.ok (), t) :=
      congrArg some stored
    refine ⟨t, n.fresh, (run_call_ok newed).trans (Prog.run_lift_ok placed), changes.wf, ?_, shard,
      _, holds, rfl⟩
    rw [changes.content, content]
  have finish : ∀ t, (ensure k.toR kind).run (callWith crash) n = some (.ok (), t) →
      (ensure k.toR kind >>= rest).run (callWith crash) n = (rest ()).run (callWith crash) t :=
    fun t ran => Prog.run_bind_ok ran
  have looked := wf.run_dbRef crash k (ensureFound k.toR kind)
  rcases looked with ⟨nothing, ran⟩ | ⟨s, isString, ran⟩ | ⟨id, c, stored, working, ran⟩
  · obtain ⟨t, id, created, working⟩ := create
    rw [nothing]
    exact ⟨t, id, finish t (ran.trans created), working⟩
  · obtain ⟨t, id, created, working⟩ := create
    rw [isString]
    exact ⟨t, id, finish t (ran.trans created), working⟩
  · rw [stored, ensured]
    rcases eq_or_ne c.kind kind with same | differs
    · rw [if_pos same]
      refine ⟨n, id, finish n (ran.trans ?_), working⟩
      rw [ensureFound, if_pos same]
      rfl
    · obtain ⟨t, id', created, working'⟩ := create
      rw [if_neg differs]
      refine ⟨t, id', finish t (ran.trans ?_), working'⟩
      rw [ensureFound, if_neg differs]
      exact created

/-- The object under the key, found again. -/
theorem Node.Working.run_dbRef (working : n.Working k id t c) (rest : Val → Script α) :
    (engine (.dbRef k.toR) >>= rest).run (callWith crash) t =
      (rest (.obj c.kind id)).run (callWith crash) t := by
  obtain ⟨o, holds, rfl⟩ := working.holds
  exact run_call_ok (congrArg some (rbDbRef_object (stringValueCStr_toR k) holds))

end Run

/-! ## Nodes of exact containers -/

section Nodes

variable {β : Type} {nodes : Skiplist β} {h : CStr}

theorem nodup_filter (distinct : (nodes.map SkiplistNode.key).Nodup) (p : SkiplistNode β → Bool) :
    ((nodes.filter p).map SkiplistNode.key).Nodup :=
  (List.filter_sublist.map SkiplistNode.key).nodup distinct

/-- Taking out a key that is there makes one less. -/
theorem length_filter (distinct : (nodes.map SkiplistNode.key).Nodup)
    (present : (nodes.find? fun node => node.key = h).isSome) :
    (nodes.filter fun node => node.key ≠ h).length + 1 = nodes.length := by
  induction nodes with
  | nil => cases present
  | cons node rest ih =>
      rw [List.map_cons, List.nodup_cons] at distinct
      rcases eq_or_ne node.key h with same | other
      · have kept : (rest.filter fun node => node.key ≠ h) = rest := by
          rw [List.filter_eq_self]
          intro m member
          have differs : m.key ≠ h := by
            intro same
            obtain rfl := same
            exact distinct.1 (List.mem_map.mpr ⟨m, member, same.symm⟩)
          simpa using differs
        rw [List.filter_cons_of_neg (by simp [same]), kept, List.length_cons]
      · rw [List.find?_cons_of_neg (by simp [other])] at present
        rw [List.filter_cons_of_pos (by simp [other]), List.length_cons, ih distinct.2 present,
          List.length_cons]

theorem perm_insert (absent : nodes.find? (fun node => node.key = h) = none) (v : β) :
    (nodes.insert h v).Perm (⟨h, v⟩ :: nodes) := by
  have others : ∀ node ∈ nodes, node.key ≠ h := by simpa using absent
  clear absent
  unfold Skiplist.insert
  induction nodes with
  | nil => exact List.Perm.refl _
  | cons node rest ih =>
      rw [Skiplist.insertWith]
      split
      · have later := ih fun m member => others m (List.mem_cons_of_mem node member)
        exact (later.cons node).trans (List.Perm.swap _ _ _)
      · rw [if_neg (others node List.mem_cons_self)]

theorem nodup_insert (distinct : (nodes.map SkiplistNode.key).Nodup)
    (absent : nodes.find? (fun node => node.key = h) = none) (v : β) :
    ((nodes.insert h v).map SkiplistNode.key).Nodup := by
  have others : ∀ node ∈ nodes, node.key ≠ h := by simpa using absent
  rw [((perm_insert absent v).map SkiplistNode.key).nodup_iff, List.map_cons, List.nodup_cons]
  refine ⟨?_, distinct⟩
  intro member
  obtain ⟨node, inside, same⟩ := List.mem_map.mp member
  exact others node inside same

theorem map_key_setValue (h d : CStr) (nodes : Skiplist CStr) :
    (setValue h d nodes).map SkiplistNode.key = nodes.map SkiplistNode.key := by
  rw [setValue, List.map_map]
  refine List.map_congr_left ?_
  intro node _
  rw [Function.comp_apply]
  split <;> rfl

end Nodes

/-! ## Loops -/

section Loops

variable {crash : List CStr → CStr → Bool} {num : Int} {β γ : Type}

/-- A loop that looks up one sub-key after another. -/
theorem run_answers {nodes : Skiplist β} (loop : List RStr → Script (List RStr))
    (call : RStr → Call γ)
    (word : γ → RStr) (value : Option (SkiplistNode β) → γ) (done : loop [] = pure [])
    (step : ∀ h rest, loop (h :: rest) =
      engine (call h) >>= fun b => loop rest >>= fun rv => pure (word b :: rv))
    (one : ∀ h, callWith crash t (call h) = match stringValueCStr h with
      | .error e => some (.error e, t)
      | .ok k => if crash (nodes.map SkiplistNode.key) k then none
        else some (.ok (value (nodes.find? fun node => node.key = k)), t)) (args : List RStr) :
    (loop args).run (callWith crash) t =
      (KeyEffect.answers crash nodes (fun found => word (value found)) args).map
      fun r => (r, t) := by
  induction args with
  | nil =>
      rw [done]
      rfl
  | cons h rest ih =>
      have asked := one h
      rw [step, KeyEffect.answers]
      cases subkey : stringValueCStr h with
      | error e =>
          rw [subkey] at asked
          exact run_call_error asked
      | ok h' =>
          simp only [subkey] at asked
          cases crashes : crash (nodes.map SkiplistNode.key) h' with
          | true =>
              rw [crashes] at asked
              simp only [crashes]
              exact run_call_none asked
          | false =>
              rw [crashes] at asked
              simp only [crashes, Bool.false_eq_true, if_false]
              refine (run_call_ok asked).trans ?_
              cases later : KeyEffect.answers crash nodes
                (fun found => word (value found)) rest with
              | none =>
                  rw [later] at ih
                  exact Prog.run_bind_none ih
              | some r =>
                  rw [later] at ih
                  cases r with
                  | ok rv => exact Prog.run_bind_ok ih
                  | error e => exact Prog.run_bind_error ih

theorem run_sIncludeLoop {nodes : Skiplist Unit} (working : n.Working k id t (.set nodes num))
    (args : List RStr) :
    (sIncludeLoop id args).run (callWith crash) t = (KeyEffect.answers crash nodes
      (fun found => lit "&" ++ lit (if found.isSome then "true" else "false")) args).map
        fun r => (r, t) := by
  obtain ⟨o, holds, data⟩ := working.holds
  refine run_answers (sIncludeLoop id) (.setInclude id)
    (fun found => lit "&" ++ lit (if found then "true" else "false")) (fun found => found.isSome)
    rfl (fun h rest => rfl) ?_ args
  intro h
  show t.setIncludeWith crash id h = _
  rw [setIncludeWith, onSet, holds.obj]
  cases stringValueCStr h <;> simp only [data]

/-- The word of MREF for a value. -/
def mRefWord : Option RStr → RStr
  | none => lit "-" ++ lit "nil"
  | some v => lit "+" ++ v

theorem run_mRefLoop {nodes : Skiplist CStr} (working : n.Working k id t (.hashmap nodes num))
    (args : List RStr) :
    (mRefLoop id args).run (callWith crash) t = (KeyEffect.answers crash nodes
      (fun found => match found with
        | none => lit "-" ++ lit "nil"
        | some node => lit "+" ++ node.value.toR) args).map fun r => (r, t) := by
  obtain ⟨o, holds, data⟩ := working.holds
  -- the word of the node is the word of its value
  have words : (fun found : Option (SkiplistNode CStr) => match found with
      | none => lit "-" ++ lit "nil"
      | some node => lit "+" ++ node.value.toR) =
      fun found => mRefWord (found.map fun node => node.value.toR) := by
    funext found
    cases found <;> rfl
  rw [words]
  refine run_answers (mRefLoop id) (.mapRef id) mRefWord
    (fun found : Option (SkiplistNode CStr) => found.map fun node => node.value.toR)
    rfl (fun h rest => rfl) ?_ args
  intro h
  show t.mapRefWith crash id h = _
  rw [mapRefWith, onMap, holds.obj]
  cases stringValueCStr h <;> simp only [data]

/-- A call that takes a sub-key out of a container, and says whether it was there. -/
def Takes (crash : List CStr → CStr → Bool) (n : Node) (k : CStr) (id : Nat)
    (of : Skiplist β → Container) (call : RStr → Call γ) (hit : γ → Bool) : Prop :=
  ∀ t nodes h, n.Working k id t (of nodes) → (nodes.map SkiplistNode.key).Nodup →
    match stringValueCStr h with
    | .error e => callWith crash t (call h) = some (.error e, t)
    | .ok h' =>
      if crash (nodes.map SkiplistNode.key) h' then callWith crash t (call h) = none
      else if (nodes.find? fun node => node.key = h').isSome then
        ∃ b t', callWith crash t (call h) = some (.ok b, t') ∧ hit b = true ∧
          n.Working k id t' (of (nodes.filter fun node => node.key ≠ h'))
      else ∃ b, callWith crash t (call h) = some (.ok b, t) ∧ hit b = false

/-- A loop that takes one sub-key after another out. -/
theorem run_removeAll {of : Skiplist β → Container} (loop : Nat → List RStr → Script Nat)
    {call : RStr → Call γ} {hit : γ → Bool} (done : ∀ rv, loop rv [] = pure rv)
    (step : ∀ rv h rest, loop rv (h :: rest) =
      engine (call h) >>= fun b => loop (if hit b then rv + 1 else rv) rest)
    (takes : Takes crash n k id of call hit) {nodes : Skiplist β}
    (working : n.Working k id t (of nodes)) (distinct : (nodes.map SkiplistNode.key).Nodup)
    (rv : Nat) (args : List RStr) :
    Prog.SameOutcome (fun t' left => n.Working k id t' (of left))
      ((loop rv args).run (callWith crash) t) (KeyEffect.removeAll crash nodes rv args) := by
  induction args generalizing t nodes rv with
  | nil =>
      rw [done]
      exact ⟨rfl, working⟩
  | cons h rest ih =>
      have taken := takes t nodes h working distinct
      rw [step, KeyEffect.removeAll]
      cases subkey : stringValueCStr h with
      | error e =>
          simp only [subkey] at taken
          rw [run_call_error taken]
          exact ⟨rfl, working⟩
      | ok h' =>
          simp only [subkey] at taken
          dsimp only
          split at taken
          · rename_i crashes
            rw [if_pos crashes, run_call_none taken]
            trivial
          · rename_i runs
            rw [if_neg runs]
            split at taken
            · rename_i present
              obtain ⟨b, t', called, found, working'⟩ := taken
              rw [if_pos present, run_call_ok called, found]
              exact ih working' (nodup_filter distinct _) (rv + 1)
            · rename_i absent
              obtain ⟨b, called, missing⟩ := taken
              rw [if_neg absent, run_call_ok called, missing]
              exact ih working distinct rv

theorem takes_setRemove (crash : List CStr → CStr → Bool) :
    Takes crash n k id Container.ofSet (.setRemove id) fun removed => removed := by
  intro t nodes h working distinct
  obtain ⟨o, holds, data⟩ := working.holds
  have called : callWith crash t (.setRemove id h) = t.setRemoveWith crash id h := rfl
  rw [setRemoveWith, onSet, holds.obj] at called
  simp only [data, Container.ofSet] at called
  cases subkey : stringValueCStr h with
  | error e =>
      rw [subkey] at called
      exact called
  | ok h' =>
      simp only [subkey] at called
      dsimp only
      split
      · rename_i crashes
        rw [if_pos crashes] at called
        exact called
      · rename_i runs
        rw [if_neg runs] at called
        cases found : nodes.find? (fun node => node.key = h') with
        | none =>
            rw [found] at called
            exact ⟨false, called, rfl⟩
        | some node =>
            rw [found] at called
            have shorter := length_filter (h := h') distinct (by rw [found]; rfl)
            rw [← shorter, int32_pred] at called
            exact ⟨true, _, called, rfl, working.put holds (.ofSet _) _ (by simp)⟩

theorem takes_mapDelete (crash : List CStr → CStr → Bool) :
    Takes crash n k id Container.ofMap (.mapDelete id) fun removed => removed.isSome := by
  intro t nodes h working distinct
  obtain ⟨o, holds, data⟩ := working.holds
  have called : callWith crash t (.mapDelete id h) = t.mapDeleteWith crash id h := rfl
  rw [mapDeleteWith, onMap, holds.obj] at called
  simp only [data, Container.ofMap] at called
  cases subkey : stringValueCStr h with
  | error e =>
      rw [subkey] at called
      exact called
  | ok h' =>
      simp only [subkey] at called
      dsimp only
      split
      · rename_i crashes
        rw [if_pos crashes] at called
        exact called
      · rename_i runs
        rw [if_neg runs] at called
        cases found : nodes.find? (fun node => node.key = h') with
        | none =>
            rw [found] at called
            exact ⟨none, called, rfl⟩
        | some node =>
            rw [found] at called
            have shorter := length_filter (h := h') distinct (by rw [found]; rfl)
            rw [← shorter, int32_pred] at called
            exact ⟨some node.value.toR, _, called, rfl, working.put holds (.ofMap _) _ (by simp)⟩

/-- The loop of SADD. -/
theorem run_sAddLoop {nodes : Skiplist Unit} (working : n.Working k id t (.ofSet nodes)) (rv : Nat)
    (args : List RStr) :
    Prog.SameOutcome (fun t' left => n.Working k id t' (.ofSet left))
      ((sAddLoop id rv args).run (callWith crash) t) (KeyEffect.addAll crash nodes rv args) := by
  induction args generalizing t nodes rv with
  | nil => exact ⟨rfl, working⟩
  | cons h rest ih =>
      obtain ⟨o, holds, data⟩ := working.holds
      have called : callWith crash t (.setAdd id h) = t.setAddWith crash id h := rfl
      rw [setAddWith, onSet, holds.obj] at called
      simp only [data, Container.ofSet] at called
      rw [sAddLoop, KeyEffect.addAll]
      cases subkey : stringValueCStr h with
      | error e =>
          rw [subkey] at called
          rw [run_call_error called]
          exact ⟨rfl, working⟩
      | ok h' =>
          simp only [subkey] at called
          dsimp only
          split
          · rename_i crashes
            rw [if_pos crashes] at called
            rw [run_call_none called]
            trivial
          · rename_i runs
            rw [if_neg runs] at called
            cases found : nodes.find? (fun node => node.key = h') with
            | some node =>
                rw [found] at called
                rw [run_call_ok called]
                exact ih working rv
            | none =>
                rw [found] at called
                have longer := (perm_insert found ()).length_eq
                rw [List.length_cons] at longer
                rw [int32_succ, ← longer] at called
                rw [run_call_ok called]
                exact ih (working.put holds (.ofSet _) _ (by simp)) (rv + 1)

end Loops

/-! ## Commands -/

/-- The script has the effect on the key. -/
def HasEffect (crash : List CStr → CStr → Bool) (n : Node) (k : CStr) (p : Script Reply)
    (e : KeyEffect) : Prop :=
  Prog.SameOutcome (n.Leaves k) (p.run (callWith crash) n) e

section Commands

variable {crash : List CStr → CStr → Bool}

theorem Node.Wf.has_replies (wf : n.Wf) (k : CStr) (r : Reply) :
    HasEffect crash n k (pure r) (KeyEffect.replies (n.content k) r) :=
  ⟨rfl, wf.leaves k⟩

theorem hasEffect_of_run {p : Script Reply} {r : Except Raise Reply} {a : After}
    (ran : p.run (callWith crash) n = some (r, t)) (leaves : n.Leaves k t a) :
    HasEffect crash n k p (some (r, a)) := by
  rw [HasEffect, ran]
  exact ⟨rfl, leaves⟩

theorem hasEffect_here {query : RStr} {here : Script Reply} {e : KeyEffect}
    (owned : n.shard.includes k.toR = .ok true) (has : HasEffect crash n k here e) :
    HasEffect crash n k (unlessLocal k.toR query here) e := by
  rw [HasEffect, run_here owned]
  exact has

section Lookup

variable (wf : n.Wf) (exact : Stored.Exact (n.content k)) {rest : Val → Script Reply}

include wf exact

/-- Look a set up. -/
theorem has_lookup_set {e : Skiplist Unit → KeyEffect} (missing : rest .nil = pure (text "-nil"))
    (string : ∀ s, rest (.str s) = pure (text "-nil"))
    (other : ∀ kind id, kind ≠ .set → rest (.obj kind id) = pure (text "-nil"))
    (hit : ∀ id nodes, n.content k = some (.container (.ofSet nodes)) →
      n.Working k id n (.ofSet nodes) → (nodes.map SkiplistNode.key).Nodup →
      HasEffect crash n k (rest (.obj .set id)) (e nodes)) :
    HasEffect crash n k (engine (.dbRef k.toR) >>= rest) (match Stored.asSet (n.content k) with
      | some nodes => e nodes
      | none => KeyEffect.replies (n.content k) (text "-nil")) := by
  rcases wf.run_lookup k .set missing string other with
    ⟨id, c, stored, isSet, working, ran⟩ | ⟨not, ran⟩
  · obtain ⟨nodes, num, rfl⟩ := exists_set isSet
    obtain ⟨distinct, rfl⟩ := exact _ stored
    rw [HasEffect, ran, stored]
    exact hit id nodes stored working distinct
  · have notSet : Stored.asSet (n.content k) = none := by
      unfold Stored.asSet
      split
      · rename_i nodes num stored
        exact absurd rfl (not _ stored)
      · rfl
    rw [notSet]
    exact hasEffect_of_run ran (wf.leaves k)

/-- Look a hashmap up. -/
theorem has_lookup_map {e : Skiplist CStr → KeyEffect} (missing : rest .nil = pure (text "-nil"))
    (string : ∀ s, rest (.str s) = pure (text "-nil"))
    (other : ∀ kind id, kind ≠ .hashmap → rest (.obj kind id) = pure (text "-nil"))
    (hit : ∀ id nodes, n.content k = some (.container (.ofMap nodes)) →
      n.Working k id n (.ofMap nodes) → (nodes.map SkiplistNode.key).Nodup →
      HasEffect crash n k (rest (.obj .hashmap id)) (e nodes)) :
    HasEffect crash n k (engine (.dbRef k.toR) >>= rest) (match Stored.asMap (n.content k) with
      | some nodes => e nodes
      | none => KeyEffect.replies (n.content k) (text "-nil")) := by
  rcases wf.run_lookup k .hashmap missing string other with
    ⟨id, c, stored, isMap, working, ran⟩ | ⟨not, ran⟩
  · obtain ⟨nodes, num, rfl⟩ := exists_hashmap isMap
    obtain ⟨distinct, rfl⟩ := exact _ stored
    rw [HasEffect, ran, stored]
    exact hit id nodes stored working distinct
  · have notMap : Stored.asMap (n.content k) = none := by
      unfold Stored.asMap
      split
      · rename_i nodes num stored
        exact absurd rfl (not _ stored)
      · rfl
    rw [notMap]
    exact hasEffect_of_run ran (wf.leaves k)

omit exact in
/-- Look a list up. -/
theorem has_lookup_list {e : List CStr → KeyEffect} (missing : rest .nil = pure (text "-nil"))
    (string : ∀ s, rest (.str s) = pure (text "-nil"))
    (other : ∀ kind id, kind ≠ .list → rest (.obj kind id) = pure (text "-nil"))
    (hit : ∀ id elems, n.content k = some (.container (.list elems)) →
      n.Working k id n (.list elems) → HasEffect crash n k (rest (.obj .list id)) (e elems)) :
    HasEffect crash n k (engine (.dbRef k.toR) >>= rest) (match Stored.asList (n.content k) with
      | some elems => e elems
      | none => KeyEffect.replies (n.content k) (text "-nil")) := by
  rcases wf.run_lookup k .list missing string other with
    ⟨id, c, stored, isList, working, ran⟩ | ⟨not, ran⟩
  · obtain ⟨elems, rfl⟩ := exists_list isList
    rw [HasEffect, ran, stored]
    exact hit id elems stored working
  · have notList : Stored.asList (n.content k) = none := by
      unfold Stored.asList
      split
      · rename_i elems stored
        exact absurd rfl (not _ stored)
      · rfl
    rw [notList]
    exact hasEffect_of_run ran (wf.leaves k)

end Lookup

/-! ## Sets and hashmaps -/

/-- The lines of a reading loop. -/
theorem has_answered (wf : n.Wf) (k : CStr) {loop : Script (List RStr)}
    {x : Option (Except Raise (List RStr))}
    (ran : loop.run (callWith crash) n = x.map fun r => (r, n)) :
    HasEffect crash n k (loop >>= fun rv => pure (.lines rv))
      (KeyEffect.answered (n.content k) x) := by
  rw [HasEffect]
  cases x with
  | none =>
      rw [Prog.run_bind_none ran]
      trivial
  | some r =>
      cases r with
      | ok rv =>
          rw [Prog.run_bind_ok ran]
          exact ⟨rfl, wf.leaves k⟩
      | error e =>
          rw [Prog.run_bind_error ran]
          exact ⟨rfl, wf.leaves k⟩

/-- `unless container.size > 0`: a container that reports no elements leaves the
database. -/
theorem Node.Working.run_unlessSize (working : n.Working k id t c) {size : Int}
    (reported : size = c.reported) (reply : Reply) :
    Prog.SameOutcome (n.Leaves k) ((if ¬ 0 < size then
      (engine (.dbDelete k.toR) >>= fun _ => exec k.toR false >>= fun _ => pure reply)
      else pure reply : Script Reply).run (callWith crash) t) (KeyEffect.leaves c reply) := by
  rw [KeyEffect.leaves, ← reported]
  by_cases kept : 0 < size
  · rw [if_neg (not_not.mpr kept), if_pos kept]
    exact ⟨rfl, working.leaves⟩
  · obtain ⟨t', ran, leaves⟩ := working.leaves.run_delete crash reply
    rw [if_pos kept, if_neg kept, ran]
    exact ⟨rfl, leaves⟩

/-- A removing loop, the size, and the end of SDEL and MDEL. -/
theorem has_removed {β : Type} {of : Skiplist β → Container} {loop : Script Nat} {size : Call Int}
    (sized : ∀ t left, n.Working k id t (of left) →
      callWith crash t size = some (.ok (of left).reported, t))
        {x : Option (Except Raise Nat × Skiplist β)}
    (looped : Prog.SameOutcome (fun t left => n.Working k id t (of left))
      (loop.run (callWith crash) n) x) :
    HasEffect crash n k (loop >>= fun rv => engine size >>= fun size => if ¬ 0 < size then
      (engine (.dbDelete k.toR) >>= fun _ => exec k.toR false >>= fun _ =>
        pure (.text (lit "%" ++ natToS rv))) else pure (.text (lit "%" ++ natToS rv)))
      (KeyEffect.removed of x) := by
  rw [HasEffect]
  cases ran : loop.run (callWith crash) n with
  | none =>
      rw [ran] at looped
      cases x with
      | none =>
          rw [Prog.run_bind_none ran]
          trivial
      | some out => exact looped.elim
  | some out =>
      obtain ⟨r, t⟩ := out
      rw [ran] at looped
      cases x with
      | none => exact looped.elim
      | some out' =>
          obtain ⟨r', left⟩ := out'
          obtain ⟨rfl, working⟩ := looped
          cases r with
          | error e =>
              rw [Prog.run_bind_error ran]
              exact ⟨rfl, working.leaves⟩
          | ok rv =>
              rw [Prog.run_bind_ok ran, run_call_ok (sized t left working)]
              exact working.run_unlessSize rfl _

theorem ensured_kind (kind : Kind) (v : Option Stored) : (ensured kind v).kind = kind := by
  unfold ensured
  split
  · split
    · assumption
    · cases kind <;> rfl
  · cases kind <;> rfl

/-- The containers that `ensure` leaves. -/
theorem ensured_list (v : Option Stored) : ensured .list v = .list ((Stored.asList v).getD []) := by
  cases v with
  | none => rfl
  | some v =>
      cases v with
      | string s => rfl
      | container c => cases c <;> rfl

theorem ensured_set {v : Option Stored} (exact : Stored.Exact v) :
    ensured .set v = .ofSet ((Stored.asSet v).getD []) := by
  cases v with
  | none => rfl
  | some v =>
      cases v with
      | string s => rfl
      | container c =>
          cases c with
          | set nodes num =>
              obtain ⟨_, rfl⟩ := exact _ rfl
              rfl
          | _ => rfl

theorem ensured_map {v : Option Stored} (exact : Stored.Exact v) :
    ensured .hashmap v = .ofMap ((Stored.asMap v).getD []) := by
  cases v with
  | none => rfl
  | some v =>
      cases v with
      | string s => rfl
      | container c =>
          cases c with
          | hashmap nodes num =>
              obtain ⟨_, rfl⟩ := exact _ rfl
              rfl
          | _ => rfl

/-- Make sure of the class, then work on the object. -/
theorem has_ensure (wf : n.Wf) (kind : Kind) {rest : Val → Script Reply} {e : KeyEffect}
    (work : ∀ t id, n.Working k id t (ensured kind (n.content k)) →
      Prog.SameOutcome (n.Leaves k) ((rest (.obj kind id)).run (callWith crash) t) e) :
    HasEffect crash n k (ensure k.toR kind >>= fun _ => engine (.dbRef k.toR) >>= rest) e := by
  obtain ⟨t, id, ran, working⟩ := wf.run_ensure crash k kind fun _ =>
    engine (.dbRef k.toR) >>= rest
  rw [HasEffect, ran, working.run_dbRef, ensured_kind]
  exact work t id working

/-- The end of SADD. -/
theorem has_added (owned : n.shard.includes k.toR = .ok true) {loop : Script Nat}
    {x : Option (Except Raise Nat × Skiplist Unit)}
    (looped : Prog.SameOutcome (fun t' left => n.Working k id t' (.ofSet left))
      (loop.run (callWith crash) t) x) :
    Prog.SameOutcome (n.Leaves k) ((loop >>= fun rv => exec k.toR true >>= fun _ =>
      pure (.text (lit "%" ++ natToS rv)) : Script Reply).run (callWith crash) t)
      (KeyEffect.added x) := by
  cases ran : loop.run (callWith crash) t with
  | none =>
      rw [ran] at looped
      cases x with
      | none =>
          rw [Prog.run_bind_none ran]
          trivial
      | some out => exact looped.elim
  | some out =>
      obtain ⟨r, t'⟩ := out
      rw [ran] at looped
      cases x with
      | none => exact looped.elim
      | some out' =>
          obtain ⟨r', left⟩ := out'
          obtain ⟨rfl, working⟩ := looped
          cases r with
          | error e =>
              rw [Prog.run_bind_error ran]
              exact ⟨rfl, working.leaves⟩
          | ok rv =>
              obtain ⟨t'', tracked, leaves⟩ := working.leaves.run_exec_add crash owned
                (Reply.text (lit "%" ++ natToS rv))
              rw [Prog.run_bind_ok ran, tracked]
              exact ⟨rfl, leaves⟩

variable (wf : n.Wf) (exact : Stored.Exact (n.content k))
  (owned : n.shard.includes k.toR = .ok true)

include wf owned

theorem has_clear (kind : Kind) {rest : Val → Script Reply} {query : RStr}
    (missing : rest .nil = pure (text "-nil")) (string : ∀ s, rest (.str s) = pure (text "-nil"))
    (other : ∀ kind' id, kind' ≠ kind → rest (.obj kind' id) = pure (text "-nil"))
    (hit : ∀ id, rest (.obj kind id) = (do
      engine (.dbDelete k.toR)
      exec k.toR false
      pure (text "-OK"))) :
    HasEffect crash n k (unlessLocal k.toR query (engine (.dbRef k.toR) >>= rest))
      (KeyEffect.clear kind (n.content k)) := by
  refine hasEffect_here owned ?_
  rcases wf.run_lookup k kind missing string other with
    ⟨id, c, stored, isKind, working, ran⟩ | ⟨not, ran⟩
  · obtain ⟨t, deleted, leaves⟩ := (wf.leaves k).run_delete crash (text "-OK")
    rw [stored, KeyEffect.clear, if_pos isKind]
    exact hasEffect_of_run (ran.trans (by rw [hit]; exact deleted)) leaves
  · have same : KeyEffect.clear kind (n.content k) =
      KeyEffect.replies (n.content k) (text "-nil") := by
      unfold KeyEffect.clear
      split
      · rename_i c stored
        rw [if_neg (not c stored)]
      · rfl
    rw [same]
    exact hasEffect_of_run ran (wf.leaves k)

include exact

theorem has_sInclude (args : List RStr) :
    HasEffect crash n k (Command.sInclude (k.toR :: args))
      (KeyEffect.sInclude crash (n.content k) args) := by
  cases args with
  | nil => exact wf.has_replies k _
  | cons hkey rest =>
      refine hasEffect_here owned (has_lookup_set wf exact rfl (fun _ => rfl) ?_ ?_)
      · intro kind id other
        cases kind <;> first | rfl | exact absurd rfl other
      · intro id nodes stored working distinct
        exact has_answered wf k (run_sIncludeLoop working (hkey :: rest))

theorem has_sDel (args : List RStr) :
    HasEffect crash n k (Command.sDel (k.toR :: args))
      (KeyEffect.sDel crash (n.content k) args) := by
  cases args with
  | nil => exact wf.has_replies k _
  | cons hkey rest =>
      refine hasEffect_here owned (has_lookup_set wf exact rfl (fun _ => rfl) ?_ ?_)
      · intro kind id other
        cases kind <;> first | rfl | exact absurd rfl other
      · intro id nodes stored working distinct
        have looped := run_removeAll (sDelLoop id) (fun _ => rfl) (fun _ _ _ => rfl)
          (takes_setRemove crash) working distinct 0 (hkey :: rest)
        refine has_removed ?_ looped
        intro t left working'
        obtain ⟨o, holds, data⟩ := working'.holds
        show t.rbSetSize id = _
        rw [rbSetSize, onSet, holds.obj]
        simp only [data, Container.ofSet, Container.reported]

theorem has_mDel (args : List RStr) :
    HasEffect crash n k (Command.mDel (k.toR :: args))
      (KeyEffect.mDel crash (n.content k) args) := by
  refine hasEffect_here owned (has_lookup_map wf exact rfl (fun _ => rfl) ?_ ?_)
  · intro kind id other
    cases kind <;> first | rfl | exact absurd rfl other
  · intro id nodes stored working distinct
    have looped := run_removeAll (mDelLoop id) (fun _ => rfl) (fun _ _ _ => rfl)
      (takes_mapDelete crash) working distinct 0 args
    refine has_removed ?_ looped
    intro t left working'
    obtain ⟨o, holds, data⟩ := working'.holds
    show t.rbHashmapSize id = _
    rw [rbHashmapSize, onMap, holds.obj]
    simp only [data, Container.ofMap, Container.reported]

theorem has_mRef (args : List RStr) :
    HasEffect crash n k (Command.mRef (k.toR :: args))
      (KeyEffect.mRef crash (n.content k) args) := by
  refine hasEffect_here owned (has_lookup_map wf exact rfl (fun _ => rfl) ?_ ?_)
  · intro kind id other
    cases kind <;> first | rfl | exact absurd rfl other
  · intro id nodes stored working distinct
    exact has_answered wf k (run_mRefLoop working args)

theorem has_mSize (args : List RStr) :
    HasEffect crash n k (Command.mSize (k.toR :: args)) (KeyEffect.mSize (n.content k)) := by
  refine hasEffect_here owned (has_lookup_map wf exact rfl (fun _ => rfl) ?_ ?_)
  · intro kind id other
    cases kind <;> first | rfl | exact absurd rfl other
  · intro id nodes stored working distinct
    obtain ⟨o, holds, data⟩ := working.holds
    have sized : callWith crash n (.mapSize id) = some (.ok (int32 nodes.length), n) := by
      show n.rbHashmapSize id = _
      rw [rbHashmapSize, onMap, holds.obj]
      simp only [data, Container.ofMap]
    exact hasEffect_of_run ((run_call_ok sized).trans rfl) (wf.leaves k)

theorem has_sAdd (args : List RStr) :
    HasEffect crash n k (Command.sAdd (k.toR :: args))
      (KeyEffect.sAdd crash (n.content k) args) := by
  cases args with
  | nil => exact wf.has_replies k _
  | cons hkey rest =>
      refine hasEffect_here owned (has_ensure wf .set ?_)
      intro t id working
      rw [ensured_set exact] at working
      exact has_added owned (run_sAddLoop working 0 (hkey :: rest))

theorem has_mAdd (args : List RStr) :
    HasEffect crash n k (Command.mAdd (k.toR :: args))
      (KeyEffect.mAdd crash (n.content k) args) := by
  match args with
  | [] => exact wf.has_replies k _
  | [_] => exact wf.has_replies k _
  | hkey :: data :: _ =>
      refine hasEffect_here owned (has_ensure wf .hashmap ?_)
      intro t id working
      rw [ensured_map exact] at working
      rw [KeyEffect.mAdd, storeAt]
      generalize (Stored.asMap (n.content k)).getD [] = nodes at working ⊢
      obtain ⟨o, holds, isMap⟩ := working.holds
      have called : callWith crash t (.mapStore id hkey data) =
        t.mapStoreWith crash id hkey data := rfl
      rw [mapStoreWith, onMap, holds.obj] at called
      simp only [isMap, Container.ofMap] at called
      cases subkey : stringValueCStr hkey with
      | error e =>
          rw [subkey] at called
          rw [run_call_error called]
          exact ⟨rfl, working.leaves⟩
      | ok h =>
          cases value : stringValueCStr data with
          | error e =>
              simp only [subkey, value] at called
              rw [run_call_error called]
              exact ⟨rfl, working.leaves⟩
          | ok d =>
              simp only [subkey, value] at called
              dsimp only
              split
              · rename_i crashes
                rw [if_pos crashes] at called
                rw [run_call_none called]
                trivial
              · rename_i runs
                rw [if_neg runs] at called
                -- the map with the pair, then the key is tracked
                obtain ⟨t', stored, working'⟩ : ∃ t',
                    callWith crash t (.mapStore id hkey data) = some (.ok (), t') ∧
                      n.Working k id t' (.ofMap (KeyEffect.putMap nodes h d)) := by
                  rw [KeyEffect.putMap]
                  cases found : nodes.find? (fun node => node.key = h) with
                  | some node =>
                      rw [found] at called
                      have size : nodes.length = (setValue h d nodes).length := by
                        rw [setValue, List.length_map]
                      rw [size] at called
                      exact ⟨_, called, working.put holds (.ofMap _) _ (by simp)⟩
                  | none =>
                      rw [found] at called
                      have longer := (perm_insert found d).length_eq
                      rw [List.length_cons] at longer
                      rw [int32_succ, ← longer] at called
                      exact ⟨_, called, working.put holds (.ofMap _) _ (by simp)⟩
                obtain ⟨t'', tracked, leaves⟩ :=
                  working'.leaves.run_exec_add crash owned (text "-OK")
                rw [run_call_ok stored, tracked]
                exact ⟨rfl, leaves⟩

omit exact

theorem has_lPush (args : List RStr) :
    HasEffect crash n k (Command.lPush (k.toR :: args)) (KeyEffect.lPush (n.content k) args) := by
  match args with
  | [] => exact wf.has_replies k _
  | data :: _ =>
      refine hasEffect_here owned (has_ensure wf .list ?_)
      intro t id working
      rw [ensured_list] at working
      rw [KeyEffect.lPush]
      generalize (Stored.asList (n.content k)).getD [] = elems at working ⊢
      obtain ⟨o, holds, isList⟩ := working.holds
      have called : callWith crash t (.listPush id data) = some (t.rbListPush id data) := rfl
      rw [rbListPush, onList, holds.obj] at called
      simp only [isList] at called
      cases value : stringValueCStr data with
      | error e =>
          rw [value] at called
          rw [run_call_error called]
          exact ⟨rfl, working.leaves⟩
      | ok d =>
          rw [value] at called
          obtain ⟨t', tracked, leaves⟩ := (working.putFirst holds (.list (elems ++ [d]))
            (fun key => [⟨key, none, some d, .listAdd⟩]) (by simp)).leaves.run_exec_add crash
            owned (text "-OK")
          rw [run_call_ok called, tracked]
          exact ⟨rfl, leaves⟩

end Commands

/-! ## Lists -/

section Lists

variable {crash : List CStr → CStr → Bool} {α : Type} {elems : List CStr}

variable (crash) in
theorem Node.Working.call_listLength (working : n.Working k id t (.list elems)) :
    callWith crash t (.listLength id) = some (.ok (int32 elems.length), t) := by
  obtain ⟨o, holds, isList⟩ := working.holds
  show some (t.rbListLength id) = _
  rw [rbListLength, onList, holds.obj]
  simp only [isList]

theorem Node.Working.run_fromEnd (working : n.Working k id t (.list elems)) (bound : Int)
    (rest : Int → Script α) : (fromEnd id bound >>= rest).run (callWith crash) t =
      (rest (KeyEffect.counted elems bound)).run (callWith crash) t := by
  rw [fromEnd, KeyEffect.counted]
  split
  · rfl
  · exact run_call_ok (working.call_listLength crash)

/-- A list that reports no elements leaves the database, then the reply. -/
theorem Node.Working.run_lPopEmpty (working : n.Working k id t (.list elems)) (reply : Reply) :
    Prog.SameOutcome (n.Leaves k)
      ((lPopEmpty k.toR id >>= fun _ => pure reply : Script Reply).run (callWith crash) t)
      (KeyEffect.leaves (.list elems) reply) := by
  have len := working.call_listLength crash
  rw [KeyEffect.leaves, Container.reported]
  generalize int32 elems.length = size at len
  have asked : (lPopEmpty k.toR id).run (callWith crash) t =
      (if ¬ 0 < size then
        engine (.listLength id) >>= fun len => if ¬ 0 < len then
          engine (.dbDelete k.toR) >>= fun _ => exec k.toR false
        else exec k.toR false
      else pure ()).run (callWith crash) t := run_call_ok len
  by_cases kept : 0 < size
  · rw [if_neg (not_not.mpr kept)] at asked
    rw [if_pos kept, Prog.run_bind_ok asked]
    exact ⟨rfl, working.leaves⟩
  · obtain ⟨t', deleted, leaves⟩ := working.leaves.run_delete crash ()
    rw [if_pos kept, run_call_ok len, if_pos kept] at asked
    rw [if_neg kept, Prog.run_bind_ok (asked.trans deleted)]
    exact ⟨rfl, leaves⟩

variable (crash) in
/-- One pop. -/
theorem Node.Working.run_listPop (working : n.Working k id t (.list elems)) {i : Int}
    (inRange : num2int i = .ok i) : match listRef elems i with
      | none => callWith crash t (.listPop id i) = some (.ok none, t)
      | some (pos, data) => ∃ t', callWith crash t (.listPop id i) =
          some (.ok (some data.toR), t') ∧
          n.Working k id t' (.list (elems.eraseIdx pos)) := by
  obtain ⟨o, holds, isList⟩ := working.holds
  have called : callWith crash t (.listPop id i) = some (t.rbListPop id i) := rfl
  rw [rbListPop, onList, holds.obj] at called
  simp only [isList, inRange] at called
  split
  · rename_i missing
    rw [missing] at called
    exact called
  · rename_i pos data found
    rw [found] at called
    exact ⟨_, called, working.putFirst holds (.list (elems.eraseIdx pos)) _ (by simp)⟩

theorem Node.Working.listPop_error (working : n.Working k id t (.list elems)) {i : Int} {e : Raise}
    (outside : num2int i = .error e) : callWith crash t (.listPop id i) = some (.error e, t) := by
  obtain ⟨o, holds, isList⟩ := working.holds
  show some (t.rbListPop id i) = _
  rw [rbListPop, onList, holds.obj]
  simp only [isList, outside]

variable (crash) in
/-- The pops of a range. -/
theorem Node.Working.run_lPopLoop (working : n.Working k id t (.list elems)) {i : Int}
    (inRange : num2int i = .ok i) (count : Nat) :
    ∃ t', (lPopLoop id i count).run (callWith crash) t =
        some (.ok (KeyEffect.popRange elems i count).1, t') ∧
      n.Working k id t' (.list (KeyEffect.popRange elems i count).2) := by
  induction count generalizing t elems with
  | zero => exact ⟨t, rfl, working⟩
  | succ count ih =>
      have popped := working.run_listPop crash inRange
      rw [lPopLoop, KeyEffect.popRange]
      cases found : listRef elems i with
      | none =>
          rw [found] at popped
          obtain ⟨t', looped, working'⟩ := ih working
          exact ⟨t', (run_call_ok popped).trans (Prog.run_bind_ok looped), working'⟩
      | some hit =>
          rw [found] at popped
          obtain ⟨t₁, called, working₁⟩ := popped
          obtain ⟨t', looped, working'⟩ := ih working₁
          exact ⟨t', (run_call_ok called).trans (Prog.run_bind_ok looped), working'⟩

variable (crash) in
theorem Node.Working.call_listRef (working : n.Working k id t (.list elems)) (i : Int) :
    callWith crash t (.listRef id i) =
      some ((num2int i).map fun i => (listRef elems i).map fun found => found.2.toR, t) := by
  obtain ⟨o, holds, isList⟩ := working.holds
  show some (t.rbListRef id i) = _
  rw [rbListRef, onList, holds.obj]
  simp only [isList]
  cases num2int i <;> rfl

variable (crash) in
/-- The entries of a range. -/
theorem Node.Working.run_lRefLoop (working : n.Working k id t (.list elems))
    (i : Int) (count : Nat) :
    (lRefLoop id i count).run (callWith crash) t = some (KeyEffect.refRange elems i count, t) := by
  induction count generalizing i with
  | zero => rfl
  | succ count ih =>
      have called := working.call_listRef crash i
      have later := ih (i + 1)
      rw [lRefLoop, KeyEffect.refRange]
      cases inRange : num2int i with
      | error e =>
          rw [inRange] at called
          exact run_call_error called
      | ok j =>
          rw [inRange] at called
          refine (run_call_ok called).trans ?_
          cases rest : KeyEffect.refRange elems (i + 1) count with
          | error e =>
              rw [rest] at later
              exact Prog.run_bind_error later
          | ok rv =>
              rw [rest] at later
              refine (Prog.run_bind_ok later).trans ?_
              dsimp only [Except.map]
              cases listRef elems j <;> rfl

section Commands

variable (wf : n.Wf) (owned : n.shard.includes k.toR = .ok true)

include wf owned

theorem has_lSize (args : List RStr) :
    HasEffect crash n k (Command.lSize (k.toR :: args)) (KeyEffect.lSize (n.content k)) := by
  refine hasEffect_here owned (has_lookup_list wf rfl (fun _ => rfl) ?_ ?_)
  · intro kind id other
    cases kind <;> first | rfl | exact absurd rfl other
  · intro id elems stored working
    exact hasEffect_of_run ((run_call_ok (working.call_listLength crash)).trans rfl) (wf.leaves k)

omit owned

theorem has_lRefIndex (i : Int) :
    HasEffect crash n k (lRefIndex k.toR i) (KeyEffect.lRefIndex (n.content k) i) := by
  refine has_lookup_list wf rfl (fun _ => rfl) ?_ ?_
  · intro kind id other
    cases kind <;> first | rfl | exact absurd rfl other
  · intro id elems stored working
    have called := working.call_listRef crash i
    cases inRange : num2int i with
    | error e =>
        rw [inRange] at called
        exact hasEffect_of_run (run_call_error called) (wf.leaves k)
    | ok j =>
        rw [inRange] at called
        dsimp only [Except.map] at called ⊢
        cases found : listRef elems j with
        | none =>
            rw [found] at called
            exact hasEffect_of_run ((run_call_ok called).trans rfl) (wf.leaves k)
        | some hit =>
            rw [found] at called
            exact hasEffect_of_run ((run_call_ok called).trans rfl) (wf.leaves k)

theorem has_lRefRange (idx : RStr) (low high : Int) :
    HasEffect crash n k (lRefRange k.toR idx low high)
      (KeyEffect.lRefRange (n.content k) idx low high) := by
  refine has_lookup_list wf rfl (fun _ => rfl) ?_ ?_
  · intro kind id other
    cases kind <;> first | rfl | exact absurd rfl other
  · intro id elems stored working
    rw [HasEffect]
    dsimp only
    rw [working.run_fromEnd, working.run_fromEnd]
    split
    · have looped := working.run_lRefLoop crash (KeyEffect.counted elems low)
        (KeyEffect.counted elems high - KeyEffect.counted elems low + 1).toNat
      split
      · rename_i raised
        rw [raised] at looped
        rw [Prog.run_bind_error looped]
        exact ⟨rfl, wf.leaves k⟩
      · rename_i rv answered
        rw [answered] at looped
        rw [Prog.run_bind_ok looped]
        exact ⟨rfl, wf.leaves k⟩
    · exact ⟨rfl, wf.leaves k⟩

theorem has_lPopIndex (i : Int) :
    HasEffect crash n k (lPopIndex k.toR i) (KeyEffect.lPopIndex (n.content k) i) := by
  refine has_lookup_list wf rfl (fun _ => rfl) ?_ ?_
  · intro kind id other
    cases kind <;> first | rfl | exact absurd rfl other
  · intro id elems stored working
    rcases num2int_cases i with inRange | outside
    · rw [inRange]
      dsimp only
      have popped := working.run_listPop crash inRange
      cases found : listRef elems i with
      | none =>
          rw [found] at popped
          exact hasEffect_of_run ((run_call_ok popped).trans rfl) (wf.leaves k)
      | some hit =>
          rw [found] at popped
          obtain ⟨t, called, working'⟩ := popped
          rw [HasEffect, run_call_ok called]
          exact working'.run_lPopEmpty _
    · rw [outside]
      exact hasEffect_of_run (run_call_error (working.listPop_error outside)) (wf.leaves k)

theorem has_lPopRange (idx : RStr) (low high : Int) :
    HasEffect crash n k (lPopRange k.toR idx low high)
      (KeyEffect.lPopRange (n.content k) idx low high) := by
  refine has_lookup_list wf rfl (fun _ => rfl) ?_ ?_
  · intro kind id other
    cases kind <;> first | rfl | exact absurd rfl other
  · intro id elems stored working
    rw [HasEffect]
    dsimp only
    rw [working.run_fromEnd, working.run_fromEnd]
    split
    · rename_i range
      rcases num2int_cases (KeyEffect.counted elems low) with inRange | outside
      · obtain ⟨t, looped, working'⟩ := working.run_lPopLoop crash inRange
          (KeyEffect.counted elems high - KeyEffect.counted elems low + 1).toNat
        rw [inRange, Prog.run_bind_ok looped]
        exact working'.run_lPopEmpty _
      · -- the range is not empty, and its first pop raises
        obtain ⟨count, pops⟩ : ∃ count,
            (KeyEffect.counted elems high - KeyEffect.counted elems low + 1).toNat = count + 1 :=
          ⟨(KeyEffect.counted elems high - KeyEffect.counted elems low).toNat, by omega⟩
        have first : (lPopLoop id (KeyEffect.counted elems low) (count + 1)).run
          (callWith crash) n =
            some (.error .rangeError, n) := run_call_error (working.listPop_error outside)
        rw [outside, pops, Prog.run_bind_error first]
        exact ⟨rfl, wf.leaves k⟩
    · exact ⟨rfl, wf.leaves k⟩

include owned

theorem has_lRef (args : List RStr) :
    HasEffect crash n k (Command.lRef (k.toR :: args)) (KeyEffect.lRef (n.content k) args) := by
  match args with
  | [] => exact wf.has_replies k _
  | idx :: _ =>
      refine hasEffect_here owned ?_
      rw [KeyEffect.lRef]
      by_cases number : isI idx = true
      · rw [if_pos number, if_pos number]
        exact has_lRefIndex wf (toI idx)
      · rw [if_neg number, if_neg number]
        cases range : rangeOf idx with
        | error e => exact ⟨rfl, wf.leaves k⟩
        | ok bounds =>
            cases bounds with
            | none => exact wf.has_replies k _
            | some bounds => exact has_lRefRange wf idx bounds.1 bounds.2

theorem has_lPop (args : List RStr) :
    HasEffect crash n k (Command.lPop (k.toR :: args)) (KeyEffect.lPop (n.content k) args) := by
  match args with
  | [] => exact wf.has_replies k _
  | idx :: _ =>
      refine hasEffect_here owned ?_
      rw [KeyEffect.lPop]
      by_cases number : isI idx = true
      · rw [if_pos number, if_pos number]
        exact has_lPopIndex wf (toI idx)
      · rw [if_neg number, if_neg number]
        cases range : rangeOf idx with
        | error e => exact ⟨rfl, wf.leaves k⟩
        | ok bounds =>
            cases bounds with
            | none => exact wf.has_replies k _
            | some bounds => exact has_lPopRange wf idx bounds.1 bounds.2

theorem has_lSet (args : List RStr) :
    HasEffect crash n k (Command.lSet (k.toR :: args)) (KeyEffect.lSet (n.content k) args) := by
  match args with
  | [] => exact wf.has_replies k _
  | [_] => exact wf.has_replies k _
  | idx :: data :: _ =>
      rw [Command.lSet, KeyEffect.lSet]
      by_cases number : isI idx = true
      case neg =>
        rw [if_neg number, if_neg number]
        exact wf.has_replies k _
      case pos =>
        rw [if_pos number, if_pos number]
        refine hasEffect_here owned (has_lookup_list wf rfl (fun _ => rfl) ?_ ?_)
        · intro kind id other
          cases kind <;> first | rfl | exact absurd rfl other
        · intro id elems stored working
          rw [HasEffect]
          obtain ⟨o, holds, isList⟩ := working.holds
          have called : callWith crash n (.listSet id (toI idx) data) =
              some (n.rbListSet id (toI idx) data) := rfl
          rw [rbListSet, onList, holds.obj] at called
          simp only [isList] at called
          rcases num2int_cases (toI idx) with inRange | outside
          · rw [inRange] at called ⊢
            dsimp only at called ⊢
            cases found : listRef elems (toI idx) with
            | none =>
                rw [found] at called
                obtain ⟨t, tracked, leaves⟩ := working.leaves.run_exec_add crash owned (text "-OK")
                exact hasEffect_of_run ((run_call_ok called).trans tracked) leaves
            | some hit =>
                obtain ⟨pos, old⟩ := hit
                rw [found] at called
                dsimp only at called ⊢
                cases value : stringValueCStr data with
                | error e =>
                    rw [value] at called
                    exact hasEffect_of_run (run_call_error called) (wf.leaves k)
                | ok d =>
                    rw [value] at called
                    have set := working.putFirst holds (.list (elems.set pos d))
                      (fun key => [⟨key, some old, some d, .listUpdate⟩]) (by simp)
                    obtain ⟨t, tracked, leaves⟩ := set.leaves.run_exec_add crash owned (text "-OK")
                    exact hasEffect_of_run ((run_call_ok called).trans tracked) leaves
          · rw [outside] at called ⊢
            exact hasEffect_of_run (run_call_error called) (wf.leaves k)

/-! ## Strings and keys -/

theorem has_set (args : List RStr) :
    HasEffect crash n k (Command.set (k.toR :: args)) (KeyEffect.set (n.content k) args) := by
  match args with
  | [] => exact wf.has_replies k _
  | data :: _ =>
      refine hasEffect_here owned ?_
      have known := stringValueCStr_toR k
      have called : callWith crash n (.dbStore k.toR (.str data)) =
        some (n.rbDbStore k.toR (.str data)) :=
        rfl
      have shard := rbDbStore_shard n k.toR (.str data)
      rw [KeyEffect.set]
      cases value : stringValueCStr data with
      | ok d =>
          obtain ⟨m, stored, changes⟩ := wf.rbDbStore_string known value
          rw [stored] at called shard
          have leaves : n.Leaves k m ⟨some (.string d), none⟩ := by
            refine ⟨changes.wf, changes.content, congrArg KeyShard.slots shard, ?_⟩
            intro key
            rw [show m.shard = n.shard from shard]
            exact Iff.rfl
          obtain ⟨t, tracked, leaves'⟩ := leaves.run_exec_add crash owned (text "-OK")
          exact hasEffect_of_run ((run_call_ok called).trans tracked) leaves'
      | error e =>
          obtain ⟨m, raised, same, content⟩ := wf.rbDbStore_refused known value
          rw [raised] at called shard
          refine hasEffect_of_run (run_call_error called)
            ⟨same, content, congrArg KeyShard.slots shard, ?_⟩
          intro key
          rw [show m.shard = n.shard from shard]
          exact Iff.rfl

theorem has_get (args : List RStr) :
    HasEffect crash n k (Command.get (k.toR :: args)) (KeyEffect.get (n.content k)) := by
  refine hasEffect_here owned ?_
  have again : ∀ v : Val, v ≠ .nil → callWith crash n (.dbRef k.toR) = some (.ok v, n) →
      ∀ rest : Val → Script Reply,
      (engine (.dbRef k.toR) >>= fun val => if val = .nil then pure (text "-nil") else
        engine (.dbRef k.toR) >>= rest).run (callWith crash) n =
      (rest v).run (callWith crash) n := by
    intro v some_ found rest
    refine (run_call_ok found).trans ?_
    rw [if_neg some_]
    exact run_call_ok found
  have known := stringValueCStr_toR k
  rcases wf.content_cases k with ⟨missing, nothing⟩ | ⟨s, found, string⟩ | ⟨id, o, holds⟩
  · rw [nothing]
    have asked : callWith crash n (.dbRef k.toR) = some (.ok .nil, n) :=
      congrArg some (rbDbRef_none known missing)
    have leaves := wf.leaves k
    rw [nothing] at leaves
    exact hasEffect_of_run ((run_call_ok asked).trans rfl) leaves
  · rw [string]
    have leaves := wf.leaves k
    rw [string] at leaves
    have some_ : Val.str s.toR ≠ .nil := Val.noConfusion
    exact hasEffect_of_run (again _ some_ (congrArg some (rbDbRef_string known found)) _) leaves
  · rw [holds.content]
    have leaves := wf.leaves k
    rw [holds.content] at leaves
    have some_ : Val.obj o.c.kind id ≠ .nil := Val.noConfusion
    exact hasEffect_of_run (again _ some_ (congrArg some (rbDbRef_object known holds)) _) leaves

theorem has_delete (args : List RStr) :
    HasEffect crash n k (Command.delete (k.toR :: args)) (KeyEffect.deletes (text "-OK")) := by
  obtain ⟨t, deleted, leaves⟩ := (wf.leaves k).run_delete crash (text "-OK")
  have asked : callWith crash n (.shardInclude k.toR) = some (n.shard.includes k.toR, n) := rfl
  rw [owned] at asked
  exact hasEffect_of_run ((run_call_ok asked).trans deleted) leaves

/-- Every command on a key of the node has its effect. -/
theorem hasEffect (exact : Stored.Exact (n.content k)) (cmd : Cmd) (args : List RStr) :
    HasEffect crash n k (cmd.exec (k.toR :: args)) (cmd.effect crash (n.content k) args) := by
  cases cmd with
  | get => exact has_get wf owned args
  | set => exact has_set wf owned args
  | delete => exact has_delete wf owned args
  | mAdd => exact has_mAdd wf exact owned args
  | mRef => exact has_mRef wf exact owned args
  | mClear =>
      refine has_clear wf owned .hashmap rfl (fun _ => rfl) ?_ (fun _ => rfl)
      intro kind id other
      cases kind <;> first | rfl | exact absurd rfl other
  | mDel => exact has_mDel wf exact owned args
  | mSize => exact has_mSize wf exact owned args
  | sAdd => exact has_sAdd wf exact owned args
  | sDel => exact has_sDel wf exact owned args
  | sClear =>
      refine has_clear wf owned .set rfl (fun _ => rfl) ?_ (fun _ => rfl)
      intro kind id other
      cases kind <;> first | rfl | exact absurd rfl other
  | sInclude => exact has_sInclude wf exact owned args
  | lClear =>
      refine has_clear wf owned .list rfl (fun _ => rfl) ?_ (fun _ => rfl)
      intro kind id other
      cases kind <;> first | rfl | exact absurd rfl other
  | lPush => exact has_lPush wf owned args
  | lPop => exact has_lPop wf owned args
  | lSet => exact has_lSet wf owned args
  | lRef => exact has_lRef wf owned args
  | lSize => exact has_lSize wf owned args

end Commands

end Lists

end XFireDB
