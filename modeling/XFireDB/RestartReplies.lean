import XFireDB.Restart
import XFireDB.RequestRuns
import XFireDB.Notices
import XFireDB.Lib.Responses

/-!
# A restart that no client can notice

What a node replies depends on what its keys hold and on its slots, and on nothing
else of its state: `answers_alike`.  A restart after a run of persistable writes
brings back what the keys hold, so every later list of requests has the replies it
would have had.
-/

namespace XFireDB

open Lib Command

theorem Lib.Prog.SameOutcome.none_right {ε α σ σ' : Type} {R : σ → σ' → Prop}
    {x : Option (Except ε α × σ)} (same : Prog.SameOutcome R x none) : x = none := by
  cases x with
  | none => rfl
  | some out => exact same.elim

/-- A request on a node: the reply, or the exception, and the state it leaves.
`none` is a crash. -/
def Node.answer (n : Node) (r : Request) : Option (Except Raise Reply × Node) :=
  r.script.run Node.call n

/-! ## The rows of a key determine what it holds -/

theorem hmRow_injective (k : CStr) : Function.Injective (hmRow k) := by
  intro a b same
  obtain ⟨key, value⟩ := a
  cases same
  rfl

theorem setRow_injective (k : CStr) : Function.Injective (setRow k) := by
  intro a b same
  obtain ⟨key, value⟩ := a
  cases same
  rfl

theorem listRow_injective (k : CStr) : Function.Injective (listRow k) := by
  intro a b same
  cases same
  rfl

/-- Ordered chains with the same nodes are the same. -/
theorem Skiplist.Sorted.eq_of_perm {β : Type} {nodes nodes' : Skiplist β} (sorted : nodes.Sorted)
    (sorted' : nodes'.Sorted) (perm : nodes.Perm nodes') : nodes = nodes' := by
  apply perm.eq_of_pairwise ?_ sorted sorted'
  intro a b _ _ less more
  exact absurd less (lt_asymm more)

/-- Chains with the same rows are the same. -/
theorem Skiplist.Clean.eq_of_rows {β : Type} {toRow : SkiplistNode β → Row}
    (injective : Function.Injective toRow) {nodes nodes' : Skiplist β} {num num' : Int}
    (clean : nodes.Clean num) (clean' : nodes'.Clean num') {rows : Table}
    (perm : rows.Perm (nodes.map toRow)) (perm' : rows.Perm (nodes'.map toRow)) :
    nodes = nodes' ∧ num = num' := by
  have same : nodes.Perm nodes' := (List.map_perm_map_iff injective).mp (perm.symm.trans perm')
  refine ⟨clean.sorted.eq_of_perm clean'.sorted same, ?_⟩
  rw [clean.counted, clean'.counted, same.length_eq]

theorem Mirrors.ne_nil {k : CStr} {w : Stored} {rows : Table} (mirrors : Mirrors k (some w) rows)
    (full : Stored.Full (some w)) : rows ≠ [] := by
  cases w with
  | string s =>
      intro empty
      rw [empty] at mirrors
      cases mirrors
  | container c => exact full.ne_nil mirrors

theorem Mirrors.unique {k : CStr} {v v' : Option Stored} {rows : Table} (mirrors : Mirrors k v rows)
    (full : Stored.Full v) (mirrors' : Mirrors k v' rows) (full' : Stored.Full v') : v = v' := by
  cases v with
  | none =>
      obtain rfl : rows = [] := mirrors
      exact (mirrors'.eq_none full').symm
  | some w =>
      cases v' with
      | none =>
          obtain rfl : rows = [] := mirrors'
          exact mirrors.eq_none full
      | some w' =>
          obtain ⟨row, here⟩ := List.exists_mem_of_ne_nil rows (mirrors.ne_nil full)
          have type : w'.rowType = w.rowType :=
            (mirrors'.rowType row here).symm.trans (mirrors.rowType row here)
          match w with
          | .string s =>
              obtain ⟨s', rfl⟩ := Stored.eq_string type
              have same := List.head_eq_of_cons_eq (mirrors.symm.trans mirrors')
              obtain rfl : s = s' := congrArg Row.value same
              rfl
          | .container (.list elems) =>
              obtain ⟨elems', rfl⟩ := Stored.eq_list type
              have same : elems.map (listRow k) = elems'.map (listRow k) :=
                mirrors.symm.trans mirrors'
              rw [List.map_injective_iff.mpr (listRow_injective k) same]
          | .container (.hashmap nodes num) =>
              obtain ⟨nodes', num', rfl⟩ := Stored.eq_hashmap type
              obtain ⟨rfl, rfl⟩ :=
                mirrors.2.eq_of_rows (hmRow_injective k) mirrors'.2 mirrors.1 mirrors'.1
              rfl
          | .container (.set nodes num) =>
              obtain ⟨nodes', num', rfl⟩ := Stored.eq_set type
              obtain ⟨rfl, rfl⟩ :=
                mirrors.2.eq_of_rows (setRow_injective k) mirrors'.2 mirrors.1 mirrors'.1
              rfl

namespace Node

variable {n n' : Node}

theorem Tracks.exact {rows : Table} (tracks : n.Tracks rows) : n.Exact where
  wf := tracks.wf
  stored := by
    intro k c held
    have mirrors := tracks.mirror k
    rw [held] at mirrors
    cases c with
    | list elems => trivial
    | hashmap nodes num => exact ⟨mirrors.2.sorted.nodup_keys, mirrors.2.counted⟩
    | set nodes num => exact ⟨mirrors.2.sorted.nodup_keys, mirrors.2.counted⟩

/-! ## Replies depend on what the keys hold -/

/-- Proper nodes with the same slots that hold the same. -/
structure Alike (n n' : Node) : Prop where
  proper : n.Proper
  proper' : n'.Proper
  content : n'.content = n.content
  slots : n'.shard.slots = n.shard.slots

/-- Proper nodes with the same slots that hold the same under the keys of `K`. -/
structure AlikeOn (K : CStr → Prop) (n n' : Node) : Prop where
  proper : n.Proper
  proper' : n'.Proper
  content : ∀ k, K k → n'.content k = n.content k
  slots : n'.shard.slots = n.shard.slots

/-- What is raised for a key that is not one of the node's. -/
def notLocal : Except Raise Bool → Except Raise Reply
  | .error e => .error e
  | .ok _ => .error .noMethodError

theorem unlessLocal_elsewhere {key query : RStr} {here : Script Reply}
    (notHere : n.shard.includes key ≠ .ok true) :
    (unlessLocal key query here).run Node.call n = some (notLocal (n.shard.includes key), n) := by
  show Prog.run Node.call n (Prog.call (Call.shardInclude key) _) = _
  rw [Prog.run, show Node.call n (.shardInclude key) = some (n.shard.includes key, n) from rfl]
  rcases included : n.shard.includes key with e | here
  · rfl
  · cases here with
    | false => rfl
    | true => exact absurd included notHere

theorem delete_elsewhere {key : RStr} (args : List RStr)
    (notHere : n.shard.includes key ≠ .ok true) :
    (Command.delete (key :: args)).run Node.call n = some (notLocal (n.shard.includes key), n) := by
  show Prog.run Node.call n (Prog.call (Call.shardInclude key) _) = _
  rw [Prog.run, show Node.call n (.shardInclude key) = some (n.shard.includes key, n) from rfl]
  rcases included : n.shard.includes key with e | here
  · rfl
  · cases here with
    | false => rfl
    | true => exact absurd included notHere

/-- A command on a key that is not the node's raises, whatever the node holds. -/
theorem exec_elsewhere (slots : n'.shard.slots = n.shard.slots) (cmd : Cmd) {key : RStr}
    (args : List RStr) (notHere : n.shard.includes key ≠ .ok true) :
    ∃ out, (cmd.exec (key :: args)).run Node.call n = some (out, n) ∧
      (cmd.exec (key :: args)).run Node.call n' = some (out, n') := by
  have included : n'.shard.includes key = n.shard.includes key :=
    Region.Tied.includes_congr slots key
  have notThere : n'.shard.includes key ≠ .ok true := included ▸ notHere
  rcases eq_or_ne cmd .delete with rfl | notDelete
  · exact ⟨_, delete_elsewhere args notHere, included ▸ delete_elsewhere args notThere⟩
  · cases queryIs : cmd.query (key :: args) with
    | none =>
        obtain ⟨reply, same⟩ := Cmd.exec_of_query_none queryIs
        rw [same]
        exact ⟨.ok reply, rfl, rfl⟩
    | some query =>
        obtain ⟨here, same, _⟩ := Cmd.shape notDelete queryIs
        rw [same]
        exact ⟨_, unlessLocal_elsewhere notHere, included ▸ unlessLocal_elsewhere notThere⟩

/-- A request is on a key of the node, or refused without a look at what it holds. -/
theorem script_refused (slots : n'.shard.slots = n.shard.slots) (r : Request) :
    (∃ out, n.answer r = some (out, n) ∧ n'.answer r = some (out, n')) ∨
    ∃ (k : CStr) (args : List RStr), r.argv = k.toR :: args ∧
        r.script = r.cmd.exec (k.toR :: args) ∧
      n.shard.includes k.toR = .ok true := by
  obtain ⟨cmd, argv⟩ := r
  rw [answer, answer, Request.script, Cmd.start]
  cases argv with
  | nil =>
      obtain ⟨reply, same⟩ := Cmd.exec_of_query_none (show cmd.query [] = none by cases cmd <;> rfl)
      dsimp only [List.head?_nil]
      rw [same]
      exact Or.inl ⟨.ok reply, rfl, rfl⟩
  | cons key args =>
      dsimp only [List.head?_cons]
      by_cases hidden : ¬ (false : Bool) ∧ key ∈ hiddenKeys
      · rw [if_pos hidden]
        exact Or.inl ⟨_, rfl, rfl⟩
      · rw [if_neg hidden]
        by_cases owned : n.shard.includes key = .ok true
        · obtain ⟨k, known⟩ := KeyShard.includes_nulFree owned
          obtain rfl := toR_of_stringValueCStr known
          exact Or.inr ⟨k, args, rfl, rfl, owned⟩
        · exact Or.inl (exec_elsewhere slots cmd args owned)

variable {K : CStr → Prop}

theorem AlikeOn.leaves (alike : AlikeOn K n n') {k : CStr} {a : After} {t t' : Node}
    (leaves : n.Leaves k t a) (leaves' : n'.Leaves k t' a) (proper : t.Proper)
    (proper' : t'.Proper) :
    AlikeOn K t t' where
  proper := proper
  proper' := proper'
  content := by
    intro k' mine
    rw [leaves.content, leaves'.content]
    rcases eq_or_ne k' k with rfl | other
    · rw [Function.update_self, Function.update_self]
    · rw [Function.update_of_ne other, Function.update_of_ne other, alike.content k' mine]
  slots := by rw [leaves.slots, leaves'.slots, alike.slots]

/-- Nodes that hold the same under the keys of `K` have the same reply to every request
on one of them, and hold the same afterwards. -/
theorem answer_simulates :
    Simulates Eq (AlikeOn K) (fun r => ∀ k, r.key = some k → K k) answer answer := by
  intro n n' r alike inside
  rcases script_refused alike.slots r with ⟨out, here, there⟩ | ⟨k, args, argv, script, owned⟩
  · rw [here, there]
    exact .some ⟨rfl, alike⟩
  · have owned' : n'.shard.includes k.toR = .ok true :=
      (Region.Tied.includes_congr alike.slots k.toR).trans owned
    have named : r.key = some k := by
      rw [Request.key, argv, List.head?_cons, Option.bind_some, stringValueCStr_toR]
      rfl
    have same := alike.content k (inside k named)
    rw [answer, answer, script]
    cases effect : r.cmd.effect collides (n.content k) args with
    | none =>
        have crash := alike.proper.hasEffect owned r.cmd args
        have crash' := alike.proper'.hasEffect owned' r.cmd args
        rw [same, effect] at crash'
        rw [effect] at crash
        rw [crash.none_right, crash'.none_right]
        exact .none
    | some out =>
        obtain ⟨reply, a⟩ := out
        obtain ⟨t, ran, leaves, proper⟩ := alike.proper.run_of_effect owned effect
        rw [← same] at effect
        obtain ⟨t', ran', leaves', proper'⟩ := alike.proper'.run_of_effect owned' effect
        rw [ran, ran']
        exact .some ⟨rfl, alike.leaves leaves leaves' proper proper'⟩

/-- Nodes that hold the same under the keys of `K` have the same replies to every list
of requests on them. -/
theorem AlikeOn.replies (alike : AlikeOn K n n') (requests : List Request)
    (inside : ∀ r ∈ requests, ∀ k, r.key = some k → K k) :
    (Lib.replies answer n' requests).map Prod.fst =
      (Lib.replies answer n requests).map Prod.fst := by
  match Lib.replies answer n requests, Lib.replies answer n' requests,
    answer_simulates.replies alike inside with
  | _, _, .none => rfl
  | some _, some _, .some both => exact congrArg some (List.forall₂_eq_eq_eq ▸ both.1).symm

/-- Nodes that hold the same have the same replies to every list of requests. -/
theorem Alike.replies (alike : Alike n n') (requests : List Request) :
    (Lib.replies answer n' requests).map Prod.fst = (Lib.replies answer n requests).map Prod.fst :=
  AlikeOn.replies (K := fun _ => True)
    ⟨alike.proper, alike.proper', fun k _ => congrFun alike.content k, alike.slots⟩ requests
    fun _ _ _ _ => trivial

/-! ## The restart -/

theorem Ordered.loadRows (ordered : n.Ordered) {rows : Table}
    (ran : XFireDB.loadRows n rows = some n') :
    n'.Ordered := by
  induction rows generalizing n with
  | nil =>
      obtain rfl := Option.some.inj ran
      exact ordered
  | cons row rows ih =>
      rw [XFireDB.loadRows] at ran
      split at ran
      · rename_i t loaded
        exact ih (ordered.run loaded) ran
      · cases ran

/-- The calls that loading a row makes. -/
def CallLoads : {β : Type} → Call β → Prop
  | _, .dbRef _ => True
  | _, .dbStore _ _ => True
  | _, .newObj _ => True
  | _, .listPush _ _ => True
  | _, .mapStore _ _ _ => True
  | _, .setAdd _ _ => True
  | _, _ => False

/-- A method of an object that keeps the shard. -/
theorem onMap_shard {β : Type} {id : Nat} {f : Obj → Skiplist CStr → Int → Option (Outcome β)}
    {r : Except Raise β} (each : ∀ o nodes num x, f o nodes num = some x → x.2.shard = n.shard)
    (handled : n.onMap id f = some (r, n')) : n'.shard = n.shard := by
  unfold Node.onMap at handled
  split at handled
  · split at handled
    · exact each _ _ _ _ handled
    · cases handled
      rfl
  · cases handled
    rfl

theorem onSet_shard {β : Type} {id : Nat} {f : Obj → Skiplist Unit → Int → Option (Outcome β)}
    {r : Except Raise β} (each : ∀ o nodes num x, f o nodes num = some x → x.2.shard = n.shard)
    (handled : n.onSet id f = some (r, n')) : n'.shard = n.shard := by
  unfold Node.onSet at handled
  split at handled
  · split at handled
    · exact each _ _ _ _ handled
    · cases handled
      rfl
  · cases handled
    rfl

theorem rbListPush_shard (id : Nat) (data : RStr) : (n.rbListPush id data).2.shard = n.shard := by
  unfold Node.rbListPush Node.onList
  split
  · split
    · split
      · rfl
      · exact noticeAll_shard n _ _
    · rfl
  · rfl

/-- Loading a row does not touch the shard. -/
theorem call_shard {β : Type} {c : Call β} (loads : CallLoads c) {r : Except Raise β}
    (handled : Node.call n c = some (r, n')) : n'.shard = n.shard := by
  cases c with
  | dbRef key =>
      have reads : (Call.dbRef key).Reads := trivial
      rw [Node.call_reads reads handled]
  | dbStore key data =>
      have after : (n.rbDbStore key data).2 = n' := congrArg Prod.snd (Option.some.inj handled)
      rw [← after]
      exact rbDbStore_shard n key data
  | newObj kind =>
      have after : (n.newObj kind).2 = n' := congrArg Prod.snd (Option.some.inj handled)
      rw [← after]
      rfl
  | listPush id data =>
      have after : (n.rbListPush id data).2 = n' := congrArg Prod.snd (Option.some.inj handled)
      rw [← after]
      exact rbListPush_shard id data
  | mapStore id key data =>
      apply onMap_shard ?_ handled
      intro o nodes num x found
      split at found
      · rw [← Option.some.inj found]
      · rw [← Option.some.inj found]
      · obtain ⟨y, _, rfl⟩ := Option.map_eq_some_iff.mp found
        cases y with
        | none => exact noticeAll_shard _ _ _
        | some node => exact noticeAll_shard _ _ _
  | setAdd id key =>
      apply onSet_shard ?_ handled
      intro o nodes num x found
      split at found
      · rw [← Option.some.inj found]
      · obtain ⟨y, _, rfl⟩ := Option.map_eq_some_iff.mp found
        cases y with
        | none => exact noticeAll_shard _ _ _
        | some node => rfl
  | _ => exact loads.elim

theorem loads_orNew (key : RStr) (kind : Kind) :
    (orNew key kind).Within CallLoads (fun _ _ => True) := by
  refine ⟨trivial, fun v _ => ?_⟩
  cases v with
  | nil => exact ⟨trivial, fun _ _ => ⟨trivial, fun _ _ => trivial⟩⟩
  | _ => trivial

theorem loads_dbRef {key : RStr} {f : Val → Script Unit}
    (each : ∀ v, (f v).Within CallLoads (fun _ _ => True)) :
    (engine (.dbRef key) >>= f).Within CallLoads (fun _ _ => True) :=
  ⟨trivial, fun v _ => each v⟩

theorem loads_loadEntry (row : Row) : (loadEntry row).Within CallLoads (fun _ _ => True) := by
  unfold loadEntry
  split
  · exact ⟨trivial, fun _ _ => trivial⟩
  · apply (loads_orNew _ _).bind
    intro _
    apply loads_dbRef
    intro v
    split
    · exact ⟨trivial, fun _ _ => trivial⟩
    · trivial
  · apply (loads_orNew _ _).bind
    intro _
    apply loads_dbRef
    intro v
    split
    · exact ⟨trivial, fun _ _ => trivial⟩
    · trivial
  · apply (loads_orNew _ _).bind
    intro _
    apply loads_dbRef
    intro v
    split
    · exact ⟨trivial, fun _ _ => trivial⟩
    · trivial

theorem loadRows_shard {rows : Table} (ran : XFireDB.loadRows n rows = some n') :
    n'.shard = n.shard := by
  induction rows generalizing n with
  | nil => rw [← Option.some.inj ran]
  | cons row rows ih =>
      rw [XFireDB.loadRows] at ran
      split at ran
      · rename_i t loaded
        rw [ih ran]
        apply Prog.Within.run_keeps (I := fun t => t.shard = n.shard) ?_
          (loads_loadEntry row) rfl loaded
        intro β c s r t loads before handled
        exact ⟨(call_shard loads handled).trans before, fun _ _ => trivial⟩
      · cases ran

/-- The statements of the journal and then those of the queue lead to a table that
mirrors the node. -/
structure Backed (journal : List BioQ) (n : Node) : Prop where
  sound : (n.upon journal).Sound
  ordered : n.Ordered

variable {n₀ t : Node} {journal : List BioQ}

theorem Backed.proper (backed : n.Backed journal) : n.Proper := by
  obtain ⟨rows, tracks⟩ := backed.sound.tracks
  have whole := tracks.exact
  exact ⟨⟨⟨whole.wf.held, whole.wf.allocated⟩, whole.stored⟩, backed.ordered⟩

/-- The table has been executed to the end of the queue. -/
theorem Backed.synced (backed : n.Backed journal) :
    ∃ rows, bioWorker [] (journal ++ n.queue) = rows ∧
      ∀ k, Mirrors k (n.content k) (rowsOf k rows) := by
  obtain ⟨rows, tracks⟩ := backed.sound.tracks
  exact ⟨rows, tracks.synced backed.sound.persists, tracks.mirror⟩

/-- Keys with the same rows hold the same. -/
theorem Backed.content_eq {journal' : List BioQ} {n' : Node} (backed : n.Backed journal)
    (backed' : n'.Backed journal') (fresh : n'.queue = []) {k : CStr}
    (rows : rowsOf k (bioWorker [] journal') = rowsOf k (bioWorker [] (journal ++ n.queue))) :
    n'.content k = n.content k := by
  obtain ⟨_, rfl, mirror⟩ := backed.synced
  obtain ⟨_, rfl, mirror'⟩ := backed'.synced
  have here := mirror' k
  rw [fresh, List.append_nil, rows] at here
  exact here.unique (backed'.sound.full k) (mirror k) (backed.sound.full k)

theorem loadRows_logs {rows : Table} (ran : XFireDB.loadRows n rows = some t)
    (logs : Region.whole.Logs [] n₀ n n) : Region.whole.Logs [] n₀ t t := by
  induction rows generalizing n with
  | nil =>
      obtain rfl := Option.some.inj ran
      exact logs
  | cons row rows ih =>
      rw [XFireDB.loadRows] at ran
      split at ran
      · rename_i m loaded
        apply ih ran
        apply Prog.run_keeps (I := fun m => Region.whole.Logs [] n₀ m m) ?_ logs loaded
        intro s logs β c r m handled
        have same := logs.call (inside_whole c)
        rw [handled] at same
        exact same.2
      · cases ran

/-- A start on the table that a journal makes. -/
theorem backed_engineStart (cuts : ∀ i, Mirrored (bioWorker [] (journal.take i))) (shard : KeyShard)
    {persistLevel : Nat} (below : persistLevel < 3) :
    ∃ n, XFireDB.engineStart shard persistLevel (bioWorker [] journal) = some n ∧
      n.Backed journal ∧ n.queue = [] ∧ n.shard.slots = shard.slots := by
  have mirrored : Mirrored (bioWorker [] journal) := by
    have all := cuts journal.length
    rwa [List.take_length] at all
  obtain ⟨n, ran, loaded⟩ :=
    (loaded_empty shard persistLevel).loadRows (bioWorker [] journal) mirrored
  have logs := loadRows_logs ran (logs_whole (Node.empty shard persistLevel false) [])
  have queue : n.queue = [] := logs.silent rfl
  have level : n.persistLevel = persistLevel := logs.persistLevel
  have nothing : (Node.empty shard persistLevel false).Ordered := by
    intro k c held
    cases held
  have ordered : n.Ordered := nothing.loadRows ran
  refine ⟨{ n with loadState := true }, by simp only [XFireDB.engineStart, ran, Option.map_some],
    ⟨⟨⟨bioWorker [] journal, ?_⟩, ⟨rfl, level ▸ below⟩, loaded.full⟩, ordered⟩, queue,
    congrArg KeyShard.slots (loadRows_shard ran)⟩
  have journaled : (Node.upon { n with loadState := true } journal).queue = journal := by
    show journal ++ n.queue = journal
    rw [queue, List.append_nil]
  refine ⟨⟨loaded.tracks.wf.held, loaded.tracks.wf.allocated⟩, loaded.tracks.mirror, ?_, ?_⟩
  · intro _
    rw [journaled]
  · intro _ i
    rw [journaled]
    exact cuts i

/-- A node that is restarted is like the node before. -/
theorem Sound.alike_engineStart (sound : n.Sound) (ordered : n.Ordered) :
    ∃ n', XFireDB.engineStart n.shard n.persistLevel (bioWorker [] n.queue) = some n' ∧
      Alike n n' := by
  have backed : n.Backed [] := ⟨sound, ordered⟩
  obtain ⟨rows, tracks⟩ := sound.tracks
  obtain ⟨n', started, back, fresh, slots⟩ :=
    backed_engineStart (tracks.cuts sound.persists) n.shard sound.persists.2
  refine ⟨n', started, backed.proper, back.proper, ?_, slots⟩
  funext k
  exact backed.content_eq back fresh rfl

/-- The request reads, or it writes under the guard. -/
def Lasting (n : Node) (r : Request) : Prop := r.cmd.Reads ∨ r.cmd.Writes ∧ n.Persistable r

/-- A reading request leaves the node as it is. -/
theorem serve_reads {r : Request} (reads : r.cmd.Reads) (served : n.serve r = some n') :
    n' = n := by
  obtain ⟨⟨out, t⟩, ran, rfl⟩ := Option.map_eq_some_iff.mp served
  have within : ReadsOnly r.script := by
    rw [Request.script, Cmd.start]
    split
    · split
      · trivial
      · exact readsOnly_cmd reads r.argv
    · exact readsOnly_cmd reads r.argv
  apply Prog.Within.run_keeps (I := fun t => t = n) ?_ within rfl ran
  intro β c s out t reads before handled
  exact ⟨(Node.call_reads reads handled).trans before, fun _ _ => trivial⟩

theorem serve_ordered {r : Request} (ordered : n.Ordered) (served : n.serve r = some n') :
    n'.Ordered := by
  obtain ⟨⟨out, t⟩, ran, rfl⟩ := Option.map_eq_some_iff.mp served
  exact ordered.run ran

theorem sound_of_lasting {n₀ : Node} (sound : n₀.Sound) (ordered : n₀.Ordered)
    (run : Reach Node.serve Lasting n₀ n) : n.Sound ∧ n.Ordered := by
  apply run.invariant (I := fun n => n.Sound ∧ n.Ordered) ⟨sound, ordered⟩
  intro m r m' before kept served
  refine ⟨?_, serve_ordered before.2 served⟩
  rcases kept with reads | ⟨writes, guard⟩
  · rw [serve_reads reads served]
    exact before.1
  · obtain ⟨t, served', after⟩ := before.1.serve writes guard
    obtain rfl := Option.some.inj (served.symm.trans served')
    exact after

end Node

/-- After a run of reads and persistable writes, a node that is stopped once its
queue is on disk and started again replies to every list of requests what it would
have replied without. -/
theorem restart_unobservable (shard : KeyShard) {persistLevel : Nat}
    (below : persistLevel < 3) {n : Node}
    (run : Reach Node.serve Node.Lasting (Node.empty shard persistLevel true) n)
    (requests : List Request) :
    ∃ n', engineStart n.shard n.persistLevel (bioWorker [] n.queue) = some n' ∧
      (replies Node.answer n' requests).map Prod.fst =
      (replies Node.answer n requests).map Prod.fst := by
  obtain ⟨sound, ordered⟩ :=
    Node.sound_of_lasting (Node.sound_empty shard below)
      (Node.proper_empty shard persistLevel).ordered run
  obtain ⟨n', started, alike⟩ := sound.alike_engineStart ordered
  exact ⟨n', started, alike.replies requests⟩

/-- `MADD k h v`, a restart, and then `MREF k h`. -/
theorem restart_unobservable_mAdd :
    ∃ n n', nodeOfK.serve ⟨.mAdd, [lit "k", lit "h", lit "v"]⟩ = some n ∧
      engineStart n.shard n.persistLevel (bioWorker [] n.queue) = some n' ∧
      (replies Node.answer n' [⟨.mRef, [lit "k", lit "h"]⟩]).map Prod.fst =
        (replies Node.answer n [⟨.mRef, [lit "k", lit "h"]⟩]).map Prod.fst := by
  have kept : nodeOfK.Lasting ⟨.mAdd, [lit "k", lit "h", lit "v"]⟩ :=
    Or.inr ⟨Cmd.writes_of_keyedWrites (by decide), persistable_mAdd⟩
  obtain ⟨n', started, same⟩ :=
    restart_unobservable shardOfK (by decide) (.next .init kept rfl) [⟨.mRef, [lit "k", lit "h"]⟩]
  exact ⟨_, n', rfl, started, same⟩

end XFireDB
