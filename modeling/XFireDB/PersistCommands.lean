import XFireDB.Persistence
import XFireDB.Lib.Runs

/-!
# Persistence over whole runs

Each storage command keeps a node sound, whether it replies or raises, as long
as its engine calls meet the guard.
-/

namespace XFireDB

open Lib Node Command

/-- The command leaves a sound node. -/
def Keeps {α : Type} (n : Node) (p : Script α) : Prop :=
  p.Meets Node.call Node.PersistOk (fun _ n' => n'.Sound) n

theorem Node.Sound.shard {n : Node} (sound : n.Sound) (shard : KeyShard) :
    Node.Sound { n with shard := shard } := by
  obtain ⟨rows, tracks⟩ := sound.tracks
  exact ⟨⟨rows, ⟨tracks.wf.held, tracks.wf.allocated⟩, tracks.mirror, tracks.synced,
      tracks.cuts⟩,
    sound.persists, sound.full⟩

theorem keeps_ret {α : Type} {n : Node} (sound : n.Sound) (a : α) : Keeps n (Prog.ret a) := sound

/-- The tracking of the key in the shard, then the reply. -/
theorem keeps_exec {α : Type} {n : Node} (sound : n.Sound) (key : RStr) (add : Bool)
    {rest : Unit → Script α} (reply : ∀ shard, Keeps { n with shard := shard } (rest ())) :
    Keeps n (exec key add >>= rest) := by
  cases add with
  | true =>
      cases added : n.shard.addKey key with
      | ok shard => exact Prog.Meets.bind_ok (by simp only [Node.call, added]) (reply shard)
      | error e => exact Prog.Meets.bind_error (by simp only [Node.call, added]; rfl) sound
  | false => exact Prog.Meets.bind_ok rfl (reply _)

/-- A command goes on only with a key that is a C string. -/
theorem keeps_unlessLocal {n : Node} (sound : n.Sound) {key query : RStr} {here : Script Reply}
    (ours : ∀ k, stringValueCStr key = .ok k → Keeps n here) :
    Keeps n (unlessLocal key query here) := by
  cases known : stringValueCStr key with
  | error e =>
      have raised : n.shard.includes key = .error e := by
        simp only [KeyShard.includes, keyToSlot, crc16, known, Except.map]
      exact Prog.Meets.bind_error (by simp only [Node.call, raised]; rfl) sound
  | ok k =>
      cases included : n.shard.includes key with
      | error e => exact Prog.Meets.bind_error (by simp only [Node.call, included]; rfl) sound
      | ok mine =>
          refine Prog.Meets.bind_ok (by simp only [Node.call, included]; rfl) ?_
          cases mine with
          | true => exact ours k known
          | false => exact Prog.Meets.of_error rfl sound

section Key

variable {n₀ n : Node} {key : RStr} {k : CStr}

/-- The key is deleted and no longer tracked. -/
theorem keeps_deleteKey {α : Type} (before : n₀.Sound) (follows : Follows n₀ k n)
    (known : stringValueCStr key = .ok k) {rest : Unit → Script α}
    (reply : ∀ n', n'.Sound → Keeps n' (rest ())) :
    Keeps n (engine (.dbDelete key) >>= fun _ => exec key false >>= rest) := by
  obtain ⟨n', deleted, changes⟩ := follows.wf.rbDbDelete known
  have after : n'.Sound := by
    refine (follows.changes changes (fun _ => mirrors_deleteNotices)
      fun _ => through_deleteNotices).sound before ?_
    rw [changes.content_self]
    intro c none
    cases none
  refine Prog.Meets.bind_ok (congrArg some deleted) ?_
  exact keeps_exec after key false fun shard => reply _ (after.shard shard)

/-- `ensure` leaves an object of the wanted class under the key. -/
theorem meets_ensure (follows : Follows n₀ k n)
    (known : stringValueCStr key = .ok k) (kind : Kind) :
    (ensure key kind).Meets Node.call Node.PersistOk
      (fun r n' => r = .ok () ∧ ∃ id o, Follows n₀ k n' ∧ n'.Holds k id o ∧ o.c.kind = kind) n := by
  -- the branches that allocate and store
  have create : (do
      let id ← engine (.newObj kind)
      engine (.dbStore key (.obj kind id)) : Script Unit).Meets Node.call Node.PersistOk
        (fun r n' => r = .ok () ∧ ∃ id o, Follows n₀ k n' ∧ n'.Holds k id o ∧ o.c.kind = kind)
        n := by
    obtain ⟨n₁, allocated, wf, unplaced, content, queue, loadState, persistLevel⟩ :=
      follows.wf.newObj kind
    have follows₁ : Follows n₀ k n₁ := by
      obtain ⟨rows, tracks⟩ := follows.tracks
      refine ⟨⟨rows, wf, ?_, ?_, ?_⟩, ?_, ?_⟩
      · rw [content]
        exact tracks.mirror
      · rw [Persists, loadState, persistLevel, queue]
        exact tracks.synced
      · rw [Persists, loadState, persistLevel, queue]
        exact tracks.cuts
      · rw [Persists, loadState, persistLevel]
        exact follows.persists
      · rw [content]
        exact follows.frame
    obtain ⟨n₂, stored, changes, holds⟩ := wf.rbDbStore_new known unplaced
    have follows₂ : Follows n₀ k n₂ := by
      refine follows₁.changes changes ?_ fun _ => through_deleteNotices
      intro rows mirrors
      rw [show bioWorker rows (deleteNotices k (n₁.content k)) = [] from
        mirrors_deleteNotices mirrors]
      exact mirrors_alloc k kind
    refine Prog.Meets.bind_ok (congrArg some allocated) ?_
    refine Prog.Meets.of_ok (congrArg some stored) ?_
    exact ⟨rfl, _, _, follows₂, holds, by cases kind <;> rfl⟩
  rcases follows.wf.content_cases k with ⟨missing, _⟩ | ⟨s, found, _⟩ | ⟨id, o, holds⟩
  · exact Prog.Meets.bind_ok (congrArg some (rbDbRef_none known missing)) create
  · exact Prog.Meets.bind_ok (congrArg some (rbDbRef_string known found)) create
  · refine Prog.Meets.bind_ok (congrArg some (rbDbRef_object known holds)) ?_
    by_cases same : o.c.kind = kind
    · simp only [if_pos same]
      exact ⟨rfl, id, o, follows, holds, same⟩
    · simp only [if_neg same]
      exact create

/-- Look the key up and go on by what it holds. -/
theorem keeps_dbRef {α : Type} (before : n₀.Sound) (known : stringValueCStr key = .ok k)
    {rest : Val → Script α}
    (missing : n₀.content k = none → Keeps n₀ (rest .nil))
    (string : ∀ s, n₀.db k = some (.string s) → Keeps n₀ (rest (.str s.toR)))
    (object : ∀ id o, n₀.Holds k id o → Keeps n₀ (rest (.obj o.c.kind id))) :
    Keeps n₀ (engine (.dbRef key) >>= rest) := by
  have wf : n₀.Wf := (before.follows k).wf
  rcases wf.content_cases k with ⟨absent, nothing⟩ | ⟨s, found, _⟩ | ⟨id, o, holds⟩
  · exact Prog.Meets.bind_ok (congrArg some (rbDbRef_none known absent)) (missing nothing)
  · exact Prog.Meets.bind_ok (congrArg some (rbDbRef_string known found)) (string s found)
  · exact Prog.Meets.bind_ok (congrArg some (rbDbRef_object known holds)) (object id o holds)

end Key

/-! ## Strings and keys -/

theorem keeps_set {n : Node} (sound : n.Sound) (argv : List RStr) : Keeps n (Command.set argv) := by
  match argv with
  | [] => exact sound
  | [_] => exact sound
  | key :: data :: _ =>
      refine keeps_unlessLocal sound ?_
      intro k known
      have follows := sound.follows k
      cases value : stringValueCStr data with
      | ok d =>
          obtain ⟨n', stored, changes⟩ := follows.wf.rbDbStore_string known value
          have after : n'.Sound := by
            refine (follows.changes changes (fun _ mirrors => mirrors_setNotices mirrors d)
              fun _ mirrors => through_setNotices mirrors d).sound sound ?_
            rw [changes.content_self]
            intro c isContainer
            cases isContainer
          refine Prog.Meets.bind_ok (congrArg some stored) ?_
          exact keeps_exec after key true fun shard => keeps_ret (after.shard shard) _
      | error e =>
          intro guard
          have nul : 0 ∈ data := by
            by_contra proper
            simp [stringValueCStr, proper] at value
          have notString : ∀ s, n.db k ≠ some (.string s) :=
            fun s found => guard nul ⟨k, s, known, found⟩
          obtain ⟨n', raised, changes⟩ := follows.wf.rbDbStore_raise known value notString
          refine ⟨_, _, congrArg some raised, ?_⟩
          refine (follows.changes changes (fun _ => mirrors_deleteNotices)
            fun _ => through_deleteNotices).sound sound ?_
          rw [changes.content_self]
          intro c isContainer
          cases isContainer

theorem keeps_delete {n : Node} (sound : n.Sound) (argv : List RStr) :
    Keeps n (Command.delete argv) := by
  match argv with
  | [] => exact sound
  | key :: _ =>
      have finish : ∀ k, stringValueCStr key = .ok k → Keeps n (do
          engine (.dbDelete key)
          exec key false
          pure (text "-OK") : Script Reply) :=
        fun k known => keeps_deleteKey sound (sound.follows k) known
          fun n' after => keeps_ret after _
      cases known : stringValueCStr key with
      | error e =>
          have raised : n.shard.includes key = .error e := by
            simp only [KeyShard.includes, keyToSlot, crc16, known, Except.map]
          exact Prog.Meets.bind_error (by simp only [Node.call, raised]; rfl) sound
      | ok k =>
          cases included : n.shard.includes key with
          | error e => exact Prog.Meets.bind_error (by simp only [Node.call, included]; rfl) sound
          | ok mine =>
              refine Prog.Meets.bind_ok (by simp only [Node.call, included]; rfl) ?_
              cases mine with
              | true => exact finish k known
              | false => exact Prog.Meets.bind_error rfl sound

/-- LCLEAR, MCLEAR and SCLEAR: a key of the right class is deleted. -/
theorem keeps_clear {n : Node} (sound : n.Sound) {key : RStr} (kind : Kind)
    {rest : Val → Script Reply}
    (hit : ∀ id, rest (.obj kind id) = (do
      engine (.dbDelete key)
      exec key false
      pure (text "-OK")))
    (miss : ∀ v, (∀ id, v ≠ .obj kind id) → rest v = pure (text "-nil")) (query : RStr) :
    Keeps n (unlessLocal key query (engine (.dbRef key) >>= rest)) := by
  refine keeps_unlessLocal sound ?_
  intro k known
  refine keeps_dbRef sound known ?_ ?_ ?_
  · intro _
    rw [miss .nil (by simp)]
    exact sound
  · intro s _
    rw [miss (.str s.toR) (by simp)]
    exact sound
  · intro id o holds
    by_cases same : o.c.kind = kind
    · rw [same, hit]
      exact keeps_deleteKey sound (sound.follows k) known fun n' after => keeps_ret after _
    · rw [miss _ (by intro id' equal; cases equal; exact same rfl)]
      exact sound

theorem keeps_sClear {n : Node} (sound : n.Sound) (argv : List RStr) :
    Keeps n (Command.sClear argv) := by
  match argv with
  | [] => exact sound
  | key :: _ =>
      refine keeps_clear sound .set (fun id => rfl) ?_ _
      intro v other
      match v with
      | .nil => rfl
      | .str _ => rfl
      | .obj .list _ => rfl
      | .obj .hashmap _ => rfl
      | .obj .set id => exact absurd rfl (other id)

theorem keeps_mClear {n : Node} (sound : n.Sound) (argv : List RStr) :
    Keeps n (Command.mClear argv) := by
  match argv with
  | [] => exact sound
  | key :: _ =>
      refine keeps_clear sound .hashmap (fun id => rfl) ?_ _
      intro v other
      match v with
      | .nil => rfl
      | .str _ => rfl
      | .obj .list _ => rfl
      | .obj .hashmap id => exact absurd rfl (other id)
      | .obj .set _ => rfl

theorem keeps_lClear {n : Node} (sound : n.Sound) (argv : List RStr) :
    Keeps n (Command.lClear argv) := by
  match argv with
  | [] => exact sound
  | key :: _ =>
      refine keeps_clear sound .list (fun id => rfl) ?_ _
      intro v other
      match v with
      | .nil => rfl
      | .str _ => rfl
      | .obj .list id => exact absurd rfl (other id)
      | .obj .hashmap _ => rfl
      | .obj .set _ => rfl

/-! ## Adding to containers -/

section Object

variable {n₀ n : Node} {key : RStr} {k : CStr} {id : Nat} {o : Obj}

/-- The object under the key is not empty. -/
theorem Node.Follows.sound_of_holds (follows : Follows n₀ k n) (before : n₀.Sound)
    (holds : n.Holds k id o) (nonempty : ¬ o.c.IsEmpty) : n.Sound := by
  refine follows.sound before ?_
  rw [holds.content]
  intro c same
  cases same
  exact nonempty

theorem Node.Holds.mapOf (holds : n.Holds k id o) {nodes : Skiplist CStr} {num : Int}
    (isMap : o.c = .hashmap nodes num) : n.mapOf id = some nodes := by
  cases o
  subst isMap
  simp only [Node.mapOf, holds.obj]

theorem Node.Holds.setOf (holds : n.Holds k id o) {nodes : Skiplist Unit} {num : Int}
    (isSet : o.c = .set nodes num) : n.setOf id = some nodes := by
  cases o
  subst isSet
  simp only [Node.setOf, holds.obj]

theorem Node.Holds.listOf (holds : n.Holds k id o) {elems : List CStr}
    (isList : o.c = .list elems) :
    n.listOf id = some elems := by
  cases o
  subst isList
  simp only [Node.listOf, holds.obj]

theorem exists_hashmap {c : Container} (kind : c.kind = .hashmap) :
    ∃ nodes num, c = .hashmap nodes num := by
  cases c with
  | hashmap nodes num => exact ⟨nodes, num, rfl⟩
  | _ => cases kind

theorem exists_set {c : Container} (kind : c.kind = .set) : ∃ nodes num, c = .set nodes num := by
  cases c with
  | set nodes num => exact ⟨nodes, num, rfl⟩
  | _ => cases kind

theorem exists_list {c : Container} (kind : c.kind = .list) : ∃ elems, c = .list elems := by
  cases c with
  | list elems => exact ⟨elems, rfl⟩
  | _ => cases kind

/-- `db[key] = Class.new unless ...`, then work on the object under the key. -/
theorem keeps_ensure (before : n₀.Sound) (known : stringValueCStr key = .ok k) (kind : Kind)
    {rest : Val → Script Reply}
    (work : ∀ n id o, Follows n₀ k n → n.Holds k id o → o.c.kind = kind →
      Keeps n (rest (.obj kind id))) :
    Keeps n₀ (ensure key kind >>= fun _ => engine (.dbRef key) >>= rest) := by
  refine Prog.Meets.bind ((meets_ensure (before.follows k) known kind).mono ?_)
  intro r n₁ ensured
  obtain ⟨rfl, id, o, follows, holds, isKind⟩ := ensured
  refine Prog.Meets.bind_ok (congrArg some (rbDbRef_object known holds)) ?_
  rw [isKind]
  exact work n₁ id o follows holds isKind

end Object

theorem keeps_mAdd {n : Node} (sound : n.Sound) (argv : List RStr) :
    Keeps n (Command.mAdd argv) := by
  match argv with
  | [] => exact sound
  | [_] => exact sound
  | [_, _] => exact sound
  | key :: hkey :: data :: _ =>
      refine keeps_unlessLocal sound ?_
      intro k known
      refine keeps_ensure sound known .hashmap ?_
      intro n₁ id o follows holds isMap
      obtain ⟨nodes, num, isMap⟩ := exists_hashmap isMap
      intro guard
      have guard := guard nodes (holds.mapOf isMap)
      have raised : nodes ≠ [] → n₁.Sound :=
        fun nonempty => follows.sound_of_holds sound holds (by rw [isMap]; exact nonempty)
      cases value : stringValueCStr data with
      | error e =>
          rw [if_pos (mem_of_raises value)] at guard
          cases subkey : stringValueCStr hkey with
          | error e' =>
              refine ⟨.error e', n₁, ?_, raised guard⟩
              simp only [Node.call, rbHashmapStore, onMap, holds.obj, isMap, subkey]
          | ok h' =>
              refine ⟨.error e, n₁, ?_, raised guard⟩
              simp only [Node.call, rbHashmapStore, onMap, holds.obj, isMap, subkey, value]
      | ok d =>
          rw [if_neg (not_mem_of_ok value)] at guard
          cases subkey : stringValueCStr hkey with
          | error e' =>
              simp only [SubkeyOk, subkey] at guard
              refine ⟨.error e', n₁, ?_, raised guard⟩
              simp only [Node.call, rbHashmapStore, onMap, holds.obj, isMap, subkey]
          | ok h' =>
              simp only [SubkeyOk, subkey] at guard
              obtain ⟨n₂, nodes', num', stored, follows₂, holds₂, nonempty⟩ :=
                follows.mapStore holds isMap subkey value guard
              have after : n₂.Sound := follows₂.sound_of_holds sound holds₂ nonempty
              refine ⟨_, _, stored, ?_⟩
              exact keeps_exec after key true fun shard => keeps_ret (after.shard shard) _

/-- The loop of SADD adds something, or raises on a set that is not empty. -/
theorem meets_sAddLoop {n₀ : Node} (before : n₀.Sound) {k : CStr} (args : List RStr) {id : Nat} :
    ∀ {n : Node} {o : Obj} {nodes : Skiplist Unit} {num : Int} (rv : Nat), Follows n₀ k n →
      n.Holds k id o → o.c = .set nodes num → (nodes ≠ [] ∨ args ≠ []) →
      (sAddLoop id rv args).Meets Node.call Node.PersistOk (fun _ n' => n'.Sound) n := by
  induction args with
  | nil =>
      intro n o nodes num rv follows holds isSet nonempty
      have nonempty : nodes ≠ [] := nonempty.resolve_right (fun h => h rfl)
      exact follows.sound_of_holds before holds (by rw [isSet]; exact nonempty)
  | cons h rest ih =>
      intro n o nodes num rv follows holds isSet _ guard
      have guard := guard nodes (holds.setOf isSet)
      cases subkey : stringValueCStr h with
      | error e =>
          simp only [SubkeyOk, subkey] at guard
          refine ⟨.error e, n, ?_, follows.sound_of_holds before holds (by rw [isSet]; exact guard)⟩
          simp only [Node.call, rbSetAdd, onSet, holds.obj, isSet, subkey]
      | ok h' =>
          simp only [SubkeyOk, subkey] at guard
          obtain ⟨r, n', nodes', num', added, follows', holds', nonempty⟩ :=
            follows.setAdd holds isSet subkey guard
          exact ⟨_, _, added, ih _ follows' holds' rfl (Or.inl nonempty)⟩

theorem keeps_sAdd {n : Node} (sound : n.Sound) (argv : List RStr) :
    Keeps n (Command.sAdd argv) := by
  match argv with
  | [] => exact sound
  | [_] => exact sound
  | key :: hkey :: rest =>
      refine keeps_unlessLocal sound ?_
      intro k known
      refine keeps_ensure sound known .set ?_
      intro n₁ id o follows holds isSet
      obtain ⟨nodes, num, isSet⟩ := exists_set isSet
      refine Prog.Meets.bind ((meets_sAddLoop sound (hkey :: rest) 0 follows holds isSet
        (Or.inr (List.cons_ne_nil _ _))).mono ?_)
      intro r n₂ after
      cases r with
      | ok rv => exact keeps_exec after key true fun shard => keeps_ret (after.shard shard) _
      | error e => exact after

theorem keeps_lPush {n : Node} (sound : n.Sound) (argv : List RStr) :
    Keeps n (Command.lPush argv) := by
  match argv with
  | [] => exact sound
  | [_] => exact sound
  | key :: data :: _ =>
      refine keeps_unlessLocal sound ?_
      intro k known
      refine keeps_ensure sound known .list ?_
      intro n₁ id o follows holds isList
      obtain ⟨elems, isList⟩ := exists_list isList
      intro guard
      cases value : stringValueCStr data with
      | error e =>
          have nonempty : elems ≠ [] := by
            intro empty
            rw [empty] at isList
            exact guard (mem_of_raises value) (holds.listOf isList)
          refine ⟨.error e, n₁, ?_,
            follows.sound_of_holds sound holds (by rw [isList]; exact nonempty)⟩
          simp only [Node.call, rbListPush, onList, holds.obj, isList, value]
      | ok d =>
          obtain ⟨n₂, pushed, follows₂, holds₂⟩ := follows.listPush holds isList value
          have after : n₂.Sound :=
            follows₂.sound_of_holds sound holds₂ (by simp [Container.IsEmpty])
          refine ⟨_, _, congrArg some pushed, ?_⟩
          exact keeps_exec after key true fun shard => keeps_ret (after.shard shard) _

/-! ## Removing from containers -/

/-- The loop of SDEL keeps the rows in step, or raises on a set that is not
empty. -/
theorem meets_sDelLoop {n₀ : Node} (before : n₀.Sound) {k : CStr} (args : List RStr) {id : Nat} :
    ∀ {n : Node} {o : Obj} {nodes : Skiplist Unit} {num : Int} (rv : Nat), Follows n₀ k n →
      n.Holds k id o → o.c = .set nodes num →
      (sDelLoop id rv args).Meets Node.call Node.PersistOk (fun r n' =>
        match r with
        | .ok _ => Follows n₀ k n' ∧ ∃ o' nodes' num', n'.Holds k id o' ∧ o'.c = .set nodes' num'
        | .error _ => n'.Sound) n := by
  induction args with
  | nil =>
      intro n o nodes num rv follows holds isSet
      exact ⟨follows, o, nodes, num, holds, isSet⟩
  | cons h rest ih =>
      intro n o nodes num rv follows holds isSet guard
      have guard := guard nodes (holds.setOf isSet)
      cases subkey : stringValueCStr h with
      | error e =>
          simp only [SubkeyOk, subkey] at guard
          refine ⟨.error e, n, ?_, follows.sound_of_holds before holds (by rw [isSet]; exact guard)⟩
          simp only [Node.call, rbSetRemove, onSet, holds.obj, isSet, subkey]
      | ok h' =>
          simp only [SubkeyOk, subkey] at guard
          obtain ⟨r, n', nodes', num', removed, follows', holds'⟩ :=
            follows.setRemove holds isSet subkey guard
          exact ⟨_, _, removed, ih _ follows' holds' rfl⟩

theorem meets_mDelLoop {n₀ : Node} (before : n₀.Sound) {k : CStr} (args : List RStr) {id : Nat} :
    ∀ {n : Node} {o : Obj} {nodes : Skiplist CStr} {num : Int} (rv : Nat), Follows n₀ k n →
      n.Holds k id o → o.c = .hashmap nodes num →
      (mDelLoop id rv args).Meets Node.call Node.PersistOk (fun r n' =>
        match r with
        | .ok _ => Follows n₀ k n' ∧ ∃ o' nodes' num', n'.Holds k id o' ∧
            o'.c = .hashmap nodes' num'
        | .error _ => n'.Sound) n := by
  induction args with
  | nil =>
      intro n o nodes num rv follows holds isMap
      exact ⟨follows, o, nodes, num, holds, isMap⟩
  | cons h rest ih =>
      intro n o nodes num rv follows holds isMap guard
      have guard := guard nodes (holds.mapOf isMap)
      cases subkey : stringValueCStr h with
      | error e =>
          simp only [SubkeyOk, subkey] at guard
          refine ⟨.error e, n, ?_, follows.sound_of_holds before holds (by rw [isMap]; exact guard)⟩
          simp only [Node.call, rbHashmapDelete, onMap, holds.obj, isMap, subkey]
      | ok h' =>
          simp only [SubkeyOk, subkey] at guard
          obtain ⟨r, n', nodes', num', removed, follows', holds'⟩ :=
            follows.mapDelete holds isMap subkey guard
          exact ⟨_, _, removed, ih _ follows' holds' rfl⟩

/-- `unless container.size > 0` after removals: an emptied container leaves the
database, and so does one whose size is no longer a positive `int`. -/
theorem keeps_unlessSize {n₀ n : Node} (before : n₀.Sound) {key : RStr} {k : CStr}
    (known : stringValueCStr key = .ok k) (follows : Follows n₀ k n) {id : Nat} {o : Obj}
    (holds : n.Holds k id o) {size : Int} (empty : o.c.IsEmpty → ¬ 0 < size) (reply : Reply) :
    Keeps n (if ¬ 0 < size then
      (engine (.dbDelete key) >>= fun _ => exec key false >>= fun _ => pure reply)
      else pure reply) := by
  by_cases gone : ¬ 0 < size
  · rw [if_pos gone]
    exact keeps_deleteKey before follows known fun n' after => keeps_ret after _
  · rw [if_neg gone]
    exact follows.sound_of_holds before holds fun isEmpty => gone (empty isEmpty)

theorem Skiplist.Clean.size_nil {β : Type} {num : Int}
    (clean : Skiplist.Clean ([] : Skiplist β) num) :
    ¬ 0 < num := by
  rw [clean.counted]
  simp

theorem keeps_sDel {n : Node} (sound : n.Sound) (argv : List RStr) :
    Keeps n (Command.sDel argv) := by
  match argv with
  | [] => exact sound
  | [_] => exact sound
  | key :: hkey :: rest =>
      refine keeps_unlessLocal sound ?_
      intro k known
      refine keeps_dbRef sound known (fun _ => sound) (fun _ _ => sound) ?_
      intro id o holds
      cases data : o.c with
      | list elems => exact sound
      | hashmap nodes num => exact sound
      | set nodes num =>
          refine Prog.Meets.bind
            ((meets_sDelLoop sound (hkey :: rest) 0 (sound.follows k) holds data).mono ?_)
          intro r n₁ removed
          cases r with
          | error e => exact removed
          | ok rv =>
              obtain ⟨follows, o', nodes', num', holds', data'⟩ := removed
              have size : Node.call n₁ (.setSize id) = some (.ok num', n₁) := by
                simp only [Node.call, rbSetSize, onSet, holds'.obj, data']
              refine Prog.Meets.bind_ok size ?_
              refine keeps_unlessSize sound known follows holds' ?_ _
              rw [data']
              intro same
              obtain rfl := same
              exact (follows.clean_set holds' data').size_nil

theorem keeps_mDel {n : Node} (sound : n.Sound) (argv : List RStr) :
    Keeps n (Command.mDel argv) := by
  match argv with
  | [] => exact sound
  | key :: rest =>
      refine keeps_unlessLocal sound ?_
      intro k known
      refine keeps_dbRef sound known (fun _ => sound) (fun _ _ => sound) ?_
      intro id o holds
      cases data : o.c with
      | list elems => exact sound
      | set nodes num => exact sound
      | hashmap nodes num =>
          refine Prog.Meets.bind
            ((meets_mDelLoop sound rest 0 (sound.follows k) holds data).mono ?_)
          intro r n₁ removed
          cases r with
          | error e => exact removed
          | ok rv =>
              obtain ⟨follows, o', nodes', num', holds', data'⟩ := removed
              have size : Node.call n₁ (.mapSize id) = some (.ok num', n₁) := by
                simp only [Node.call, rbHashmapSize, onMap, holds'.obj, data']
              refine Prog.Meets.bind_ok size ?_
              refine keeps_unlessSize sound known follows holds' ?_ _
              rw [data']
              intro same
              obtain rfl := same
              exact (follows.clean_map holds' data').size_nil

/-! ## Lists -/

theorem num2int_bounds (i : Int) :
    ((-2 ^ 31 ≤ i ∧ i < 2 ^ 31) ∧ num2int i = .ok i) ∨
      (¬ (-2 ^ 31 ≤ i ∧ i < 2 ^ 31) ∧ num2int i = .error .rangeError) := by
  unfold num2int
  split
  · rename_i inside
    exact Or.inl ⟨inside, rfl⟩
  · rename_i outside
    exact Or.inr ⟨outside, rfl⟩

theorem num2int_cases (i : Int) : num2int i = .ok i ∨ num2int i = .error .rangeError :=
  (num2int_bounds i).imp And.right And.right

theorem listRef_lt {elems : List CStr} {i : Int} {pos : Nat} {data : CStr}
    (found : listRef elems i = some (pos, data)) : elems ≠ [] := by
  intro empty
  simp [listRef, empty] at found

theorem keeps_lSet {n : Node} (sound : n.Sound) (argv : List RStr) :
    Keeps n (Command.lSet argv) := by
  match argv with
  | [] => exact sound
  | [_] => exact sound
  | [_, _] => exact sound
  | key :: idx :: data :: _ =>
      by_cases number : isI idx = true
      case neg =>
        simp only [Command.lSet, number, if_false, Bool.false_eq_true]
        exact sound
      case pos =>
        simp only [Command.lSet, number, if_true]
        refine keeps_unlessLocal sound ?_
        intro k known
        refine keeps_dbRef sound known (fun _ => sound) (fun _ _ => sound) ?_
        intro id o holds
        cases stored : o.c with
        | hashmap nodes num => exact sound
        | set nodes num => exact sound
        | list elems =>
            have reply : ∀ n', n'.Sound →
                Keeps n' (exec key true >>= fun _ => pure (text "-OK")) :=
              fun n' after => keeps_exec after key true fun shard => keeps_ret (after.shard shard) _
            intro guard
            rcases num2int_cases (toI idx) with inRange | outside
            · cases found : listRef elems (toI idx) with
              | none =>
                  refine ⟨.ok (), n, ?_, reply n sound⟩
                  simp only [Node.call, rbListSet, onList, holds.obj, stored, inRange, found]
              | some hit =>
                  obtain ⟨pos, old⟩ := hit
                  cases value : stringValueCStr data with
                  | error e =>
                      refine ⟨.error e, n, ?_, sound⟩
                      simp only [Node.call, rbListSet, onList, holds.obj, stored, inRange, found,
                        value]
                  | ok d =>
                      have first := guard elems pos old d (holds.listOf stored) found value
                      obtain ⟨n', set, follows, holds'⟩ :=
                        (sound.follows k).listSet holds stored inRange found value first
                      refine ⟨_, _, congrArg some set, reply n' ?_⟩
                      refine follows.sound_of_holds sound holds' ?_
                      intro empty
                      have lengths := congrArg List.length
                        (show elems.set pos d = [] from empty)
                      rw [List.length_set, List.length_nil, List.length_eq_zero_iff] at lengths
                      exact listRef_lt found lengths
            · refine ⟨.error .rangeError, n, ?_, sound⟩
              simp only [Node.call, rbListSet, onList, holds.obj, stored, outside]

section Pop

variable {n₀ n : Node} {key : RStr} {k : CStr} {id : Nat} {o : Obj} {elems : List CStr}

theorem call_listLength (holds : n.Holds k id o) (isList : o.c = .list elems) :
    Node.call n (.listLength id) = some (.ok (int32 elems.length), n) := by
  simp only [Node.call, rbListLength, onList, holds.obj, isList]

theorem meets_fromEnd (holds : n.Holds k id o) (isList : o.c = .list elems) (bound : Int) :
    (fromEnd id bound).Meets Node.call Node.PersistOk (fun r n' => n' = n ∧ ∃ b, r = .ok b) n := by
  unfold fromEnd
  split
  · exact ⟨rfl, _, rfl⟩
  · exact Prog.Meets.bind_ok (call_listLength holds isList) ⟨rfl, _, rfl⟩

/-- The emptied list leaves the database, and so does one whose length is no longer a
positive `int`. -/
theorem meets_lPopEmpty (before : n₀.Sound) (known : stringValueCStr key = .ok k)
    (follows : Follows n₀ k n) (holds : n.Holds k id o) (isList : o.c = .list elems) :
    Keeps n (lPopEmpty key id) := by
  have len := call_listLength holds isList
  have full : elems = [] → ¬ 0 < int32 elems.length := by
    intro same
    obtain rfl := same
    simp
  generalize int32 elems.length = size at len full
  refine Prog.Meets.bind_ok len ?_
  by_cases gone : ¬ 0 < size
  · rw [if_pos gone]
    refine Prog.Meets.bind_ok len ?_
    rw [if_pos gone]
    exact keeps_deleteKey before follows known fun n' after => keeps_ret after ()
  · rw [if_neg gone]
    refine follows.sound_of_holds before holds ?_
    rw [isList]
    exact fun empty => gone (full empty)

/-- The pops of a range; the index is in range for `int`, so none of them
raises. -/
theorem meets_lPopLoop {i : Int} (inRange : num2int i = .ok i) (count : Nat) :
    ∀ {n : Node} {o : Obj} {elems : List CStr}, Follows n₀ k n → n.Holds k id o →
      o.c = .list elems →
      (lPopLoop id i count).Meets Node.call Node.PersistOk (fun r n' =>
        (∃ rv, r = .ok rv) ∧ Follows n₀ k n' ∧
          ∃ o' elems', n'.Holds k id o' ∧ o'.c = .list elems') n := by
  induction count with
  | zero =>
      intro n o elems follows holds isList
      exact ⟨⟨_, rfl⟩, follows, o, elems, holds, isList⟩
  | succ count ih =>
      intro n o elems follows holds isList
      -- the rest of the loop, from the node the pop leaves
      have later : ∀ (word : RStr) {n' : Node} {o' : Obj} {elems' : List CStr},
          Follows n₀ k n' → n'.Holds k id o' → o'.c = .list elems' →
          (lPopLoop id i count >>= fun rv => pure (word :: rv) : Script (List RStr)).Meets
            Node.call Node.PersistOk
            (fun r n' => (∃ rv, r = .ok rv) ∧ Follows n₀ k n' ∧
              ∃ o' elems', n'.Holds k id o' ∧ o'.c = .list elems') n' := by
        intro word n' o' elems' follows' holds' isList'
        refine Prog.Meets.bind ((ih follows' holds' isList').mono ?_)
        intro r n'' after
        obtain ⟨⟨rv, rfl⟩, after⟩ := after
        exact ⟨⟨_, rfl⟩, after⟩
      intro guard
      cases found : listRef elems i with
      | none =>
          refine ⟨.ok none, n, ?_, later (lit "-nil") follows holds isList⟩
          simp only [Node.call, rbListPop, onList, holds.obj, isList, inRange, found]
      | some hit =>
          obtain ⟨pos, data⟩ := hit
          have first := guard elems pos data (holds.listOf isList) found
          obtain ⟨n', popped, follows', holds'⟩ := follows.listPop holds isList inRange found first
          exact ⟨_, _, congrArg some popped, later (lit "+" ++ data.toR) follows' holds' rfl⟩

end Pop

theorem keeps_lPopIndex {n : Node} (sound : n.Sound) {key : RStr} {k : CStr}
    (known : stringValueCStr key = .ok k) (i : Int) : Keeps n (lPopIndex key i) := by
  refine keeps_dbRef sound known (fun _ => sound) (fun _ _ => sound) ?_
  intro id o holds
  cases stored : o.c with
  | hashmap nodes num => exact sound
  | set nodes num => exact sound
  | list elems =>
      intro guard
      rcases num2int_cases i with inRange | outside
      · cases found : listRef elems i with
        | none =>
            refine ⟨.ok none, n, ?_, sound⟩
            simp only [Node.call, rbListPop, onList, holds.obj, stored, inRange, found]
        | some hit =>
            obtain ⟨pos, data⟩ := hit
            have first := guard elems pos data (holds.listOf stored) found
            obtain ⟨n', popped, follows, holds'⟩ :=
              (sound.follows k).listPop holds stored inRange found first
            refine ⟨_, _, congrArg some popped, ?_⟩
            show Keeps n' (lPopEmpty key id >>= fun _ => pure (Reply.text (lit "+" ++ data.toR)))
            refine Prog.Meets.bind ((meets_lPopEmpty sound known follows holds' rfl).mono ?_)
            intro r n'' after
            cases r with
            | ok u => exact after
            | error e => exact after
      · refine ⟨.error .rangeError, n, ?_, sound⟩
        simp only [Node.call, rbListPop, onList, holds.obj, stored, outside]

theorem keeps_lPopRange {n : Node} (sound : n.Sound) {key : RStr} {k : CStr}
    (known : stringValueCStr key = .ok k) (idx : RStr) (low high : Int) :
    Keeps n (lPopRange key idx low high) := by
  refine keeps_dbRef sound known (fun _ => sound) (fun _ _ => sound) ?_
  intro id o holds
  cases stored : o.c with
  | hashmap nodes num => exact sound
  | set nodes num => exact sound
  | list elems =>
      refine Prog.Meets.bind ((meets_fromEnd holds stored low).mono ?_)
      intro r n₁ found
      obtain ⟨rfl, low, rfl⟩ := found
      refine Prog.Meets.bind ((meets_fromEnd holds stored high).mono ?_)
      intro r n₁ found
      obtain ⟨rfl, high, rfl⟩ := found
      dsimp only
      split
      case isFalse => exact sound
      case isTrue =>
        rcases num2int_cases low with inRange | outside
        · refine Prog.Meets.bind
            ((meets_lPopLoop inRange (high - low + 1).toNat (sound.follows k) holds stored).mono ?_)
          intro r n₂ found
          obtain ⟨⟨rv, rfl⟩, follows, o', elems', holds', isList'⟩ := found
          refine Prog.Meets.bind ((meets_lPopEmpty sound known follows holds' isList').mono ?_)
          intro r n₃ after
          cases r with
          | ok u => exact after
          | error e => exact after
        · -- the range is not empty, and its first pop raises
          cases count : (high - low + 1).toNat with
          | zero => omega
          | succ count =>
              have raises : Node.call n₁ (.listPop id low) = some (.error .rangeError, n₁) := by
                simp only [Node.call, rbListPop, onList, holds.obj, stored, outside]
              exact Prog.Meets.bind_error raises sound

theorem keeps_lPop {n : Node} (sound : n.Sound) (argv : List RStr) :
    Keeps n (Command.lPop argv) := by
  match argv with
  | [] => exact sound
  | [_] => exact sound
  | key :: idx :: _ =>
      refine keeps_unlessLocal sound ?_
      intro k known
      by_cases number : isI idx = true
      · simp only [number, if_true]
        exact keeps_lPopIndex sound known (toI idx)
      · simp only [number, if_false, Bool.false_eq_true]
        cases rangeOf idx with
        | error e => exact sound
        | ok range =>
            match range with
            | none => exact sound
            | some (low, high) => exact keeps_lPopRange sound known idx low high

/-! ## Runs of commands -/

/-- The commands that write. -/
def Cmd.Writes (cmd : Cmd) : Prop :=
  cmd ∈ [Cmd.set, .delete, .mAdd, .mDel, .mClear, .sAdd, .sDel, .sClear, .lPush,
    .lSet, .lPop, .lClear]

theorem keeps_exec_of_writes {n : Node} (sound : n.Sound) {cmd : Cmd} (writes : cmd.Writes)
    (argv : List RStr) : Keeps n (cmd.exec argv) := by
  cases cmd with
  | set => exact keeps_set sound argv
  | delete => exact keeps_delete sound argv
  | mAdd => exact keeps_mAdd sound argv
  | mDel => exact keeps_mDel sound argv
  | mClear => exact keeps_mClear sound argv
  | sAdd => exact keeps_sAdd sound argv
  | sDel => exact keeps_sDel sound argv
  | sClear => exact keeps_sClear sound argv
  | lPush => exact keeps_lPush sound argv
  | lSet => exact keeps_lSet sound argv
  | lPop => exact keeps_lPop sound argv
  | lClear => exact keeps_lClear sound argv
  | _ => simp [Cmd.Writes] at writes

/-- Serve a request; `none` if the process crashes. -/
def Node.serve (n : Node) (r : Request) : Option Node := (r.script.run Node.call n).map (·.2)

/-- Every engine call of the request meets the guard. -/
def Node.Persistable (n : Node) (r : Request) : Prop := r.script.Guarded Node.call Node.PersistOk n

theorem keeps_request {n : Node} (sound : n.Sound) {r : Request} (writes : r.cmd.Writes) :
    Keeps n r.script := by
  unfold Request.script Cmd.start
  split
  · split
    · exact sound
    · exact keeps_exec_of_writes sound writes r.argv
  · exact keeps_exec_of_writes sound writes r.argv

theorem Node.Sound.serve {n : Node} (sound : n.Sound) {r : Request} (writes : r.cmd.Writes)
    (guard : n.Persistable r) : ∃ n', n.serve r = some n' ∧ n'.Sound := by
  obtain ⟨reply, n', ran, after⟩ := Prog.Meets.run (keeps_request sound writes) guard
  exact ⟨n', by rw [Node.serve, ran]; rfl, after⟩

end XFireDB
