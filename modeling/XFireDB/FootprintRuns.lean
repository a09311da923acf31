import XFireDB.Footprint

/-!
# Runs of commands that stay

Two runs of a command on nodes that agree on its region, what such a run spares,
and the commands that only read.
-/

namespace XFireDB

open Lib Command

variable {R : Region} {P : RStr → RStr → Prop} {key : RStr} {id : Nat}

/-! ## Running a command that stays -/

/-- Calls on behalf of one request.  A request makes at most one container
object, and the object has the request's number for its name. -/
def Node.callAs (number : Nat) : Prog.Handler Call Raise Node :=
  fun n c => Node.call { n with fresh := number } c

namespace Region

/-- Agreement on the region alone. -/
structure Meet (R : Region) (n n' : Node) : Prop where
  db : ∀ k, R.keys k → n'.db k = n.db k
  objs : ∀ id, R.ids id → n'.objs id = n.objs id
  slots : n'.shard.slots = n.shard.slots

/-- The objects in the region's part of the database are the region's. -/
def Closed (R : Region) (n : Node) : Prop :=
  ∀ k id, R.keys k → n.db k = some (.object id) → R.ids id

variable {n n' n'' : Node} {number : Nat}

theorem Meet.refl (R : Region) (n : Node) : R.Meet n n := ⟨fun _ _ => rfl, fun _ _ => rfl, rfl⟩

theorem Meet.symm (meet : R.Meet n n') : R.Meet n' n :=
  ⟨fun k mine => (meet.db k mine).symm, fun id mine => (meet.objs id mine).symm, meet.slots.symm⟩

theorem Meet.trans (first : R.Meet n n') (second : R.Meet n' n'') : R.Meet n n'' :=
  ⟨fun k mine => (second.db k mine).trans (first.db k mine),
    fun id mine => (second.objs id mine).trans (first.objs id mine), second.slots.trans first.slots⟩

theorem Agree.meet {n₀ : Node} (agree : R.Agree n₀ n n') : R.Meet n n' :=
  ⟨agree.db, agree.objs, agree.slots⟩

theorem Meet.agree (meet : R.Meet n n') (closed : R.Closed n) : R.Agree n n n' :=
  ⟨meet.db, meet.objs, meet.slots, closed, fun _ _ => rfl, fun _ _ => rfl, rfl⟩

theorem Agree.tied {n₀ : Node} (agree : R.Agree n₀ n n') (number : Nat) :
    R.Tied { n₀ with fresh := number } { n with fresh := number } { n' with fresh := number } :=
  ⟨⟨agree.db, agree.objs, agree.slots, agree.held, agree.dbOut, agree.objsOut, agree.slotsOut⟩, rfl,
    le_rfl⟩

theorem Agree.callAs {n₀ : Node} {β : Type} {c : Call β} (agree : R.Agree n₀ n n')
    (mine : R.ids number) (inside : R.Inside c) :
    Prog.SameOutcome (R.Agree n₀) (n.callAs number c) (n'.callAs number c) :=
  ((agree.tied number).call mine inside).mono fun _ _ tied =>
    ⟨tied.db, tied.objs, tied.slots, tied.held, tied.dbOut, tied.objsOut, tied.slotsOut⟩

theorem Agree.callAs_gives {n₀ : Node} {β : Type} {c : Call β} (agree : R.Agree n₀ n n')
    (mine : R.ids number) (inside : R.Inside c) {b : β} {t : Node}
    (handled : n.callAs number c = some (.ok b, t)) : R.Gives c b :=
  (agree.tied number).call_gives mine inside handled

end Region

section Runs

variable {n n' : Node} {number : Nat} {α : Type} {p : Script α}

/-- On two nodes that meet in the region, a script that stays gives the same
reply and nodes that meet again. -/
theorem Stays.run_meet (stays : Stays R P p) (mine : R.ids number) (closed : R.Closed n)
    (meet : R.Meet n n') :
    Prog.SameOutcome R.Meet (p.run (Node.callAs number) n) (p.run (Node.callAs number) n') := by
  have same := Prog.Within.run_same (h := Node.callAs number) (R := R.Agree n)
    (fun _ _ _ permits agree => agree.callAs mine permits.1)
    (fun _ _ _ _ _ permits agree handled => agree.callAs_gives mine permits.1 handled)
    stays (meet.agree closed)
  exact same.mono fun _ _ agree => agree.meet

/-- A call of a script that stays spares what is outside the region. -/
theorem Region.Agree.callAs_spares {n₀ : Node} {β : Type} {c : Call β}
    {r : Except Raise β} {t : Node}
    (agree : R.Agree n₀ n n) (mine : R.ids number) (inside : R.Inside c)
    (handled : n.callAs number c = some (r, t)) : R.Agree n₀ t t := by
  have same := agree.callAs mine inside
  rw [handled] at same
  exact same.2

/-- So does its run. -/
theorem Stays.run_spares (stays : Stays R P p) (mine : R.ids number) (closed : R.Closed n)
    {r : Except Raise α} {t : Node} (ran : p.run (Node.callAs number) n = some (r, t)) :
    R.Agree n t t := by
  refine Prog.Within.run_keeps (h := Node.callAs number) (I := fun t => R.Agree n t t) ?_ stays
    ((Region.Meet.refl R n).agree closed) ran
  intro β c s r t permits agree handled
  refine ⟨agree.callAs_spares mine permits.1 handled, ?_⟩
  intro b same
  obtain rfl := same
  exact agree.callAs_gives mine permits.1 handled

end Runs

/-! ## Commands that read -/

/-- Calls that change nothing. -/
def Call.Reads : {β : Type} → Call β → Prop
  | _, .dbRef _ => True
  | _, .listRef _ _ => True
  | _, .listLength _ => True
  | _, .mapRef _ _ => True
  | _, .mapSize _ => True
  | _, .setInclude _ _ => True
  | _, .setSize _ => True
  | _, .shardInclude _ => True
  | _, .forward _ _ => True
  | _, _ => False

/-- Everything. -/
def Region.whole : Region := ⟨fun _ => True, fun _ => True⟩

theorem Region.Meet.of_whole {n n' : Node} (meet : Region.whole.Meet n n') (R : Region) :
    R.Meet n n' :=
  ⟨fun k _ => meet.db k trivial, fun id _ => meet.objs id trivial, meet.slots⟩

theorem onList_reads {β : Type} {n t : Node} {id : Nat} {f : Obj → List CStr → Outcome β}
    {r : Except Raise β} (reads : ∀ o elems, (f o elems).2 = n) (handled : n.onList id f = (r, t)) :
    t = n := by
  have after := congrArg Prod.snd handled
  unfold Node.onList at after
  split at after
  · split at after
    · rw [reads] at after
      exact after.symm
    · exact after.symm
  · exact after.symm

theorem onMap_reads {β : Type} {n t : Node} {id : Nat}
    {f : Obj → Skiplist CStr → Int → Option (Outcome β)} {r : Except Raise β}
    (reads : ∀ o nodes num x, f o nodes num = some x → x.2 = n)
    (handled : n.onMap id f = some (r, t)) : t = n := by
  unfold Node.onMap at handled
  split at handled
  · split at handled
    · exact reads _ _ _ _ handled
    · exact (congrArg Prod.snd (Option.some.inj handled)).symm
  · exact (congrArg Prod.snd (Option.some.inj handled)).symm

theorem onSet_reads {β : Type} {n t : Node} {id : Nat}
    {f : Obj → Skiplist Unit → Int → Option (Outcome β)} {r : Except Raise β}
    (reads : ∀ o nodes num x, f o nodes num = some x → x.2 = n)
    (handled : n.onSet id f = some (r, t)) : t = n := by
  unfold Node.onSet at handled
  split at handled
  · split at handled
    · exact reads _ _ _ _ handled
    · exact (congrArg Prod.snd (Option.some.inj handled)).symm
  · exact (congrArg Prod.snd (Option.some.inj handled)).symm

theorem Node.call_reads {β : Type} {c : Call β} (reads : c.Reads) {n t : Node} {r : Except Raise β}
    (handled : Node.call n c = some (r, t)) : t = n := by
  cases c with
  | dbRef key =>
      have after : (n.rbDbRef key).2 = t := congrArg Prod.snd (Option.some.inj handled)
      rw [← after]
      unfold Node.rbDbRef
      repeat' split
      all_goals rfl
  | listRef id i =>
      refine onList_reads ?_ (Option.some.inj handled)
      intro o elems
      split <;> rfl
  | listLength id => exact onList_reads (fun _ _ => rfl) (Option.some.inj handled)
  | mapRef id key =>
      refine onMap_reads ?_ handled
      intro o nodes num x found
      split at found
      · rw [← Option.some.inj found]
      · obtain ⟨_, _, rfl⟩ := Option.map_eq_some_iff.mp found
        rfl
  | mapSize id =>
      refine onMap_reads ?_ handled
      intro o nodes num x found
      rw [← Option.some.inj found]
  | setInclude id key =>
      refine onSet_reads ?_ handled
      intro o nodes num x found
      split at found
      · rw [← Option.some.inj found]
      · obtain ⟨_, _, rfl⟩ := Option.map_eq_some_iff.mp found
        rfl
  | setSize id =>
      refine onSet_reads ?_ handled
      intro o nodes num x found
      rw [← Option.some.inj found]
  | shardInclude key => exact (congrArg Prod.snd (Option.some.inj handled)).symm
  | forward key query => exact (congrArg Prod.snd (Option.some.inj handled)).symm
  | _ => exact reads.elim

theorem Node.callAs_reads {β : Type} {c : Call β} (reads : c.Reads) {n t : Node} {number : Nat}
    {r : Except Raise β} (handled : n.callAs number c = some (r, t)) : Region.whole.Meet n t := by
  rw [Node.call_reads reads handled]
  exact ⟨fun _ _ => rfl, fun _ _ => rfl, rfl⟩

/-- The commands that read. -/
def Cmd.Reads (cmd : Cmd) : Prop := cmd ∈ [Cmd.get, .mRef, .mSize, .sInclude, .lRef, .lSize]

instance : DecidablePred Cmd.Reads := fun cmd => inferInstanceAs (Decidable (cmd ∈ _))

/-- The script makes reading calls only. -/
abbrev ReadsOnly {α : Type} (p : Script α) : Prop :=
  p.Within (fun c => c.Reads) (fun _ _ => True)

theorem readsOnly_unlessLocal {query : RStr} {here : Script Reply} (reads : ReadsOnly here) :
    ReadsOnly (unlessLocal key query here) := by
  refine ⟨trivial, fun included _ => ?_⟩
  cases included with
  | true => exact reads
  | false => exact ⟨trivial, fun _ _ => trivial⟩

theorem readsOnly_mRefLoop (hkeys : List RStr) : ReadsOnly (mRefLoop id hkeys) := by
  induction hkeys with
  | nil => trivial
  | cons hkey rest ih => exact ⟨trivial, fun _ _ => ih.bind fun _ => trivial⟩

theorem readsOnly_sIncludeLoop (hkeys : List RStr) : ReadsOnly (sIncludeLoop id hkeys) := by
  induction hkeys with
  | nil => trivial
  | cons hkey rest ih => exact ⟨trivial, fun _ _ => ih.bind fun _ => trivial⟩

theorem readsOnly_lRefLoop (i : Int) (count : Nat) : ReadsOnly (lRefLoop id i count) := by
  induction count generalizing i with
  | zero => trivial
  | succ count ih => exact ⟨trivial, fun _ _ => (ih _).bind fun _ => trivial⟩

theorem readsOnly_fromEnd (bound : Int) : ReadsOnly (fromEnd id bound) := by
  unfold fromEnd
  split
  · trivial
  · exact ⟨trivial, fun _ _ => trivial⟩

theorem readsOnly_plus (v : Option RStr) : ReadsOnly (plus v) := by
  cases v <;> trivial

/-- `db[key]` and a reply that depends on the class. -/
theorem readsOnly_dbRef {f : Val → Script Reply} (each : ∀ v, ReadsOnly (f v)) :
    ReadsOnly (engine (.dbRef key) >>= f) := ⟨trivial, fun v _ => each v⟩

theorem readsOnly_lRef (idx : RStr) (rest : List RStr) :
    ReadsOnly (Command.lRef (key :: idx :: rest)) := by
  refine readsOnly_unlessLocal ?_
  split
  · refine readsOnly_dbRef ?_
    intro v
    split
    · exact ⟨trivial, fun found _ => readsOnly_plus found⟩
    · trivial
  · split
    · trivial
    · trivial
    · refine readsOnly_dbRef ?_
      intro v
      split
      · refine (readsOnly_fromEnd _).bind fun low => (readsOnly_fromEnd _).bind fun high => ?_
        split
        · exact (readsOnly_lRefLoop _ _).bind fun _ => trivial
        · trivial
      · trivial

theorem readsOnly_cmd {cmd : Cmd} (reads : cmd.Reads) (argv : List RStr) :
    ReadsOnly (cmd.exec argv) := by
  cases cmd with
  | get =>
      match argv with
      | [] => trivial
      | key :: _ =>
          refine readsOnly_unlessLocal (readsOnly_dbRef ?_)
          intro v
          split
          · trivial
          · refine readsOnly_dbRef ?_
            intro v
            split <;> trivial
  | mRef =>
      match argv with
      | [] => trivial
      | key :: argv =>
          refine readsOnly_unlessLocal (readsOnly_dbRef ?_)
          intro v
          split
          · exact (readsOnly_mRefLoop _).bind fun _ => trivial
          · trivial
  | mSize =>
      match argv with
      | [] => trivial
      | key :: _ =>
          refine readsOnly_unlessLocal (readsOnly_dbRef ?_)
          intro v
          split
          · exact ⟨trivial, fun _ _ => trivial⟩
          · trivial
  | sInclude =>
      match argv with
      | [] => trivial
      | [_] => trivial
      | key :: hkey :: rest =>
          refine readsOnly_unlessLocal (readsOnly_dbRef ?_)
          intro v
          split
          · exact (readsOnly_sIncludeLoop _).bind fun _ => trivial
          · trivial
  | lRef =>
      match argv with
      | [] => trivial
      | [_] => trivial
      | key :: idx :: rest => exact readsOnly_lRef idx rest
  | lSize =>
      match argv with
      | [] => trivial
      | key :: _ =>
          refine readsOnly_unlessLocal (readsOnly_dbRef ?_)
          intro v
          split
          · exact ⟨trivial, fun _ _ => trivial⟩
          · trivial
  | _ => exact absurd reads (by decide)

end XFireDB
