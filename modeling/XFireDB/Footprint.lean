import XFireDB.Region

/-!
# What a command touches

A command makes its calls on the key it is given and on the container objects it
finds or makes there, and it forwards one text.
-/

namespace XFireDB

open Lib Command

/-- The text a command forwards when the key is not local; `none` if the
arguments do not pass its checks. -/
def Cmd.query : Cmd → List RStr → Option RStr
  | .get, key :: _ => some (lit "GET " ++ key)
  | .set, key :: data :: _ => some (lit "SET " ++ key ++ lit " " ++ quote data)
  | .delete, key :: _ => some (lit "DELETE " ++ key)
  | .mAdd, key :: hkey :: data :: _ =>
    some (lit "MADD " ++ key ++ lit " " ++ hkey ++ lit " " ++ quote data)
  | .mRef, key :: argv => some (lit "MREF " ++ key ++ lit " " ++ join (lit " ") argv)
  | .mClear, key :: _ => some (lit "MCLEAR " ++ key)
  | .mDel, key :: argv => some (lit "MDEL " ++ key ++ lit " " ++ join (lit " ") argv)
  | .mSize, key :: _ => some (lit "MSIZE " ++ key)
  | .sAdd, key :: hkey :: rest =>
    some (lit "SADD " ++ key ++ lit " " ++ join (lit " ") ((hkey :: rest).map quote))
  | .sDel, key :: hkey :: rest =>
    some (lit "SDEL " ++ key ++ lit " " ++ join (lit " ") ((hkey :: rest).map quote))
  | .sClear, key :: _ => some (lit "SCLEAR " ++ key)
  | .sInclude, key :: hkey :: rest =>
    some (lit "SINCLUDE " ++ key ++ lit " " ++ join (lit " ") ((hkey :: rest).map quote))
  | .lClear, key :: _ => some (lit "LCLEAR " ++ key)
  | .lPush, key :: data :: _ => some (lit "LPUSH " ++ key ++ lit " " ++ quote data)
  | .lPop, key :: idx :: _ => some (lit "LPOP " ++ key ++ lit " " ++ idx)
  | .lSet, key :: idx :: data :: _ =>
    if isI idx then some (lit "LSET " ++ key ++ lit " " ++ idx ++ lit " " ++ quote data) else none
  | .lRef, key :: idx :: _ => some (lit "LREF " ++ key ++ lit " " ++ idx)
  | .lSize, key :: _ => some (lit "LSIZE " ++ key)
  | _, _ => none

/-- What a forward may send. -/
def Call.Sends (P : RStr → RStr → Prop) : {β : Type} → Call β → Prop
  | _, .forward key query => P key query
  | _, _ => True

/-- A call inside the region that is not a forward, or a permitted forward. -/
def Region.Permits (R : Region) (P : RStr → RStr → Prop) {β : Type} (c : Call β) : Prop :=
  R.Inside c ∧ c.Sends P

variable {R : Region} {P : RStr → RStr → Prop} {key : RStr} {id : Nat}

/-- The script stays inside the region and forwards what `P` permits. -/
abbrev Stays (R : Region) (P : RStr → RStr → Prop) {α : Type} (p : Script α) : Prop :=
  p.Within (R.Permits P) R.Gives

section Steps

variable {α β : Type}

theorem stays_pure (a : α) : Stays R P (pure a : Script α) := trivial

theorem stays_raise (e : Raise) : Stays R P (Command.raise e : Script α) := trivial

theorem stays_unlessLocal {query : RStr} {here : Script Reply} (sends : P key query)
    (local' : Stays R P here) : Stays R P (unlessLocal key query here) := by
  refine Prog.Within.lift_bind ⟨trivial, trivial⟩ ?_
  intro included _
  cases included with
  | true => exact local'
  | false => exact Prog.Within.lift ⟨trivial, sends⟩

theorem stays_exec (add : Bool) : Stays R P (Command.exec key add) := by
  unfold Command.exec
  split
  · exact Prog.Within.lift ⟨trivial, trivial⟩
  · exact Prog.Within.lift ⟨trivial, trivial⟩

/-- `db[key]`, with a case for each class of value. -/
theorem stays_dbRef (inside : R.KeyIn key) {f : Val → Script α}
    (nil : Stays R P (f .nil)) (str : ∀ s, Stays R P (f (.str s)))
    (obj : ∀ kind id, R.ids id → Stays R P (f (.obj kind id))) :
    Stays R P (engine (.dbRef key) >>= f) := by
  refine Prog.Within.lift_bind ⟨inside, trivial⟩ ?_
  intro v given
  cases v with
  | nil => exact nil
  | str s => exact str s
  | obj kind id => exact obj kind id (given kind id rfl)

theorem stays_dbDelete (inside : R.KeyIn key) : Stays R P (engine (.dbDelete key)) :=
  Prog.Within.lift ⟨inside, trivial⟩

/-- The key leaves the database and the shard. -/
theorem stays_remove (inside : R.KeyIn key) : Stays R P (do
    engine (.dbDelete key)
    Command.exec key false) :=
  (stays_dbDelete inside).bind fun _ => stays_exec false

theorem stays_ensure (inside : R.KeyIn key) (kind : Kind) :
    Stays R P (Command.ensure key kind) := by
  have create : Stays R P (do
      let id ← engine (.newObj kind)
      engine (.dbStore key (.obj kind id))) := by
    refine Prog.Within.lift_bind ⟨trivial, trivial⟩ ?_
    intro id mine
    refine Prog.Within.lift ⟨⟨inside, ?_⟩, trivial⟩
    intro kind' id' found
    cases found
    exact mine
  refine stays_dbRef inside create (fun _ => create) ?_
  intro kind' id _
  dsimp only
  split
  · exact stays_pure ()
  · exact create

end Steps

/-! ## Loops -/

section Loops

variable (mine : R.ids id)
include mine

theorem stays_sIncludeLoop (hkeys : List RStr) : Stays R P (sIncludeLoop id hkeys) := by
  induction hkeys with
  | nil => exact stays_pure _
  | cons hkey rest ih =>
      exact Prog.Within.lift_bind ⟨mine, trivial⟩ fun _ _ => ih.bind fun _ => stays_pure _

theorem stays_sDelLoop (hkeys : List RStr) (rv : Nat) : Stays R P (sDelLoop id rv hkeys) := by
  induction hkeys generalizing rv with
  | nil => exact stays_pure _
  | cons hkey rest ih => exact Prog.Within.lift_bind ⟨mine, trivial⟩ fun _ _ => ih _

theorem stays_sAddLoop (hkeys : List RStr) (rv : Nat) : Stays R P (sAddLoop id rv hkeys) := by
  induction hkeys generalizing rv with
  | nil => exact stays_pure _
  | cons hkey rest ih => exact Prog.Within.lift_bind ⟨mine, trivial⟩ fun _ _ => ih _

theorem stays_mDelLoop (hkeys : List RStr) (rv : Nat) : Stays R P (mDelLoop id rv hkeys) := by
  induction hkeys generalizing rv with
  | nil => exact stays_pure _
  | cons hkey rest ih => exact Prog.Within.lift_bind ⟨mine, trivial⟩ fun _ _ => ih _

theorem stays_mRefLoop (hkeys : List RStr) : Stays R P (mRefLoop id hkeys) := by
  induction hkeys with
  | nil => exact stays_pure _
  | cons hkey rest ih =>
      exact Prog.Within.lift_bind ⟨mine, trivial⟩ fun _ _ => ih.bind fun _ => stays_pure _

theorem stays_lPopLoop (i : Int) (count : Nat) : Stays R P (lPopLoop id i count) := by
  induction count with
  | zero => exact stays_pure _
  | succ count ih =>
      exact Prog.Within.lift_bind ⟨mine, trivial⟩ fun _ _ => ih.bind fun _ => stays_pure _

theorem stays_lRefLoop (i : Int) (count : Nat) : Stays R P (lRefLoop id i count) := by
  induction count generalizing i with
  | zero => exact stays_pure _
  | succ count ih =>
      exact Prog.Within.lift_bind ⟨mine, trivial⟩ fun _ _ => (ih _).bind fun _ => stays_pure _

theorem stays_fromEnd (bound : Int) : Stays R P (fromEnd id bound) := by
  unfold fromEnd
  split
  · exact stays_pure _
  · exact Prog.Within.lift_bind ⟨mine, trivial⟩ fun _ _ => stays_pure _

theorem stays_lPopEmpty (inside : R.KeyIn key) : Stays R P (lPopEmpty key id) := by
  refine Prog.Within.lift_bind ⟨mine, trivial⟩ ?_
  intro len _
  split
  · refine Prog.Within.lift_bind ⟨mine, trivial⟩ ?_
    intro len _
    split
    · exact stays_remove inside
    · exact stays_exec false
  · exact stays_pure ()

end Loops

/-! ## Commands -/

section Commands

theorem stays_plus (v : Option RStr) : Stays R P (plus v) := by
  cases v with
  | none => exact stays_raise _
  | some v => exact stays_pure _

/-! What a command does with one class of containers, and with any other value. -/

theorem stays_onList (inside : R.KeyIn key) {act : Nat → Script Reply} {wrong : Script Reply}
    (work : ∀ id, R.ids id → Stays R P (act id)) (other : Stays R P wrong) :
    Stays R P (do
      match ← engine (.dbRef key) with
      | .obj .list id => act id
      | _ => wrong) := by
  refine stays_dbRef inside other (fun _ => other) ?_
  intro kind id mine
  cases kind with
  | list => exact work id mine
  | hashmap => exact other
  | set => exact other

theorem stays_onHashmap (inside : R.KeyIn key) {act : Nat → Script Reply} {wrong : Script Reply}
    (work : ∀ id, R.ids id → Stays R P (act id)) (other : Stays R P wrong) :
    Stays R P (do
      match ← engine (.dbRef key) with
      | .obj .hashmap id => act id
      | _ => wrong) := by
  refine stays_dbRef inside other (fun _ => other) ?_
  intro kind id mine
  cases kind with
  | hashmap => exact work id mine
  | list => exact other
  | set => exact other

theorem stays_onSet (inside : R.KeyIn key) {act : Nat → Script Reply} {wrong : Script Reply}
    (work : ∀ id, R.ids id → Stays R P (act id)) (other : Stays R P wrong) :
    Stays R P (do
      match ← engine (.dbRef key) with
      | .obj .set id => act id
      | _ => wrong) := by
  refine stays_dbRef inside other (fun _ => other) ?_
  intro kind id mine
  cases kind with
  | set => exact work id mine
  | list => exact other
  | hashmap => exact other

/-- The key goes and the reply is `-OK`. -/
theorem stays_removed (inside : R.KeyIn key) : Stays R P (do
    engine (.dbDelete key)
    Command.exec key false
    pure (text "-OK")) :=
  (stays_dbDelete inside).bind fun _ => (stays_exec false).bind fun _ => stays_pure _

/-- `exec false` of an emptied container, then the count. -/
theorem stays_countRemoved (inside : R.KeyIn key) (gone : Prop) [Decidable gone] (rv : Reply) :
    Stays R P (do
      if gone then do
        engine (.dbDelete key)
        Command.exec key false
      pure rv) := by
  split
  · exact (stays_remove inside).bind fun _ => stays_pure _
  · exact stays_pure _

theorem stays_lPopIndex (inside : R.KeyIn key) (i : Int) : Stays R P (lPopIndex key i) := by
  refine stays_onList inside ?_ (stays_pure _)
  intro id mine
  refine Prog.Within.lift_bind ⟨mine, trivial⟩ ?_
  intro v _
  exact (stays_plus v).bind fun rv => (stays_lPopEmpty mine inside).bind fun _ => stays_pure _

theorem stays_lPopRange (inside : R.KeyIn key) (idx : RStr) (low high : Int) :
    Stays R P (lPopRange key idx low high) := by
  refine stays_onList inside ?_ (stays_pure _)
  intro id mine
  refine (stays_fromEnd mine low).bind fun low => (stays_fromEnd mine high).bind fun high => ?_
  split
  · exact (stays_lPopLoop mine low _).bind fun rv =>
      (stays_lPopEmpty mine inside).bind fun _ => stays_pure _
  · exact stays_pure _

theorem stays_lRefIndex (inside : R.KeyIn key) (i : Int) : Stays R P (lRefIndex key i) := by
  refine stays_onList inside ?_ (stays_pure _)
  intro id mine
  exact Prog.Within.lift_bind ⟨mine, trivial⟩ fun v _ => stays_plus v

theorem stays_lRefRange (inside : R.KeyIn key) (idx : RStr) (low high : Int) :
    Stays R P (lRefRange key idx low high) := by
  refine stays_onList inside ?_ (stays_pure _)
  intro id mine
  refine (stays_fromEnd mine low).bind fun low => (stays_fromEnd mine high).bind fun high => ?_
  split
  · exact (stays_lRefLoop mine low _).bind fun rv => stays_pure _
  · exact stays_pure _

/-- The part of a command after the owner check. -/
theorem stays_indexed {idx : RStr} {index : Int → Script Reply} {range : Int → Int → Script Reply}
    {invalid : Script Reply} (indexStays : ∀ i, Stays R P (index i))
    (rangeStays : ∀ low high, Stays R P (range low high)) (invalidStays : Stays R P invalid) :
    Stays R P (if isI idx then index (toI idx)
      else match rangeOf idx with
        | .error e => Command.raise e
        | .ok none => invalid
        | .ok (some (low, high)) => range low high) := by
  split
  · exact indexStays _
  · split
    · exact stays_raise _
    · exact invalidStays
    · exact rangeStays _ _

/-- The command makes calls on the database once the key is local. -/
def Cmd.looks : Cmd → List RStr → Bool
  | .lPop, _ :: idx :: _ => isI idx || (rangeOf idx).toOption.join.isSome
  | .lRef, _ :: idx :: _ => isI idx || (rangeOf idx).toOption.join.isSome
  | _, _ => true

/-- The key that a call on the database names. -/
def Call.dbKey : {β : Type} → Call β → Option RStr
  | _, .dbRef key => some key
  | _, .dbStore key _ => some key
  | _, .dbDelete key => some key
  | _, _ => none

/-- The first call of the script names the key. -/
def Opens (key : RStr) (p : Script Reply) : Prop :=
  ∃ (β : Type) (c : Call β) (k : β → Script Reply), p = .call c k ∧ c.dbKey = some key

/-- The script makes no call. -/
def Halts (p : Script Reply) : Prop := (∃ r, p = pure r) ∨ ∃ e, p = Command.raise e

/-- What a command does once it has found that the key is local. -/
structure Local (key : RStr) (looks : Bool) (here : Script Reply) : Prop where
  stays : ∀ (R : Region) (P : RStr → RStr → Prop), R.KeyIn key → Stays R P here
  opens : looks = true → Opens key here
  halts : looks = false → Halts here

/-- A command that looks its key up first. -/
theorem local_dbRef {f : Val → Script Reply}
    (stays : ∀ (R : Region) (P : RStr → RStr → Prop), R.KeyIn key →
      Stays R P (engine (.dbRef key) >>= f)) :
    Local key true (engine (.dbRef key) >>= f) :=
  ⟨stays, fun _ => ⟨_, _, _, rfl, rfl⟩, by simp⟩

/-- A command that makes sure of the class first. -/
theorem local_ensure {kind : Kind} {rest : Script Reply}
    (stays : ∀ (R : Region) (P : RStr → RStr → Prop), R.KeyIn key → Stays R P rest) :
    Local key true (Command.ensure key kind >>= fun _ => rest) :=
  ⟨fun R P mine => (stays_ensure mine kind).bind fun _ => stays R P mine,
    fun _ => ⟨_, _, _, rfl, rfl⟩, by simp⟩

/-- A command on an index or a range of a list. -/
theorem local_indexed {idx : RStr} {index : Int → Script Reply} {range : Int → Int → Script Reply}
    {invalid : Reply} (indexLocal : ∀ i, Local key true (index i))
    (rangeLocal : ∀ low high, Local key true (range low high)) :
    Local key (isI idx || (rangeOf idx).toOption.join.isSome)
      (if isI idx then index (toI idx)
        else match rangeOf idx with
          | .error e => Command.raise e
          | .ok none => pure invalid
          | .ok (some (low, high)) => range low high) := by
  refine ⟨fun R P mine => stays_indexed (fun i => (indexLocal i).stays R P mine)
    (fun low high => (rangeLocal low high).stays R P mine) (stays_pure _), ?_, ?_⟩
  · intro looks
    by_cases number : isI idx = true
    · rw [if_pos number]
      exact (indexLocal _).opens rfl
    · rw [if_neg number]
      match range : rangeOf idx with
      | .error e => simp [number, range, Except.toOption] at looks
      | .ok none => simp [number, range, Except.toOption] at looks
      | .ok (some (low, high)) => exact (rangeLocal low high).opens rfl
  · intro blind
    rw [Bool.or_eq_false_iff] at blind
    rw [if_neg (by simp [blind.1])]
    match range : rangeOf idx with
    | .error e => exact Or.inr ⟨e, rfl⟩
    | .ok none => exact Or.inl ⟨_, rfl⟩
    | .ok (some (low, high)) => simp [range, Except.toOption] at blind

/-- Other than DELETE, a command that has its arguments checks the owner and then
either does its work or forwards. -/
theorem Cmd.shape {cmd : Cmd} (notDelete : cmd ≠ .delete) {args : List RStr} {query : RStr}
    (queryIs : cmd.query (key :: args) = some query) :
    ∃ here, cmd.exec (key :: args) = unlessLocal key query here ∧
      Local key (cmd.looks (key :: args)) here := by
  cases cmd with
  | delete => exact absurd rfl notDelete
  | get =>
      obtain rfl := Option.some.inj queryIs
      refine ⟨_, rfl, local_dbRef fun R P mine => stays_dbRef mine (stays_pure _) ?_ ?_⟩
      · intro s
        exact stays_dbRef mine (stays_raise _) (fun _ => stays_pure _) fun _ _ _ => stays_raise _
      · intro kind id _
        exact stays_dbRef mine (stays_raise _) (fun _ => stays_pure _) fun _ _ _ => stays_raise _
  | set =>
      match args, queryIs with
      | data :: rest, queryIs =>
          obtain rfl := Option.some.inj queryIs
          refine ⟨_, rfl, fun R P mine => ?_, fun _ => ⟨_, _, _, rfl, rfl⟩, nofun⟩
          refine Prog.Within.lift_bind ⟨⟨mine, by simp⟩, trivial⟩ ?_
          intro _ _
          exact (stays_exec true).bind fun _ => stays_pure _
  | mAdd =>
      match args, queryIs with
      | hkey :: data :: rest, queryIs =>
          obtain rfl := Option.some.inj queryIs
          refine ⟨_, rfl, local_ensure fun R P mine => ?_⟩
          have after : Stays R P (do
              Command.exec key true
              pure (text "-OK")) := (stays_exec true).bind fun _ => stays_pure _
          refine stays_dbRef mine ?_ ?_ ?_
          · exact (stays_raise _ : Stays R P (storeAt .nil hkey data)).bind fun _ => after
          · intro s
            refine Prog.Within.bind ?_ fun _ => after
            show Stays R P (if hkey <:+: s then pure () else Command.raise .indexError)
            split
            · exact stays_pure _
            · exact stays_raise _
          · intro kind id inRegion
            refine Prog.Within.bind ?_ fun _ => after
            cases kind with
            | list => exact stays_raise _
            | hashmap => exact Prog.Within.lift ⟨inRegion, trivial⟩
            | set => exact stays_raise _
  | mRef =>
      obtain rfl := Option.some.inj queryIs
      refine ⟨_, rfl, local_dbRef fun R P mine => ?_⟩
      refine stays_onHashmap mine ?_ (stays_pure _)
      intro id inRegion
      exact (stays_mRefLoop inRegion args).bind fun _ => stays_pure _
  | mClear =>
      obtain rfl := Option.some.inj queryIs
      refine ⟨_, rfl, local_dbRef fun R P mine => ?_⟩
      refine stays_onHashmap mine ?_ (stays_pure _)
      intro id inRegion
      exact stays_removed mine
  | mDel =>
      obtain rfl := Option.some.inj queryIs
      refine ⟨_, rfl, local_dbRef fun R P mine => ?_⟩
      refine stays_onHashmap mine ?_ (stays_pure _)
      intro id inRegion
      refine (stays_mDelLoop inRegion args 0).bind fun rv => ?_
      exact Prog.Within.lift_bind ⟨inRegion, trivial⟩ fun size _ => stays_countRemoved mine _ _
  | mSize =>
      obtain rfl := Option.some.inj queryIs
      refine ⟨_, rfl, local_dbRef fun R P mine => ?_⟩
      refine stays_onHashmap mine ?_ (stays_pure _)
      intro id inRegion
      exact Prog.Within.lift_bind ⟨inRegion, trivial⟩ fun _ _ => stays_pure _
  | sAdd =>
      match args, queryIs with
      | hkey :: rest, queryIs =>
          obtain rfl := Option.some.inj queryIs
          refine ⟨_, rfl, local_ensure fun R P mine => ?_⟩
          refine stays_onSet mine ?_ (stays_raise _)
          intro id inRegion
          exact (stays_sAddLoop inRegion (hkey :: rest) 0).bind fun rv =>
            (stays_exec true).bind fun _ => stays_pure _
  | sDel =>
      match args, queryIs with
      | hkey :: rest, queryIs =>
          obtain rfl := Option.some.inj queryIs
          refine ⟨_, rfl, local_dbRef fun R P mine => ?_⟩
          refine stays_onSet mine ?_ (stays_pure _)
          intro id inRegion
          refine (stays_sDelLoop inRegion (hkey :: rest) 0).bind fun rv => ?_
          exact Prog.Within.lift_bind ⟨inRegion, trivial⟩ fun size _ => stays_countRemoved mine _ _
  | sClear =>
      obtain rfl := Option.some.inj queryIs
      refine ⟨_, rfl, local_dbRef fun R P mine => ?_⟩
      refine stays_onSet mine ?_ (stays_pure _)
      intro id inRegion
      exact stays_removed mine
  | sInclude =>
      match args, queryIs with
      | hkey :: rest, queryIs =>
          obtain rfl := Option.some.inj queryIs
          refine ⟨_, rfl, local_dbRef fun R P mine => ?_⟩
          refine stays_onSet mine ?_ (stays_pure _)
          intro id inRegion
          exact (stays_sIncludeLoop inRegion (hkey :: rest)).bind fun _ => stays_pure _
  | lClear =>
      obtain rfl := Option.some.inj queryIs
      refine ⟨_, rfl, local_dbRef fun R P mine => ?_⟩
      refine stays_onList mine ?_ (stays_pure _)
      intro id inRegion
      exact stays_removed mine
  | lPush =>
      match args, queryIs with
      | data :: rest, queryIs =>
          obtain rfl := Option.some.inj queryIs
          refine ⟨_, rfl, local_ensure fun R P mine => ?_⟩
          refine stays_onList mine ?_ (stays_raise _)
          intro id inRegion
          exact Prog.Within.lift_bind ⟨inRegion, trivial⟩ fun _ _ =>
            (stays_exec true).bind fun _ => stays_pure _
  | lPop =>
      match args, queryIs with
      | idx :: rest, queryIs =>
          obtain rfl := Option.some.inj queryIs
          exact ⟨_, rfl, local_indexed (fun i => local_dbRef fun R P mine => stays_lPopIndex mine i)
            fun low high => local_dbRef fun R P mine => stays_lPopRange mine idx low high⟩
  | lSet =>
      match args, queryIs with
      | idx :: data :: rest, queryIs =>
          by_cases number : isI idx = true
          · simp only [Cmd.query, number, if_true, Option.some.injEq] at queryIs
            subst queryIs
            refine ⟨_, by simp only [Cmd.exec, Command.lSet, number, if_true]; rfl,
              local_dbRef fun R P mine => ?_⟩
            refine stays_onList mine ?_ (stays_pure _)
            intro id inRegion
            exact Prog.Within.lift_bind ⟨inRegion, trivial⟩ fun _ _ =>
              (stays_exec true).bind fun _ => stays_pure _
          · simp [Cmd.query, number] at queryIs
  | lRef =>
      match args, queryIs with
      | idx :: rest, queryIs =>
          obtain rfl := Option.some.inj queryIs
          exact ⟨_, rfl, local_indexed (fun i => local_dbRef fun R P mine => stays_lRefIndex mine i)
            fun low high => local_dbRef fun R P mine => stays_lRefRange mine idx low high⟩
  | lSize =>
      obtain rfl := Option.some.inj queryIs
      refine ⟨_, rfl, local_dbRef fun R P mine => ?_⟩
      refine stays_onList mine ?_ (stays_pure _)
      intro id inRegion
      exact Prog.Within.lift_bind ⟨inRegion, trivial⟩ fun _ _ => stays_pure _

/-- A command whose arguments do not pass its checks only replies. -/
theorem Cmd.exec_of_query_none {cmd : Cmd} {argv : List RStr} (noQuery : cmd.query argv = none) :
    ∃ reply, cmd.exec argv = pure reply := by
  match argv with
  | [] => cases cmd <;> exact ⟨_, rfl⟩
  | [_] => cases cmd <;> first | exact ⟨_, rfl⟩ | cases noQuery
  | [_, idx] => cases cmd <;> first | exact ⟨_, rfl⟩ | cases noQuery
  | _ :: idx :: _ :: _ =>
      cases cmd with
      | lSet =>
          by_cases number : isI idx = true
          · simp [Cmd.query, number] at noQuery
          · refine ⟨text "-Syntax error: LSET <key> <idx> <data>", ?_⟩
            simp only [Cmd.exec, Command.lSet, number, if_false, Bool.false_eq_true]
      | _ => cases noQuery

/-- A command stays with its key. -/
theorem stays_cmd (cmd : Cmd) {argv : List RStr}
    (inside : ∀ key, argv.head? = some key → R.KeyIn key)
    (sends : ∀ key query, argv.head? = some key → cmd.query argv = some query → P key query) :
    Stays R P (cmd.exec argv) := by
  match argv with
  | [] =>
      cases cmd <;> exact stays_pure _
  | key :: args =>
      have mine := inside key rfl
      by_cases isDelete : cmd = .delete
      · subst isDelete
        refine Prog.Within.lift_bind ⟨trivial, trivial⟩ ?_
        intro included _
        cases included with
        | true => exact stays_removed mine
        | false =>
            exact Prog.Within.lift_bind ⟨trivial, sends key _ rfl rfl⟩ fun _ _ => stays_removed mine
      · cases queryIs : cmd.query (key :: args) with
        | none =>
            obtain ⟨reply, same⟩ := Cmd.exec_of_query_none queryIs
            rw [same]
            exact stays_pure _
        | some query =>
            obtain ⟨here, same, isLocal⟩ := Cmd.shape isDelete queryIs
            rw [same]
            exact stays_unlessLocal (sends key query rfl queryIs) (isLocal.stays R P mine)

end Commands

end XFireDB
