import XFireDB.Engine

/-!
# The storage commands

The eighteen command classes of `storage_commands.rb` as programs over engine
calls and `Command#forward`, with their reply texts.  Engine calls stand in the
order in which Ruby makes them, so that commands can be interleaved call by
call.
-/

namespace XFireDB

open Lib

abbrev Script (α : Type) : Type 1 := Prog Call Raise α

namespace Command

/-- An engine call of a command. -/
def engine {β : Type} (c : Call β) : Script β := Prog.lift c

def raise {α : Type} (e : Raise) : Script α := Prog.raise e

def text (s : String) : Reply := .text (lit s)

/-- `Command#exec`: `@key` is the first argument the client sent. -/
def exec (key : RStr) (add : Bool) : Script Unit :=
  if add then engine (.addKey key) else engine (.delKey key)

/-- `return forward(key, query) unless shard.include? key`. -/
def unlessLocal (key query : RStr) (here : Script Reply) : Script Reply := do
  if ← engine (.shardInclude key) then here
  else Prog.lift (.forward key query)

/-! ## Sets -/

def sIncludeLoop (id : Nat) : List RStr → Script (List RStr)
  | [] => pure []
  | hkey :: rest => do
    let found ← engine (.setInclude id hkey)
    let rv ← sIncludeLoop id rest
    pure ((lit "&" ++ lit (if found then "true" else "false")) :: rv)

def sInclude : List RStr → Script Reply
  | key :: hkey :: rest =>
    let argv := hkey :: rest
    unlessLocal key (lit "SINCLUDE " ++ key ++ lit " " ++ join (lit " ") (argv.map quote)) do
      match ← engine (.dbRef key) with
      | .obj .set id => do
        let rv ← sIncludeLoop id argv
        pure (.lines rv)
      | _ => pure (text "-nil")
  | _ => pure (text "-Syntax error: SINCLUDE <key> <set-key1> <set-key2> ...")

def sClear : List RStr → Script Reply
  | key :: _ =>
    unlessLocal key (lit "SCLEAR " ++ key) do
      match ← engine (.dbRef key) with
      | .obj .set _ => do
        engine (.dbDelete key)
        exec key false
        pure (text "-OK")
      | _ => pure (text "-nil")
  | [] => pure (text "-Syntax error: SCEAR <key>")

/-- The removal loop: how many keys were removed. -/
def sDelLoop (id : Nat) (rv : Nat) : List RStr → Script Nat
  | [] => pure rv
  | hkey :: rest => do
    let removed ← engine (.setRemove id hkey)
    sDelLoop id (if removed then rv + 1 else rv) rest

def sDel : List RStr → Script Reply
  | key :: hkey :: rest =>
    let argv := hkey :: rest
    unlessLocal key (lit "SDEL " ++ key ++ lit " " ++ join (lit " ") (argv.map quote)) do
      match ← engine (.dbRef key) with
      | .obj .set id => do
        let rv ← sDelLoop id 0 argv
        let size ← engine (.setSize id)
        if ¬ 0 < size then do
          engine (.dbDelete key)
          exec key false
        pure (.text (lit "%" ++ natToS rv))
      | _ => pure (text "-nil")
  | _ => pure (text "-Syntax error: SDEL <key> <set-key1> <set-key2> ...")

/-- The insertion loop: how many keys were added. -/
def sAddLoop (id : Nat) (rv : Nat) : List RStr → Script Nat
  | [] => pure rv
  | hkey :: rest => do
    let added ← engine (.setAdd id hkey)
    sAddLoop id (if added then rv + 1 else rv) rest

/-- `db[key] = Class.new unless db[key].is_a? Class`. -/
def ensure (key : RStr) (kind : Kind) : Script Unit := do
  let found ← engine (.dbRef key)
  match found with
  | .obj k _ =>
    if k = kind then pure ()
    else do
      let id ← engine (.newObj kind)
      engine (.dbStore key (.obj kind id))
  | _ => do
    let id ← engine (.newObj kind)
    engine (.dbStore key (.obj kind id))

def sAdd : List RStr → Script Reply
  | key :: hkey :: rest =>
    let argv := hkey :: rest
    unlessLocal key (lit "SADD " ++ key ++ lit " " ++ join (lit " ") (argv.map quote)) do
      ensure key .set
      match ← engine (.dbRef key) with
      | .obj .set id => do
        let rv ← sAddLoop id 0 argv
        exec key true
        pure (.text (lit "%" ++ natToS rv))
      | _ => raise .noMethodError
  | _ => pure (text "-Syntax error: SADD <key> <set-key1> <set-key2> ...")

/-! ## Hashmaps -/

def mDelLoop (id : Nat) (rv : Nat) : List RStr → Script Nat
  | [] => pure rv
  | hkey :: rest => do
    let removed ← engine (.mapDelete id hkey)
    mDelLoop id (if removed.isSome then rv + 1 else rv) rest

def mDel : List RStr → Script Reply
  | key :: argv =>
    unlessLocal key (lit "MDEL " ++ key ++ lit " " ++ join (lit " ") argv) do
      match ← engine (.dbRef key) with
      | .obj .hashmap id => do
        let rv ← mDelLoop id 0 argv
        let size ← engine (.mapSize id)
        if ¬ 0 < size then do
          engine (.dbDelete key)
          exec key false
        pure (.text (lit "%" ++ natToS rv))
      | _ => pure (text "-nil")
  | [] => pure (text "-Syntax error: MDEL <key> <hkey1> <hkey2> ...")

def mRefLoop (id : Nat) : List RStr → Script (List RStr)
  | [] => pure []
  | hkey :: rest => do
    let v ← engine (.mapRef id hkey)
    let rv ← mRefLoop id rest
    pure ((match v with
      | none => lit "-" ++ lit "nil"
      | some v => lit "+" ++ v) :: rv)

def mRef : List RStr → Script Reply
  | key :: argv =>
    unlessLocal key (lit "MREF " ++ key ++ lit " " ++ join (lit " ") argv) do
      match ← engine (.dbRef key) with
      | .obj .hashmap id => do
        let rv ← mRefLoop id argv
        pure (.lines rv)
      | _ => pure (text "-nil")
  | [] => pure (text "-Syntax error: MREF <key> <hkey1> <hkey2> ...")

def mClear : List RStr → Script Reply
  | key :: _ =>
    unlessLocal key (lit "MCLEAR " ++ key) do
      match ← engine (.dbRef key) with
      | .obj .hashmap _ => do
        engine (.dbDelete key)
        exec key false
        pure (text "-OK")
      | _ => pure (text "-nil")
  | [] => pure (text "-Syntax error: MCLEAR <key>")

/-- `db[key][hkey] = data` on whatever the key holds by then: `String#[]=`
replaces a substring, a list wants an index. -/
def storeAt (found : Val) (hkey data : RStr) : Script Unit :=
  match found with
  | .obj .hashmap id => engine (.mapStore id hkey data)
  | .obj .list _ => raise .typeError
  | .str s => if hkey <:+: s then pure () else raise .indexError
  | _ => raise .noMethodError

def mAdd : List RStr → Script Reply
  | key :: hkey :: data :: _ =>
    unlessLocal key (lit "MADD " ++ key ++ lit " " ++ hkey ++ lit " " ++ quote data) do
      ensure key .hashmap
      let found ← engine (.dbRef key)
      storeAt found hkey data
      exec key true
      pure (text "-OK")
  | _ => pure (text "-Syntax error: MADD <key> <map-key> <data>")

def mSize : List RStr → Script Reply
  | key :: _ =>
    unlessLocal key (lit "MSIZE " ++ key) do
      match ← engine (.dbRef key) with
      | .obj .hashmap id => do
        let size ← engine (.mapSize id)
        pure (.text (lit "%" ++ intToS size))
      | _ => pure (text "-nil")
  | [] => pure (text "-Syntax error: MSIZE <key>")

/-! ## Lists -/

def lPush : List RStr → Script Reply
  | key :: data :: _ =>
    unlessLocal key (lit "LPUSH " ++ key ++ lit " " ++ quote data) do
      ensure key .list
      match ← engine (.dbRef key) with
      | .obj .list id => do
        engine (.listPush id data)
        exec key true
        pure (text "-OK")
      | _ => raise .noMethodError
  | _ => pure (text "-Syntax error: LPUSH <key> <data>")

def lClear : List RStr → Script Reply
  | key :: _ =>
    unlessLocal key (lit "LCLEAR " ++ key) do
      match ← engine (.dbRef key) with
      | .obj .list _ => do
        engine (.dbDelete key)
        exec key false
        pure (text "-OK")
      | _ => pure (text "-nil")
  | [] => pure (text "-Syntax error: LCLEAR <key>")

/-- `range[0].is_i? and range[1].is_i?`, with both bounds read.  `nil.is_i?`
raises. -/
def rangeOf (idx : RStr) : Except Raise (Option (Int × Int)) :=
  match splitDots idx with
  | [] => .error .noMethodError
  | [first] => if isI first then .error .noMethodError else .ok none
  | first :: second :: _ =>
    if isI first && isI second then .ok (some (toI first, toI second)) else .ok none

/-- `range[i] += list.length unless range[i] >= 0`. -/
def fromEnd (id : Nat) (bound : Int) : Script Int :=
  if 0 ≤ bound then pure bound
  else do
    let len ← engine (.listLength id)
    pure (bound + len)

/-- The loop of a range LPOP: it pops position `n` again and again. -/
def lPopLoop (id : Nat) (n : Int) : Nat → Script (List RStr)
  | 0 => pure []
  | count + 1 => do
    let v ← engine (.listPop id n)
    let rv ← lPopLoop id n count
    pure ((match v with
      | none => lit "-nil"
      | some v => lit "+" ++ v) :: rv)

/-- `"+" + v`, which raises on nil. -/
def plus : Option RStr → Script Reply
  | some v => pure (.text (lit "+" ++ v))
  | none => raise .typeError

/-- Delete the list under a key once it is empty. -/
def lPopEmpty (key : RStr) (id : Nat) : Script Unit := do
  let len ← engine (.listLength id)
  if ¬ 0 < len then do
    let len ← engine (.listLength id)
    if ¬ 0 < len then engine (.dbDelete key)
    exec key false

def lPopRange (key idx : RStr) (low high : Int) : Script Reply := do
  match ← engine (.dbRef key) with
  | .obj .list id => do
    let low ← fromEnd id low
    let high ← fromEnd id high
    if low ≤ high then do
      let rv ← lPopLoop id low (high - low + 1).toNat
      lPopEmpty key id
      pure (.lines rv)
    else pure (.text (lit "-LPOP range invalid: " ++ idx))
  | _ => pure (text "-nil")

def lPopIndex (key : RStr) (idx : Int) : Script Reply := do
  match ← engine (.dbRef key) with
  | .obj .list id => do
    let v ← engine (.listPop id idx)
    let rv ← plus v
    lPopEmpty key id
    pure rv
  | _ => pure (text "-nil")

def lPop : List RStr → Script Reply
  | key :: idx :: _ =>
    unlessLocal key (lit "LPOP " ++ key ++ lit " " ++ idx) do
      if isI idx then lPopIndex key (toI idx)
      else
        match rangeOf idx with
        | .error e => raise e
        | .ok none => pure (.text (lit "-LPOP range invalid: " ++ idx))
        | .ok (some (low, high)) => lPopRange key idx low high
  | _ => pure (text "-Syntax error: LPOP <key> <idx | range>")

def lRefLoop (id : Nat) (n : Int) : Nat → Script (List RStr)
  | 0 => pure []
  | count + 1 => do
    let entry ← engine (.listRef id n)
    let rv ← lRefLoop id (n + 1) count
    pure ((match entry with
      | some entry => lit "+" ++ entry
      | none => lit "-nil") :: rv)

def lRefRange (key idx : RStr) (low high : Int) : Script Reply := do
  match ← engine (.dbRef key) with
  | .obj .list id => do
    let low ← fromEnd id low
    let high ← fromEnd id high
    if low ≤ high then do
      let rv ← lRefLoop id low (high - low + 1).toNat
      pure (.lines rv)
    else pure (.text (lit "-LREF range invalid: " ++ idx))
  | _ => pure (text "-nil")

def lRefIndex (key : RStr) (idx : Int) : Script Reply := do
  match ← engine (.dbRef key) with
  | .obj .list id => do
    let v ← engine (.listRef id idx)
    plus v
  | _ => pure (text "-nil")

def lRef : List RStr → Script Reply
  | key :: idx :: _ =>
    unlessLocal key (lit "LREF " ++ key ++ lit " " ++ idx) do
      if isI idx then lRefIndex key (toI idx)
      else
        match rangeOf idx with
        | .error e => raise e
        | .ok none => pure (.text (lit "-LREF range invalid: " ++ idx))
        | .ok (some (low, high)) => lRefRange key idx low high
  | _ => pure (text "-Syntax error: LREF <key> <idx | range>")

def lSize : List RStr → Script Reply
  | key :: _ =>
    unlessLocal key (lit "LSIZE " ++ key) do
      match ← engine (.dbRef key) with
      | .obj .list id => do
        let len ← engine (.listLength id)
        pure (.text (lit "%" ++ intToS len))
      | _ => pure (text "-nil")
  | [] => pure (text "-Syntax error: LSIZE <key>")

def lSet : List RStr → Script Reply
  | key :: idx :: data :: _ =>
    if isI idx then
      unlessLocal key (lit "LSET " ++ key ++ lit " " ++ idx ++ lit " " ++ quote data) do
        match ← engine (.dbRef key) with
        | .obj .list id => do
          engine (.listSet id (toI idx) data)
          exec key true
          pure (text "-OK")
        | _ => pure (text "-nil")
    else pure (text "-Syntax error: LSET <key> <idx> <data>")
  | _ => pure (text "-Syntax error: LSET <key> <idx> <data>")

/-! ## Strings and keys -/

def set : List RStr → Script Reply
  | key :: data :: _ =>
    unlessLocal key (lit "SET " ++ key ++ lit " " ++ quote data) do
      engine (.dbStore key (.str data))
      exec key true
      pure (text "-OK")
  | _ => pure (text "-Syntax `SET <key> \"<data>\"'")

/-- GET looks the key up twice; `"+" + v` raises on nil and on containers. -/
def get : List RStr → Script Reply
  | key :: _ =>
    unlessLocal key (lit "GET " ++ key) do
      let val ← engine (.dbRef key)
      if val = .nil then pure (text "-nil")
      else do
        match ← engine (.dbRef key) with
        | .str s => pure (.text (lit "+" ++ s))
        | _ => raise .typeError
  | [] => pure (text "-Incorrect syntax: GET <key>")

/-- DELETE forwards and then goes on to delete the key locally. -/
def delete : List RStr → Script Reply
  | key :: _ => do
    if ← engine (.shardInclude key) then pure ()
    else do
      let _ ← Prog.lift (.forward key (lit "DELETE " ++ key))
      pure ()
    engine (.dbDelete key)
    exec key false
    pure (text "-OK")
  | [] => pure (text "-Incorrect syntax: DELETE <key>")

end Command

/-! ## Dispatch -/

/-- The entries of the command table, `CLUSTER` apart. -/
inductive Cmd
  | get | set | delete
  | mAdd | mRef | mClear | mDel | mSize
  | sAdd | sDel | sClear | sInclude
  | lClear | lPush | lPop | lSet | lRef | lSize
deriving DecidableEq, Repr

/-- The `exec` method of a command class. -/
def Cmd.exec : Cmd → List RStr → Script Reply
  | .get => Command.get
  | .set => Command.set
  | .delete => Command.delete
  | .mAdd => Command.mAdd
  | .mRef => Command.mRef
  | .mClear => Command.mClear
  | .mDel => Command.mDel
  | .mSize => Command.mSize
  | .sAdd => Command.sAdd
  | .sDel => Command.sDel
  | .sClear => Command.sClear
  | .sInclude => Command.sInclude
  | .lClear => Command.lClear
  | .lPush => Command.lPush
  | .lPop => Command.lPop
  | .lSet => Command.lSet
  | .lRef => Command.lRef
  | .lSize => Command.lSize

/-- `@@illegals` and `@@private_keys`. -/
def hiddenKeys : List RStr := [lit "xfiredb", lit "xfiredb-nodes", lit "xfiredb-users"]

/-- `Command#initialize`: a client's command on a hidden key is refused. -/
def Cmd.start (bus : Bool) (cmd : Cmd) (argv : List RStr) : Script Reply :=
  match argv.head? with
  | some key =>
    if ¬ bus ∧ key ∈ hiddenKeys then
      Prog.raise (.illegalKey (lit "Key: " ++ key ++ lit " is illegal"))
    else cmd.exec argv
  | none => cmd.exec argv

/-- The names of the command table. -/
def Cmd.ofName (name : RStr) : Option Cmd :=
  if name = lit "GET" then some .get
  else if name = lit "SET" then some .set
  else if name = lit "DELETE" then some .delete
  else if name = lit "MADD" then some .mAdd
  else if name = lit "MREF" then some .mRef
  else if name = lit "MCLEAR" then some .mClear
  else if name = lit "MDEL" then some .mDel
  else if name = lit "MSIZE" then some .mSize
  else if name = lit "SADD" then some .sAdd
  else if name = lit "SDEL" then some .sDel
  else if name = lit "SCLEAR" then some .sClear
  else if name = lit "SINCLUDE" then some .sInclude
  else if name = lit "LCLEAR" then some .lClear
  else if name = lit "LPUSH" then some .lPush
  else if name = lit "LPOP" then some .lPop
  else if name = lit "LSET" then some .lSet
  else if name = lit "LREF" then some .lRef
  else if name = lit "LSIZE" then some .lSize
  else none

/-- A client's command with its arguments. -/
structure Request where
  cmd : Cmd
  argv : List RStr

/-- The script of a client's request. -/
def Request.script (r : Request) : Script Reply := r.cmd.start false r.argv

end XFireDB
