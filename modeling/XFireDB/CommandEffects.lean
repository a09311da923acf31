import XFireDB.ContainerCalls
import XFireDB.Commands
import XFireDB.Persistence

/-!
# What commands do to a key

Each storage command on a key of its node, as a function of what the key holds: the
reply or the exception, what the key holds then, and whether the key comes to be
tracked.  Hashmaps and sets are exact, and the process crashes where `crash` says so.
-/

namespace XFireDB

open Command

/-- What a key holds after a command, and what is told to the shard: `add_key`
(`some true`), `del_key` (`some false`) or nothing. -/
structure After where
  value : Option Stored
  track : Option Bool

/-- The outcome of a command on a key; `none` is a crash. -/
abbrev KeyEffect : Type := Option (Except Raise Reply × After)

/-- The size that an exact container reports, a 32-bit integer. -/
def Container.reported : Container → Int
  | .list elems => int32 elems.length
  | .hashmap nodes _ => int32 nodes.length
  | .set nodes _ => int32 nodes.length

theorem Container.reported_of_isEmpty {c : Container} (empty : c.IsEmpty) : c.reported = 0 := by
  cases c with
  | list elems =>
      obtain rfl : elems = [] := empty
      rfl
  | hashmap nodes num =>
      obtain rfl : nodes = [] := empty
      rfl
  | set nodes num =>
      obtain rfl : nodes = [] := empty
      rfl

namespace Stored

def asList : Option Stored → Option (List CStr)
  | some (.container (.list elems)) => some elems
  | _ => none

def asMap : Option Stored → Option (Skiplist CStr)
  | some (.container (.hashmap nodes _)) => some nodes
  | _ => none

def asSet : Option Stored → Option (Skiplist Unit)
  | some (.container (.set nodes _)) => some nodes
  | _ => none

theorem asList_eq_some {v : Option Stored} {elems : List CStr} :
    asList v = some elems ↔ v = some (.container (.list elems)) := by
  unfold asList
  split <;> simp_all

theorem asMap_eq_some {v : Option Stored} {nodes : Skiplist CStr} :
    asMap v = some nodes ↔ ∃ num, v = some (.container (.hashmap nodes num)) := by
  unfold asMap
  split <;> simp_all

theorem asSet_eq_some {v : Option Stored} {nodes : Skiplist Unit} :
    asSet v = some nodes ↔ ∃ num, v = some (.container (.set nodes num)) := by
  unfold asSet
  split <;> simp_all

end Stored

/-- A hashmap with an exact counter. -/
def Container.ofMap (nodes : Skiplist CStr) : Container := .hashmap nodes (int32 nodes.length)

def Container.ofSet (nodes : Skiplist Unit) : Container := .set nodes (int32 nodes.length)

namespace KeyEffect

open Stored

variable (crash : List CStr → CStr → Bool)

/-- A reply, and nothing changes. -/
def replies (v : Option Stored) (r : Reply) : KeyEffect := some (.ok r, ⟨v, none⟩)

def raises (v : Option Stored) (e : Raise) : KeyEffect := some (.error e, ⟨v, none⟩)

/-- The key holds the container and is tracked. -/
def stores (c : Container) (r : Reply) : KeyEffect := some (.ok r, ⟨some (.container c), some true⟩)

def deletes (r : Reply) : KeyEffect := some (.ok r, ⟨none, some false⟩)

/-- What is left of a container; one that reports no elements goes. -/
def leaves (c : Container) (r : Reply) : KeyEffect :=
  if 0 < c.reported then replies (some (.container c)) r else deletes r

/-! ## Loops over sub-keys -/

/-- A word for each sub-key. -/
def answers {β : Type} (nodes : Skiplist β) (word : Option (SkiplistNode β) → RStr) :
    List RStr → Option (Except Raise (List RStr))
  | [] => some (.ok [])
  | h :: rest =>
    match stringValueCStr h with
    | .error e => some (.error e)
    | .ok k =>
      if crash (nodes.map SkiplistNode.key) k then none
      else (answers nodes word rest).map fun rv =>
        rv.map (word (nodes.find? fun node => node.key = k) :: ·)

/-- Sub-keys are taken out: how many, and what is left. -/
def removeAll {β : Type} (nodes : Skiplist β) (rv : Nat) :
    List RStr → Option (Except Raise Nat × Skiplist β)
  | [] => some (.ok rv, nodes)
  | h :: rest =>
    match stringValueCStr h with
    | .error e => some (.error e, nodes)
    | .ok k =>
      if crash (nodes.map SkiplistNode.key) k then none
      else if (nodes.find? fun node => node.key = k).isSome then
        removeAll (nodes.filter fun node => node.key ≠ k) (rv + 1) rest
      else removeAll nodes rv rest

/-- Sub-keys are put in: how many were new, and what the set is then. -/
def addAll (nodes : Skiplist Unit) (rv : Nat) :
    List RStr → Option (Except Raise Nat × Skiplist Unit)
  | [] => some (.ok rv, nodes)
  | h :: rest =>
    match stringValueCStr h with
    | .error e => some (.error e, nodes)
    | .ok k =>
      if crash (nodes.map SkiplistNode.key) k then none
      else if (nodes.find? fun node => node.key = k).isSome then addAll nodes rv rest
      else addAll (nodes.insert k ()) (rv + 1) rest

/-- The reply of SINCLUDE and MREF. -/
def answered (v : Option Stored) : Option (Except Raise (List RStr)) → KeyEffect
  | none => none
  | some (.ok rv) => replies v (.lines rv)
  | some (.error e) => raises v e

/-- The end of SDEL and MDEL. -/
def removed {β : Type} (of : Skiplist β → Container) :
    Option (Except Raise Nat × Skiplist β) → KeyEffect
  | none => none
  | some (.ok rv, left) => leaves (of left) (.text (lit "%" ++ natToS rv))
  | some (.error e, left) => raises (some (.container (of left))) e

/-- The end of SADD. -/
def added : Option (Except Raise Nat × Skiplist Unit) → KeyEffect
  | none => none
  | some (.ok rv, nodes) => stores (.ofSet nodes) (.text (lit "%" ++ natToS rv))
  | some (.error e, nodes) => raises (some (.container (.ofSet nodes))) e

/-! ## Sets and hashmaps -/

/-- LCLEAR, MCLEAR and SCLEAR. -/
def clear (kind : Kind) (v : Option Stored) : KeyEffect :=
  match v with
  | some (.container c) => if c.kind = kind then deletes (text "-OK") else replies v (text "-nil")
  | _ => replies v (text "-nil")

def sInclude (v : Option Stored) : List RStr → KeyEffect
  | hkey :: rest =>
    match asSet v with
    | some nodes => answered v (answers crash nodes
        (fun found => lit "&" ++ lit (if found.isSome then "true" else "false")) (hkey :: rest))
    | none => replies v (text "-nil")
  | [] => replies v (text "-Syntax error: SINCLUDE <key> <set-key1> <set-key2> ...")

def sDel (v : Option Stored) : List RStr → KeyEffect
  | hkey :: rest =>
    match asSet v with
    | some nodes => removed .ofSet (removeAll crash nodes 0 (hkey :: rest))
    | none => replies v (text "-nil")
  | [] => replies v (text "-Syntax error: SDEL <key> <set-key1> <set-key2> ...")

def sAdd (v : Option Stored) : List RStr → KeyEffect
  | hkey :: rest => added (addAll crash ((asSet v).getD []) 0 (hkey :: rest))
  | [] => replies v (text "-Syntax error: SADD <key> <set-key1> <set-key2> ...")

def mDel (v : Option Stored) (args : List RStr) : KeyEffect :=
  match asMap v with
  | some nodes => removed .ofMap (removeAll crash nodes 0 args)
  | none => replies v (text "-nil")

def mRef (v : Option Stored) (args : List RStr) : KeyEffect :=
  match asMap v with
  | some nodes => answered v (answers crash nodes
      (fun found => match found with
        | none => lit "-" ++ lit "nil"
        | some node => lit "+" ++ node.value.toR) args)
  | none => replies v (text "-nil")

/-- The key's value after a sub-key is set. -/
def putMap (nodes : Skiplist CStr) (h d : CStr) : Skiplist CStr :=
  if (nodes.find? fun node => node.key = h).isSome then Node.setValue h d nodes
  else nodes.insert h d

def mAdd (v : Option Stored) : List RStr → KeyEffect
  | hkey :: data :: _ =>
    let nodes := (asMap v).getD []
    match stringValueCStr hkey, stringValueCStr data with
    | .error e, _ => raises (some (.container (.ofMap nodes))) e
    | _, .error e => raises (some (.container (.ofMap nodes))) e
    | .ok h, .ok d =>
      if crash (nodes.map SkiplistNode.key) h then none
      else stores (.ofMap (putMap nodes h d)) (text "-OK")
  | _ => replies v (text "-Syntax error: MADD <key> <map-key> <data>")

def mSize (v : Option Stored) : KeyEffect :=
  match asMap v with
  | some nodes => replies v (.text (lit "%" ++ intToS (int32 nodes.length)))
  | none => replies v (text "-nil")

/-! ## Lists -/

def lPush (v : Option Stored) : List RStr → KeyEffect
  | data :: _ =>
    let elems := (asList v).getD []
    match stringValueCStr data with
    | .error e => raises (some (.container (.list elems))) e
    | .ok d => stores (.list (elems ++ [d])) (text "-OK")
  | [] => replies v (text "-Syntax error: LPUSH <key> <data>")

/-- The pops of a range, all at one position. -/
def popRange (elems : List CStr) (pos : Int) : Nat → List RStr × List CStr
  | 0 => ([], elems)
  | count + 1 =>
    match Node.listRef elems pos with
    | none =>
      let later := popRange elems pos count
      (lit "-nil" :: later.1, later.2)
    | some (i, data) =>
      let later := popRange (elems.eraseIdx i) pos count
      ((lit "+" ++ data.toR) :: later.1, later.2)

/-- The entries of a range. -/
def refRange (elems : List CStr) (pos : Int) : Nat → Except Raise (List RStr)
  | 0 => .ok []
  | count + 1 =>
    match Node.num2int pos with
    | .error e => .error e
    | .ok i => (refRange elems (pos + 1) count).map fun rv =>
      (match Node.listRef elems i with
        | some (_, data) => lit "+" ++ data.toR
        | none => lit "-nil") :: rv

/-- A bound below zero counts from the end. -/
def counted (elems : List CStr) (bound : Int) : Int :=
  if 0 ≤ bound then bound else bound + int32 elems.length

def lPopIndex (v : Option Stored) (i : Int) : KeyEffect :=
  match asList v with
  | some elems =>
    match Node.num2int i with
    | .error e => raises v e
    | .ok i =>
      match Node.listRef elems i with
      | none => raises v .typeError
      | some (pos, data) => leaves (.list (elems.eraseIdx pos)) (.text (lit "+" ++ data.toR))
  | none => replies v (text "-nil")

def lPopRange (v : Option Stored) (idx : RStr) (low high : Int) : KeyEffect :=
  match asList v with
  | some elems =>
    let low := counted elems low
    let high := counted elems high
    if low ≤ high then
      match Node.num2int low with
      | .error e => raises v e
      | .ok _ =>
        let popped := popRange elems low (high - low + 1).toNat
        leaves (.list popped.2) (.lines popped.1)
    else replies v (.text (lit "-LPOP range invalid: " ++ idx))
  | none => replies v (text "-nil")

def lPop (v : Option Stored) : List RStr → KeyEffect
  | idx :: _ =>
    if isI idx then lPopIndex v (toI idx)
    else
      match rangeOf idx with
      | .error e => raises v e
      | .ok none => replies v (.text (lit "-LPOP range invalid: " ++ idx))
      | .ok (some (low, high)) => lPopRange v idx low high
  | [] => replies v (text "-Syntax error: LPOP <key> <idx | range>")

def lRefIndex (v : Option Stored) (i : Int) : KeyEffect :=
  match asList v with
  | some elems =>
    match Node.num2int i with
    | .error e => raises v e
    | .ok i =>
      match Node.listRef elems i with
      | none => raises v .typeError
      | some (_, data) => replies v (.text (lit "+" ++ data.toR))
  | none => replies v (text "-nil")

def lRefRange (v : Option Stored) (idx : RStr) (low high : Int) : KeyEffect :=
  match asList v with
  | some elems =>
    let low := counted elems low
    let high := counted elems high
    if low ≤ high then
      match refRange elems low (high - low + 1).toNat with
      | .error e => raises v e
      | .ok rv => replies v (.lines rv)
    else replies v (.text (lit "-LREF range invalid: " ++ idx))
  | none => replies v (text "-nil")

def lRef (v : Option Stored) : List RStr → KeyEffect
  | idx :: _ =>
    if isI idx then lRefIndex v (toI idx)
    else
      match rangeOf idx with
      | .error e => raises v e
      | .ok none => replies v (.text (lit "-LREF range invalid: " ++ idx))
      | .ok (some (low, high)) => lRefRange v idx low high
  | [] => replies v (text "-Syntax error: LREF <key> <idx | range>")

def lSize (v : Option Stored) : KeyEffect :=
  match asList v with
  | some elems => replies v (.text (lit "%" ++ intToS (int32 elems.length)))
  | none => replies v (text "-nil")

def lSet (v : Option Stored) : List RStr → KeyEffect
  | idx :: data :: _ =>
    if isI idx then
      match asList v with
      | some elems =>
        match Node.num2int (toI idx) with
        | .error e => raises v e
        | .ok i =>
          match Node.listRef elems i with
          | none => stores (.list elems) (text "-OK")
          | some (pos, _) =>
            match stringValueCStr data with
            | .error e => raises v e
            | .ok d => stores (.list (elems.set pos d)) (text "-OK")
      | none => replies v (text "-nil")
    else replies v (text "-Syntax error: LSET <key> <idx> <data>")
  | _ => replies v (text "-Syntax error: LSET <key> <idx> <data>")

/-! ## Strings and keys -/

/-- A string with a NUL is refused after the old value has gone. -/
def set (v : Option Stored) : List RStr → KeyEffect
  | data :: _ =>
    match stringValueCStr data with
    | .error e => raises none e
    | .ok d => some (.ok (text "-OK"), ⟨some (.string d), some true⟩)
  | [] => replies v (text "-Syntax `SET <key> \"<data>\"'")

def get (v : Option Stored) : KeyEffect :=
  match v with
  | none => replies v (text "-nil")
  | some (.string s) => replies v (.text (lit "+" ++ s.toR))
  | some (.container _) => raises v .typeError

end KeyEffect

/-- The effect of a command on a key of the node, by what the key holds and the arguments
after the key. -/
def Cmd.effect (crash : List CStr → CStr → Bool) (v : Option Stored) (args : List RStr) :
    Cmd → KeyEffect
  | .get => KeyEffect.get v
  | .set => KeyEffect.set v args
  | .delete => KeyEffect.deletes (text "-OK")
  | .mAdd => KeyEffect.mAdd crash v args
  | .mRef => KeyEffect.mRef crash v args
  | .mClear => KeyEffect.clear .hashmap v
  | .mDel => KeyEffect.mDel crash v args
  | .mSize => KeyEffect.mSize v
  | .sAdd => KeyEffect.sAdd crash v args
  | .sDel => KeyEffect.sDel crash v args
  | .sClear => KeyEffect.clear .set v
  | .sInclude => KeyEffect.sInclude crash v args
  | .lClear => KeyEffect.clear .list v
  | .lPush => KeyEffect.lPush v args
  | .lPop => KeyEffect.lPop v args
  | .lSet => KeyEffect.lSet v args
  | .lRef => KeyEffect.lRef v args
  | .lSize => KeyEffect.lSize v

end XFireDB
