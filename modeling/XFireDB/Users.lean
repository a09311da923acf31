import XFireDB.ClusterBus
import XFireDB.NodeTable

/-!
# Users

The records of the users, `"#{hash} #{level}"` under the name, are a hashmap on the
node that owns `xfiredb-users`.  Every node keeps the users it has looked up in a
hash of its own.  `CLUSTER USERMOD` and `CLUSTER USERDEL` change the record and tell
every node to drop what it keeps.

The steps are those of the threads that serve the clients, with the cluster wide
authentication switched on.
-/

namespace XFireDB

open Lib

/-- The bcrypt library: the password that a hash was made from.  `Password.new` raises
on any other text; a hash starts with a dollar sign and has no whitespace in it. -/
structure Bcrypt where
  secret : RStr → Option RStr
  dollar : ∀ hash, secret hash ≠ none → hash.head? = some 36 ∧ ∀ b ∈ hash, isSpace b = false

structure User where
  hash : RStr
  level : Int

/-- `action.split('=').map {|s| s.strip}`. -/
def actionParts (action : RStr) : List RStr :=
  ((action.splitOn 61).rdropWhile (· = [])).map strip

/-- The record with a new hash in the place of its first word. -/
def withHash (record hash : RStr) : RStr := join (lit " ") (hash :: (splitSpace record).drop 1)

/-- The keys that the owner looks up for `get_user`. -/
def refKeys (user : RStr) : List RStr :=
  match parseXql (wireLine (lit "MREF xfiredb-users " ++ user)) with
  | none => []
  | some x => x.args.drop 1

/-- The user that a node drops for the text of `poison_user`; without one it replies
with a syntax error. -/
def poisoned (user : RStr) : Option RStr :=
  Cluster.subject (wireLine (lit "CLUSTER USERPOISON " ++ user))

/-- `rchomp('+')`. -/
def rchompPlus : RStr → RStr
  | 43 :: rest => rest
  | s => s

namespace Bcrypt

variable (b : Bcrypt)

/-- `hash, level = text.split(' ')` and `User.from_hash`; nothing if that raises. -/
def fromHash (text : RStr) : Option User :=
  match splitSpace text with
  | [] => none
  | hash :: rest =>
    if b.secret hash = none then none else some ⟨hash, wordToI (rest.headD [])⟩

/-- `u.hash == password`. -/
def accepts (u : User) (password : RStr) : Bool := b.secret u.hash = some password

/-- `get_user`, given the records at the owner; nothing if it raises. -/
def getUser (records : List (RStr × RStr)) (user : RStr) : Option User :=
  let answers := (refKeys user).map fun key =>
    match records.lookup key with
    | none => lit "-nil"
    | some record => lit "+" ++ record
  match (Reply.lines answers).received with
  | .text reply => b.fromHash (rchompPlus reply)
  | .lines _ => none

/-- The password of a record. -/
def passwordOf (records : List (RStr × RStr)) (user : RStr) : Option RStr :=
  ((records.lookup user).bind b.fromHash).bind fun u => b.secret u.hash

end Bcrypt

/-! ## Threads -/

/-- Where a thread is.  A login is `late` if its password was revoked when it began;
`old` is the password that a command has taken from the user. -/
inductive Thread (ι : Type)
  | idle
  | asking (node : ι) (user password : RStr) (late : Bool)
  | asked (node : ι) (user password : RStr) (late : Bool) (found : User)
  | hashing (user record arg : RStr)
  | deleting (user : RStr)
  | poisoning (user : RStr) (old : Option RStr) (pending : List ι)

/-- A login that has returned. -/
structure Login where
  late : Bool
  result : Bool
deriving DecidableEq

/-- The records, the hash of users on each node and the threads.  A password is revoked
from the reply to the command that takes it until a command sets it again. -/
structure Realm (ι τ : Type) where
  records : List (RStr × RStr)
  users : ι → List (RStr × User)
  thread : τ → Thread ι
  revoked : List (RStr × RStr)
  logins : List Login

inductive Realm.Event (ι τ : Type)
  | auth (t : τ) (node : ι) (user password : RStr)
  | getUser (t : τ)
  | store (t : τ)
  | usermod (t : τ) (user action : RStr)
  | write (t : τ) (hash : RStr)
  | userdel (t : τ) (user : RStr)
  | delete (t : τ)
  | poison (t : τ) (node : ι)
  | reply (t : τ)

/-- What it means for a thread that a user's record has got a password. -/
def Thread.renew {ι : Type} (user : RStr) (new : Option RStr) : Thread ι → Thread ι
  | .asking node user' password late =>
    .asking node user' password (late && !(user' = user && some password = new))
  | .asked node user' password late found =>
    .asked node user' password (late && !(user' = user && some password = new)) found
  | .poisoning user' old pending =>
    .poisoning user' (if user' = user ∧ old = new then none else old) pending
  | thread => thread

namespace Realm

variable {ι τ : Type}

def start (records : List (RStr × RStr)) (users : ι → List (RStr × User)) : Realm ι τ :=
  ⟨records, users, fun _ => .idle, [], []⟩

/-- A login with the password is late. -/
def isRevoked (s : Realm ι τ) (user password : RStr) : Bool := (user, password) ∈ s.revoked

variable [DecidableEq τ]

def set (s : Realm ι τ) (t : τ) (thread : Thread ι) : Realm ι τ :=
  { s with thread := Function.update s.thread t thread }

theorem thread_set (s : Realm ι τ) (t t' : τ) (thread : Thread ι) :
    (s.set t thread).thread t' = if t' = t then thread else s.thread t' :=
  Function.update_apply s.thread t thread t'

variable [DecidableEq ι]

/-- `users[user] = u` on a node. -/
def cache (s : Realm ι τ) (node : ι) (user : RStr) (u : User) : Realm ι τ :=
  { s with users := Function.update s.users node (put (s.users node) user u) }

/-- `users.delete user` on a node. -/
def uncache (s : Realm ι τ) (node : ι) (user : RStr) : Realm ι τ :=
  { s with users := Function.update s.users node (unbind (s.users node) user) }

/-- A login returns. -/
def answered (s : Realm ι τ) (late result : Bool) : Realm ι τ :=
  { s with logins := ⟨late, result⟩ :: s.logins }

variable (b : Bcrypt) (owner : ι) (table : List ι)

/-- A user's record is changed, and the poisoning begins. -/
def rewrite (s : Realm ι τ) (t : τ) (user : RStr) (records : List (RStr × RStr)) : Realm ι τ :=
  let old := b.passwordOf s.records user
  let new := b.passwordOf records user
  { s with
    records
    thread := Function.update (fun t => (s.thread t).renew user new) t
      (.poisoning user (if old = new then none else old) table)
    revoked := s.revoked.filter fun r => !(r.1 = user && some r.2 = new) }

omit [DecidableEq ι] in
theorem thread_rewrite (s : Realm ι τ) (t t' : τ) (user : RStr) (records : List (RStr × RStr)) :
    (s.rewrite b table t user records).thread t' =
      if t' = t then
        .poisoning user (if b.passwordOf s.records user = b.passwordOf records user then none
          else b.passwordOf s.records user) table
      else (s.thread t').renew user (b.passwordOf records user) :=
  Function.update_apply (fun t => (s.thread t).renew user (b.passwordOf records user)) t _ t'

def step (s : Realm ι τ) : Event ι τ → Option (Realm ι τ)
  | .auth t node user password =>
    match s.thread t with
    | .idle =>
      match (s.users node).lookup user with
      | none => some (s.set t (.asking node user password (s.isRevoked user password)))
      | some u =>
        if b.accepts u password then some (s.answered (s.isRevoked user password) true)
        else some (s.set t (.asking node user password (s.isRevoked user password)))
    | _ => none
  | .getUser t =>
    match s.thread t with
    | .asking node user password late =>
      match b.getUser s.records user with
      | none => some (s.set t .idle)
      | some found => some (s.set t (.asked node user password late found))
    | _ => none
  | .store t =>
    match s.thread t with
    | .asked node user password late found =>
      some (((s.cache node user found).set t .idle).answered late (b.accepts found password))
    | _ => none
  | .usermod t user action =>
    match s.thread t with
    | .idle =>
      match s.records.lookup user, actionParts action with
      | none, _ => some s
      | some record, verb :: arg :: _ =>
        if upcase verb = lit "PASS" then some (s.set t (.hashing user record arg)) else none
      | some _, _ => some s
    | _ => none
  | .write t hash =>
    match s.thread t with
    | .hashing user record arg =>
      if b.secret hash = some arg then
        some (s.rewrite b table t user (put s.records user (withHash record hash)))
      else none
    | _ => none
  | .userdel t user =>
    match s.thread t with
    | .idle =>
      if 1 < s.records.length then some ((s.uncache owner user).set t (.deleting user))
      else some s
    | _ => none
  | .delete t =>
    match s.thread t with
    | .deleting user => some (s.rewrite b table t user (unbind s.records user))
    | _ => none
  | .poison t node =>
    match s.thread t with
    | .poisoning user old pending =>
      if node ∈ pending then
        let s := s.set t (.poisoning user old (pending.erase node))
        match poisoned user with
        | none => some s
        | some user => some (s.uncache node user)
      else none
    | _ => none
  | .reply t =>
    match s.thread t with
    | .poisoning user old [] =>
      some { s.set t .idle with revoked := (old.map fun p => (user, p)).toList ++ s.revoked }
    | _ => none

end Realm

end XFireDB
