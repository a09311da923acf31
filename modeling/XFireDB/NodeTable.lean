import XFireDB.Lib.Ordered
import XFireDB.Lib.Runs
import XFireDB.KeyShard

/-!
# The node table

`Cluster` keeps a hash from node ids to nodes and, in the database, the list
`xfiredb-nodes` of lines `id ip port`.  Gossip packets edit both: a packet is a
line of four words a node, the last of which is a code.
-/

namespace XFireDB

open Lib

/-- An entry of the table: the `LocalNode` or a `ClusterNode`. -/
structure Peer where
  addr : RStr
  port : Int
  isLocal : Bool
deriving DecidableEq

/-- `String#to_i` of a word: an optional sign, then digits with single underscores
between them. -/
def wordToI (s : RStr) : Int :=
  let rec digits (acc : Int) : RStr → Int
    | [] => acc
    | b :: rest =>
      if isDigit b then digits (10 * acc + (b.toNat - 48)) rest
      else
        match rest with
        | c :: rest => if b = 95 ∧ isDigit c then digits (10 * acc + (c.toNat - 48)) rest else acc
        | [] => acc
  let n := match unsigned s with
    | b :: rest => if isDigit b then digits 0 (b :: rest) else 0
    | [] => 0
  if s.head? = some 45 then -n else n

/-- Digits are read to the end. -/
theorem digits_eq_foldl {s : RStr} (digits : ∀ b ∈ s, isDigit b = true) (acc : Int) :
    wordToI.digits acc s = s.foldl (fun acc b => 10 * acc + ((b.toNat : Int) - 48)) acc := by
  induction s generalizing acc with
  | nil => rw [wordToI.digits, List.foldl_nil]
  | cons b s ih =>
      rw [wordToI.digits.eq_def, List.foldl_cons]
      simp only [if_pos (digits b List.mem_cons_self)]
      exact ih (fun c member => digits c (List.mem_cons_of_mem b member)) _

theorem wordToI_natToS (n : Nat) : wordToI (natToS n) = n := by
  obtain ⟨noSign, positive⟩ := unsigned_natToS n
  have digits : ∀ b ∈ natToS n, isDigit b = true := fun b member => isDigit_of_mem_natToS member
  have value : wordToI.digits 0 (natToS n) = n := by rw [digits_eq_foldl digits, foldl_natToS]
  simp only [wordToI, noSign, if_neg positive]
  cases shape : natToS n with
  | nil => exact absurd shape (natToS_ne_nil n)
  | cons b rest =>
      simp only [if_pos (digits b (shape ▸ List.mem_cons_self))]
      rw [← shape]
      exact value

/-- What a node knows about the cluster: its own id, the hash of nodes and the
stored list, which may be missing. -/
structure Directory where
  own : RStr
  nodes : List (RStr × Peer)
  dbnodes : Option (List RStr)

/-- Four words of a gossip packet. -/
structure Gossip where
  id : RStr
  ip : RStr
  port : RStr
  msg : RStr

/-- A line of the stored list, `"#{id} #{ip} #{port}"`. -/
def nodeLine (id ip port : RStr) : RStr := id ++ lit " " ++ ip ++ lit " " ++ port

/-- The complete groups of a packet. -/
def gossips : List RStr → List Gossip
  | id :: ip :: port :: msg :: rest => ⟨id, ip, port, msg⟩ :: gossips rest
  | _ => []

def gossipAdd : RStr := lit "100"
def gossipDel : RStr := lit "101"
def gossipMove : RStr := lit "102"
def gossipCheck : RStr := lit "103"

namespace Directory

/-- `add_node` with a numeric port. -/
def addNode (d : Directory) (id ip : RStr) (port : Int) : Directory :=
  { d with nodes := put d.nodes id ⟨ip, port, false⟩ }

/-- The place of a node's line in the stored list. -/
def lineOf (id : RStr) (lines : List RStr) : Nat :=
  lines.findIdx fun info => (splitSpace info).head? = some id

/-- `remove_node`.  Without a stored list `nil.each` raises, after the table was
changed. -/
def removeNode (d : Directory) (id : RStr) : Except Raise Unit × Directory :=
  match d.nodes.lookup id with
  | none => (.ok (), d)
  | some _ =>
    let d := { d with nodes := unbind d.nodes id }
    match d.dbnodes with
    | none => (.error .noMethodError, d)
    | some lines => (.ok (), { d with dbnodes := some (lines.eraseIdx (lineOf id lines)) })

/-- `dbnodes.push(line)`. -/
def pushLine (d : Directory) (line : RStr) : Except Raise Unit × Directory :=
  match d.dbnodes with
  | none => (.error .noMethodError, d)
  | some lines =>
    match stringValueCStr line with
    | .error e => (.error e, d)
    | .ok line => (.ok (), { d with dbnodes := some (lines ++ [line.toR]) })

/-- Learn about a node unless it is known. -/
def learn (d : Directory) (g : Gossip) : Except Raise Unit × Directory :=
  match d.nodes.lookup g.id with
  | some _ => (.ok (), d)
  | none =>
    match d.pushLine (nodeLine g.id g.ip g.port) with
    | (.error e, d) => (.error e, d)
    | (.ok (), d) => (.ok (), d.addNode g.id g.ip (wordToI g.port))

/-- The body of the loop of `Cluster#gossip`.  There is no method `remove`, and
`add_node` adds a number to the port, which is a string here. -/
def gossipOne (d : Directory) (g : Gossip) : Except Raise Unit × Directory :=
  if g.msg = gossipAdd then d.learn g
  else if g.msg = gossipDel then d.removeNode g.id
  else if g.msg = gossipMove then
    (match d.nodes.lookup g.id with
      | some _ => .error .noMethodError
      | none => .error .typeError, d)
  else if g.msg = gossipCheck then d.learn g
  else (.ok (), d)

def gossipLoop (d : Directory) : List Gossip → Except Raise Unit × Directory
  | [] => (.ok (), d)
  | g :: rest =>
    match d.gossipOne g with
    | (.error e, d) => (.error e, d)
    | (.ok (), d) => gossipLoop d rest

/-- `Cluster#gossip` with the words of a packet. -/
def gossip (d : Directory) (latest : List RStr) : Except Raise Unit × Directory :=
  d.gossipLoop (gossips latest)

/-- What `Cluster#forget` does to the table.  `shards` is the node's answer to
`CLUSTER SLOTS`; the slots are spread over the other nodes, and where there are none
the division by their number raises.  `delivered` says that every migration and
every gossip message got through; otherwise the run ends there. -/
def forget (d : Directory) (id : RStr) (shards : Int) (delivered : Bool) : Directory :=
  match d.nodes.lookup id with
  | none => d
  | some _ =>
    if 0 < shards ∧ d.nodes.length = 1 then d
    else if delivered then (d.removeNode id).2
    else d

end Directory

end XFireDB
