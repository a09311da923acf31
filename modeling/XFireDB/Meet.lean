import XFireDB.SelfEntry

/-!
# CLUSTER MEET

The introducer of a fresh node logs in at it, takes it into its own table and sends
one gossip packet, made of the whole table, to every node of the table.
-/

namespace XFireDB

open Lib

/-- A node as the others know it. -/
structure Host where
  id : RStr
  addr : RStr
  port : Nat
  idWord : IsWord id
  addrWord : IsWord addr
  idClean : 0 ∉ id
  addrClean : 0 ∉ addr

/-- Hosts with an id and an endpoint of their own, and the secret of the cluster. -/
structure Network (ι : Type) where
  host : ι → Host
  secret : RStr
  secretWord : IsWord secret
  ids : Function.Injective fun i => (host i).id
  endpoints : Function.Injective fun i => ((host i).addr, ((host i).port : Int))

namespace Directory

/-- The stored list is created where it is missing, a line is pushed, and the node is
added to the table. -/
def enlist (d : Directory) (id ip port : RStr) (n : Int) : Directory :=
  match { d with dbnodes := some (d.dbnodes.getD []) }.pushLine (nodeLine id ip port) with
  | (.error _, d) => d
  | (.ok (), d) => d.addNode id ip n

/-- `auth_node` with the words of the source line; nothing where it does not reply with
the id.  `correct` says that user name and password are right. -/
def authNode (d : Directory) (correct : Bool) : List RStr → Option Directory
  | id :: _ :: ip :: port :: _ =>
    if d.nodes.lookup id ≠ none ∨ correct = false then none
    else some (d.enlist id ip port (wordToI port))
  | _ => none

/-- `request_from_node?`. -/
def requestFromNode (d : Directory) (ip : RStr) : Bool := d.nodes.any fun n => n.2.addr = ip

/-- `lstrip`. -/
def lstrip (s : RStr) : RStr := s.dropWhile isSpace

/-- The packet that `cluster_meet` builds. -/
def packet (d : Directory) : RStr :=
  lstrip (d.nodes.flatMap fun n => lit " " ++ n.1 ++ lit " " ++ n.2.addr ++ lit " " ++
    intToS n.2.port ++ lit " " ++ gossipCheck)

/-- Where `gossip_send` sends a packet; `LocalNode#gossip` does nothing. -/
def targets (d : Directory) : List (RStr × Int) :=
  (d.nodes.filter fun n => !n.2.isLocal).map fun n => (n.2.addr, n.2.port)

/-- `Cluster#gossip` with checks only, while another thread of the node is in the loop of
`gossip_send`: a hash that is being iterated takes no new key, and the assignment raises
after the line has been pushed. -/
def gossipWhileSending (d : Directory) : List Gossip → Directory
  | [] => d
  | g :: rest =>
    match d.nodes.lookup g.id with
    | some _ => gossipWhileSending d rest
    | none => (d.pushLine (nodeLine g.id g.ip g.port)).2

end Directory

/-- The groups of a packet that has come over the wire. -/
def groups (packet : RStr) : List Gossip := gossips (splitSpace (wireLine packet))

/-! ## Runs -/

/-- How far the command of an introducer is. -/
inductive Meet (ι : Type)
  | idle
  | authed (x : ι)
  | added (x : ι)
  | built (x : ι) (packet : RStr)
  | sending (x : ι) (packet : RStr) (pending : List (RStr × Int))
  | done (x : ι)
deriving DecidableEq

/-- What every node knows, the command at every node, and the nodes of the cluster. -/
structure Membership (ι : Type) where
  dir : ι → Directory
  meet : ι → Meet ι
  joined : ι → Bool

inductive Membership.Event (ι : Type)
  | auth (a x : ι) (correct : Bool)
  | add (a : ι)
  | build (a : ι)
  | broadcast (a : ι)
  | deliver (a j : ι)
  | finish (a : ι)

namespace Membership

variable {ι : Type} (net : Network ι)

/-- `"#{id} #{secret} #{local_ip} #{local_port}"`. -/
def sourceLine (a : ι) : RStr :=
  join (lit " ") [(net.host a).id, net.secret, (net.host a).addr, natToS (net.host a).port]

def endpoint (j : ι) : RStr × Int := ((net.host j).addr, (net.host j).port)

/-- `GOSSIP` on the bus of node `j`. -/
def receive (s : Membership ι) (a j : ι) (packet : RStr) : Directory :=
  if (s.dir j).requestFromNode (net.host a).addr then
    match s.meet j with
    | .sending _ _ _ => (s.dir j).gossipWhileSending (groups packet)
    | _ => ((s.dir j).gossip (splitSpace (wireLine packet))).2
  else s.dir j

variable [DecidableEq ι] (old : ι → Bool)

/-- The steps of the commands.  A member of the old cluster introduces one fresh node. -/
def step (s : Membership ι) : Event ι → Option (Membership ι)
  | .auth a x correct =>
    match s.meet a with
    | .idle =>
      if old a = true ∧ s.joined x = false then
        match (s.dir x).authNode correct (splitSpace (wireLine (sourceLine net a))) with
        | none => some s
        | some d =>
          some ⟨Function.update s.dir x d, Function.update s.meet a (.authed x),
            Function.update s.joined x true⟩
      else none
    | _ => none
  | .add a =>
    match s.meet a with
    | .authed x =>
      let h := net.host x
      some ⟨Function.update s.dir a ((s.dir a).enlist h.id h.addr (intToS h.port) h.port),
        Function.update s.meet a (.added x), s.joined⟩
    | _ => none
  | .build a =>
    match s.meet a with
    | .added x => some { s with meet := Function.update s.meet a (.built x (s.dir a).packet) }
    | _ => none
  | .broadcast a =>
    match s.meet a with
    | .built x packet =>
      some { s with meet := Function.update s.meet a (.sending x packet (s.dir a).targets) }
    | _ => none
  | .deliver a j =>
    match s.meet a with
    | .sending x packet pending =>
      if endpoint net j ∈ pending then
        some ⟨Function.update s.dir j (receive net s a j packet),
          Function.update s.meet a (.sending x packet (pending.erase (endpoint net j))), s.joined⟩
      else none
    | _ => none
  | .finish a =>
    match s.meet a with
    | .sending x _ [] => some { s with meet := Function.update s.meet a (.done x) }
    | _ => none

end Membership

end XFireDB
