import XFireDB.Xql
import XFireDB.Footprint

/-!
# The cluster bus

`Command#forward` asks the nodes of the node table in turn who has a key and
sends the command, as a text, to the first that does not say no.  The far node
parses the text again and executes the command with the key check switched off.
-/

namespace XFireDB

open Lib

/-- A cluster with node ids `ι`: the nodes, and the node table of each of them in
its order. -/
structure Cluster (ι : Type) where
  node : ι → Node
  table : ι → List ι

/-! ## Replies on the wire -/

/-- What the bus writes for a reply. -/
def Reply.bytes : Reply → RStr
  | .text s => puts s
  | .lines l => (l.map puts).flatten

/-- `gets` until the end, each line without its line end. -/
def getsLines (bytes : RStr) : List RStr := ((bytes.splitOnP (· = 10)).dropLast).map chomp

/-- The result of `ClusterNode#cluster_query`: an array of one line is that
line. -/
def Reply.received (r : Reply) : Reply :=
  match getsLines r.bytes with
  | [line] => .text line
  | several => .lines several

namespace Cluster

variable {ι : Type}

/-! ## CLUSTER WHEREIS? -/

/-- The key of a `CLUSTER` query after its subcommand. -/
def subject (query : RStr) : Option RStr := (parseXql query).bind fun x => x.args[1]?

/-- `CLUSTER YOUHAVE?` on a node: no answer if `include?` raises. -/
def youHave (c : Cluster ι) (i : ι) (key : RStr) : Except Raise Bool :=
  match subject (wireLine (lit "CLUSTER YOUHAVE? " ++ key)) with
  | none => .error .noReply
  | some key =>
    match (c.node i).shard.includes key with
    | .ok answer => .ok answer
    | .error _ => .error .noReply

/-- The loop of `where_is?`; `nodes["Key not known"]` is nil. -/
def ask (c : Cluster ι) (key : RStr) : List ι → Except Raise ι
  | [] => .error .noMethodError
  | i :: rest =>
    match c.youHave i key with
    | .error e => .error e
    | .ok true => .ok i
    | .ok false => c.ask key rest

/-- `Cluster#where_is?` and the lookup of the node it names. -/
def whereIs (c : Cluster ι) (e : ι) (key : RStr) : Except Raise ι :=
  match subject (lit "CLUSTER WHEREIS? " ++ key) with
  | none => .error .noMethodError
  | some key => c.ask key (c.table e)

/-! ## Calls and queries -/

variable [DecidableEq ι]

/-- A call on the node where a command is executed. -/
def onNode {β : Type} (c : Cluster ι) (e : ι) (call : Call β) :
    Option (Except Raise β × Cluster ι) :=
  ((c.node e).call call).map fun out => (out.1, { c with node := Function.update c.node e out.2 })

/-- Forwards, given a cluster, a node, a key and a text. -/
abbrev Forwarder (ι : Type) : Type :=
  ι → Cluster ι → RStr → RStr → Option (Except Raise Reply × Cluster ι)

/-- Calls of a command that is executed at `e`. -/
def call (fwd : Forwarder ι) (e : ι) : Prog.Handler Call Raise (Cluster ι)
  | _, c, .forward key query => fwd e c key query
  | _, c, call => c.onNode e call

/-- What the sender of a query sees of its execution. -/
def busReply : Option (Except Raise Reply × Cluster ι) → Option (Except Raise Reply × Cluster ι)
  | none => none
  | some (.ok reply, c) => some (.ok reply.received, c)
  | some (.error _, c) => some (.error .noReply, c)

/-- `QUERY` on the cluster bus of node `e`.  A forwarded text starts with the name
of a storage command. -/
def busQuery (fwd : Forwarder ι) (e : ι) (c : Cluster ι) (query : RStr) :
    Option (Except Raise Reply × Cluster ι) :=
  match parseXql (wireLine query) with
  | none => some (.error .noReply, c)
  | some x =>
    match Cmd.ofName x.cmd with
    | none => some (.ok (Command.text "-Command not known").received, c)
    | some cmd => busReply ((cmd.start true x.args).run (Cluster.call fwd e) c)

/-- `Command#forward`.  The first argument bounds how often a query is passed
on. -/
def forward : Nat → Forwarder ι
  | 0, _, _, _, _ => none
  | fuel + 1, e, c, key, query =>
    match c.whereIs e key with
    | .error r => some (.error r, c)
    | .ok i => busQuery (forward fuel) i c query

/-- A client's storage request at node `e`. -/
def serve (fuel : Nat) (e : ι) (c : Cluster ι) (r : Request) :
    Option (Except Raise Reply × Cluster ι) :=
  r.script.run (Cluster.call (forward fuel) e) c

end Cluster

/-- The storage request of a line. -/
def requestOf (line : RStr) : Option Request :=
  (parseXql (chomp line)).bind fun x => (Cmd.ofName x.cmd).map fun cmd => ⟨cmd, x.args⟩

end XFireDB
