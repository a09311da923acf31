import XFireDB.ClientQuery
import XFireDB.ClusterBus
import XFireDB.QueryWords
import XFireDB.RequestRuns

/-!
# Sessions

A client talks to one worker of the pool over a socket.  The worker reads a line, executes
the command on it and writes the line of sizes and the lines of the reply; an exception is
rescued outside of the loop, so that its text is the last thing that a session writes.

The worker serves lines when the client waits for one.  That loses nothing: each of the two
reads what the other has written in its order.
-/

namespace XFireDB

open Lib

/-- What the rescue clauses of the pool write for an exception. -/
def Raise.rescued : Raise → RStr
  | .illegalKey message => message
  | .illegalCommand message => message
  | _ => lit "Query failed"

/-- A session of a worker, with the lines that it has written and the client has not read,
each without its line end. -/
structure Session where
  node : Node
  keep : Bool
  /-- The worker has read `STREAM` and not yet the line after it. -/
  afterStream : Bool
  closed : Bool
  replies : List RStr

/-- The socket: a session and the lines that the client has sent. -/
structure Connection extends Session where
  requests : List RStr

/-- CLUSTER commands, by their arguments: what the worker writes for the reply. -/
abbrev ClusterCommand : Type := List RStr → Node → Option (Except Raise RStr × Node)

/-- `Cluster#query`, with what the worker writes for the reply. -/
def Node.query (cluster : ClusterCommand) (n : Node) (x : Xql) :
    Option (Except Raise RStr × Node) :=
  if x.cmd = lit "CLUSTER" then cluster x.args n
  else
    match Cmd.ofName x.cmd with
    | none => some (.ok (Command.text "-Command not known").written, n)
    | some cmd =>
      ((cmd.start false x.args).run Node.call n).map fun out => (out.1.map Reply.written, out.2)

namespace Session

/-- The lines of `bytes` are on their way to the client. -/
def write (s : Session) (bytes : RStr) : Session :=
  { s with replies := s.replies ++ getsLines bytes }

/-- What is left of a session after a query; without `keep` it is closed. -/
def answer (s : Session) (bytes : RStr) : Session := { s.write bytes with closed := !s.keep }

/-- A rescue clause. -/
def rescue (s : Session) (e : Raise) : Session :=
  { s.write (Reply.text e.rescued).written with closed := true }

/-- A round of the loop, on the line `data`: `Client#read`, the query and the reply.  `none`
if the server crashes or the worker waits for a reply that does not come. -/
def serve (cluster : ClusterCommand) (s : Session) (data : RStr) : Option Session :=
  if ¬ s.afterStream ∧ upcase data = lit "STREAM" then
    some { s with keep := true, afterStream := true }
  else
    let s := { s with afterStream := false }
    if upcase data = lit "QUIT" then some { s with closed := true }
    else
      match parseXql data with
      | none => some (s.rescue .noMethodError)
      | some x =>
        match s.node.query cluster x with
        | none => none
        | some (.ok bytes, node) => some ({ s with node }.answer bytes)
        | some (.error .noReply, _) => none
        | some (.error e, node) => some ({ s with node }.rescue e)

/-- The client waits for a line while `requests` are served. -/
def await (cluster : ClusterCommand) : List RStr → Session → Option (RStr × Connection)
  | requests, s =>
    match s.replies with
    | line :: replies => some (line, { s with replies, requests })
    | [] =>
      match requests with
      | [] => none
      | data :: requests =>
        if s.closed then none else (s.serve cluster data).bind (await cluster requests)

end Session

namespace Connection

/-- `gets.chomp` at the client.  `none` if it returns nil or nothing. -/
def gets (cluster : ClusterCommand) (c : Connection) : Option (RStr × Connection) :=
  c.toSession.await cluster c.requests

/-- `puts` at the client. -/
def puts (c : Connection) (text : RStr) : Connection :=
  { c with requests := c.requests ++ getsLines (XFireDB.puts text) }

end Connection

/-! ## Lines -/

/-- Reading takes the first line off. -/
theorem getsLines_line {a : RStr} (noFeed : 10 ∉ a) (rest : RStr) :
    getsLines (a ++ 10 :: rest) = chomp a :: getsLines rest := by
  have inside : ∀ b ∈ a, decide (b = 10) = false := by
    intro b member
    exact decide_eq_false fun feed => noFeed (feed ▸ member)
  rw [getsLines, List.splitOnP_append_cons_of_forall_mem inside 10 (by decide),
    List.dropLast_cons_of_ne_nil (List.splitOnP_ne_nil _ _), List.map_cons, getsLines]

/-- `puts` writes the first line of a text, and nothing behind it if there is only one. -/
theorem puts_eq (s : RStr) :
    ∃ rest, puts s = s.takeWhile (· ≠ 10) ++ 10 :: rest ∧ (10 ∉ s → rest = []) := by
  have split : s.takeWhile (· ≠ 10) ++ s.dropWhile (· ≠ 10) = s := List.takeWhile_append_dropWhile
  cases later : s.dropWhile (· ≠ 10) with
  | nil =>
      rw [later, List.append_nil] at split
      have noFeed : 10 ∉ s := by
        intro member
        rw [← split] at member
        simpa using List.mem_takeWhile_imp member
      refine ⟨[], ?_, fun _ => rfl⟩
      rw [split, puts, if_neg fun last => noFeed (List.mem_of_getLast? last)]
  | cons b rest =>
      have isFeed : b = 10 := by
        have stops := List.head?_dropWhile_not (fun b : UInt8 => decide (b ≠ 10)) s
        rw [later] at stops
        simpa using stops
      subst isFeed
      rw [later] at split
      have member : 10 ∈ s := by
        rw [← split]
        exact List.mem_append_right _ List.mem_cons_self
      unfold puts
      split
      · exact ⟨rest, split.symm, absurd member⟩
      · refine ⟨rest ++ [10], ?_, absurd member⟩
        rw [← List.cons_append, ← List.append_assoc, split]

/-- The other end reads the first line of a text, and only that if there is only one. -/
theorem getsLines_puts (s bytes : RStr) :
    ∃ more, getsLines (puts s ++ bytes) = wireLine s :: more ∧
        (10 ∉ s → more = getsLines bytes) := by
  obtain ⟨rest, shape, only⟩ := puts_eq s
  refine ⟨getsLines (rest ++ bytes), ?_, ?_⟩
  · rw [shape, List.append_assoc, List.cons_append, getsLines_line (not_mem_takeWhile_feed s)]
    rfl
  · intro noFeed
    rw [only noFeed, List.nil_append]

theorem mem_of_mem_chomp {s : RStr} {b : UInt8} (member : b ∈ chomp s) : b ∈ s := by
  obtain ⟨t, split, _⟩ := chomp_append s
  rw [split]
  exact List.mem_append_left t member

/-- No line has a line end in it. -/
theorem not_mem_of_mem_getsLines {bytes line : RStr} (member : line ∈ getsLines bytes) :
    10 ∉ line := by
  obtain ⟨part, isIn, rfl⟩ := List.mem_map.mp member
  intro feed
  have inside := (mem_of_mem_splitOnP (List.mem_of_mem_dropLast isIn) (mem_of_mem_chomp feed)).2
  simp at inside

/-- A reply of one string: its size and its lines. -/
theorem getsLines_written {r : Reply} {v : RStr} (one : r.strings = [v]) :
    ∃ more, getsLines r.written = natToS (v.length + 1) :: wireLine v :: more ∧
      (10 ∉ v → more = []) := by
  have noFeed : 10 ∉ natToS (v.length + 1) :=
    fun feed => absurd (isDigit_of_mem_natToS feed) (by decide)
  have shape : r.written = natToS (v.length + 1) ++ 10 :: puts v := by
    rw [Client.written_eq, one, Client.sizeLine, Client.sizeWords, List.map_singleton,
      List.map_singleton, join_singleton, List.flatten_singleton]
  obtain ⟨more, lines, only⟩ := getsLines_puts v []
  rw [List.append_nil] at lines
  refine ⟨more, ?_, only⟩
  rw [shape, getsLines_line noFeed, chomp_natToS, lines]

namespace Session

variable {cluster : ClusterCommand} {s s' : Session}

/-! ## Rounds of the loop -/

/-- No line that is on its way to the client has a line end in it. -/
def Lined (s : Session) : Prop := ∀ line ∈ s.replies, 10 ∉ line

theorem Lined.write (lined : s.Lined) (bytes : RStr) : (s.write bytes).Lined := by
  intro line member
  rcases List.mem_append.mp member with old | new
  · exact lined line old
  · exact not_mem_of_mem_getsLines new

theorem Lined.serve (lined : s.Lined) {data : RStr} (served : s.serve cluster data = some s') :
    s'.Lined := by
  unfold Session.serve at served
  split at served
  · cases served
    exact lined
  · dsimp only at served
    split at served
    · cases served
      exact lined
    · split at served
      · cases served
        exact lined.write _
      · split at served
        · cases served
        · cases served
          exact lined.write _
        · cases served
        · cases served
          exact lined.write _

theorem Lined.await {requests : List RStr} {c : Connection} (lined : s.Lined) {line : RStr}
    (got : s.await cluster requests = some (line, c)) : 10 ∉ line ∧ c.toSession.Lined := by
  induction requests generalizing s with
  | nil =>
      unfold Session.await at got
      split at got
      · rename_i first replies waiting
        cases got
        exact List.forall_mem_cons.mp (by rw [← waiting]; exact lined)
      · cases got
  | cons data requests ih =>
      unfold Session.await at got
      split at got
      · rename_i first replies waiting
        cases got
        exact List.forall_mem_cons.mp (by rw [← waiting]; exact lined)
      · dsimp only at got
        split at got
        · cases got
        · obtain ⟨s'', served, later⟩ := Option.bind_eq_some_iff.mp got
          exact ih (lined.serve served) later

theorem await_cons (line : RStr) (replies requests : List RStr)
    (has : s.replies = line :: replies) :
    s.await cluster requests = some (line, { s with replies, requests }) := by
  unfold await
  rw [has]

theorem await_serve (waits : s.replies = []) (opened : s.closed = false) (data : RStr)
    (requests : List RStr) :
    s.await cluster (data :: requests) = (s.serve cluster data).bind (await cluster requests) := by
  rw [await, waits]
  dsimp only
  rw [opened, if_neg Bool.false_ne_true]

/-- Nobody answers on a closed session. -/
theorem await_closed (waits : s.replies = []) (closed : s.closed = true) (requests : List RStr) :
    s.await cluster requests = none := by
  unfold await
  rw [waits, closed]
  cases requests <;> rfl

theorem blank_mem_upcase {data : RStr} (blank : 32 ∈ data) : 32 ∈ upcase data :=
  List.mem_map.mpr ⟨32, blank, rfl⟩

variable (cluster s) in
/-- A line with a blank is a query. -/
theorem serve_query {data : RStr} (blank : 32 ∈ data) {x : Xql} (parsed : parseXql data = some x)
    {cmd : Cmd} (named : Cmd.ofName x.cmd = some cmd) :
    s.serve cluster data =
      match (cmd.start false x.args).run Node.call s.node with
      | none => none
      | some (.ok reply, node) => some ({ s with node, afterStream := false }.answer reply.written)
      | some (.error .noReply, _) => none
      | some (.error e, node) => some ({ s with node, afterStream := false }.rescue e) := by
  have noStream : upcase data ≠ lit "STREAM" := by
    intro same
    exact absurd (same ▸ blank_mem_upcase blank) (by decide)
  have noQuit : upcase data ≠ lit "QUIT" := by
    intro same
    exact absurd (same ▸ blank_mem_upcase blank) (by decide)
  have noCluster : x.cmd ≠ lit "CLUSTER" := by
    intro same
    have unnamed : Cmd.ofName (lit "CLUSTER") = none := rfl
    rw [same, unnamed] at named
    cases named
  rw [serve, if_neg fun both => noStream both.2]
  dsimp only
  rw [if_neg noQuit, parsed]
  dsimp only
  rw [Node.query, if_neg noCluster, named]
  dsimp only
  cases (cmd.start false x.args).run Node.call s.node with
  | none => rfl
  | some out =>
      obtain ⟨result, node⟩ := out
      cases result with
      | ok reply => rfl
      | error e => cases e <;> rfl

end Session

namespace Connection

variable {cluster : ClusterCommand} {c : Connection}

/-- Nothing is on its way, and the worker waits for a line. -/
structure Idle (c : Connection) : Prop where
  requests : c.requests = []
  replies : c.replies = []
  opened : c.closed = false

/-- The client waits for its first line: `STREAM` may be on its way to the worker. -/
structure Connected (c : Connection) : Prop where
  requests : c.requests = [] ∨ c.requests = [lit "STREAM"] ∧ c.afterStream = false
  replies : c.replies = []
  opened : c.closed = false

/-- The session goes on after a reply. -/
def Streams (c : Connection) : Prop := c.keep = true ∨ c.requests = [lit "STREAM"]

/-- The worker has read all lines. -/
def settled (c : Connection) : Connection :=
  if c.requests = [] then c else { c with keep := true, afterStream := true, requests := [] }

@[simp] theorem settled_node (c : Connection) : c.settled.node = c.node := by
  unfold settled
  split <;> rfl

theorem Connected.idle (connected : c.Connected) : c.settled.Idle := by
  unfold settled
  split
  · rename_i none
    exact ⟨none, connected.replies, connected.opened⟩
  · exact ⟨rfl, connected.replies, connected.opened⟩

theorem Connected.streams_iff (connected : c.Connected) : c.Streams ↔ c.settled.keep = true := by
  unfold settled Streams
  rcases connected.requests with none | ⟨stream, _⟩
  · rw [if_pos none, none]
    simp [lit]
  · rw [stream]
    simp [lit]

/-- The line `STREAM` yields no line for the client. -/
theorem Connected.gets_puts (connected : c.Connected) (text : RStr) :
    (c.puts text).gets cluster = (c.settled.puts text).gets cluster := by
  unfold settled
  rcases connected.requests with none | ⟨stream, fresh⟩
  · rw [if_pos none]
  · have some : c.requests ≠ [] := by
      rw [stream]
      exact List.cons_ne_nil _ _
    have served : c.toSession.serve cluster (lit "STREAM") =
        Option.some { c.toSession with keep := true, afterStream := true } := by
      rw [Session.serve, fresh]
      exact if_pos ⟨Bool.false_ne_true, by decide⟩
    rw [if_neg some, gets, gets, puts, puts, stream, List.singleton_append]
    dsimp only
    rw [Session.await_serve connected.replies connected.opened, served, Option.bind_some,
      List.nil_append]

end Connection

end XFireDB
