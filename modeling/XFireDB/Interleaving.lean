import XFireDB.FootprintRuns
import XFireDB.LoadTable
import XFireDB.Lib.Runs

/-!
# Worker threads of one node

Each client is served by a worker thread of its own, and the threads take turns
between the engine calls of their commands.  `Service.Linearizes` compares such
a run with a sequential one.
-/

namespace XFireDB

open Lib

/-- A request that a client has sent, with the number that names the container
object it may make. -/
structure Job where
  client : Nat
  number : Nat
  request : Request

/-- A node and its worker threads: what is left of the script of each client's
current command, the requests in the order in which they were taken up, and the
replies in the order in which they were given. -/
structure Service where
  node : Node
  next : Nat
  started : List Job
  running : Nat → Option (Job × Script Reply)
  done : List (Job × Except Raise Reply)

namespace Service

/-- A node without commands in progress. -/
def init (n : Node) : Service := ⟨n, n.fresh, [], fun _ => none, []⟩

/-- What can happen next. -/
inductive Turn
  | start (client : Nat) (r : Request)
  | step (client : Nat)

/-- The command of a client ends. -/
def finish (s : Service) (client : Nat) (job : Job) (r : Except Raise Reply) : Service :=
  { s with
    running := Function.update s.running client none
    done := s.done ++ [(job, r)] }

/-- The script of a client's command goes on as `p`. -/
def resume (s : Service) (client : Nat) (job : Job) (n : Node) (p : Script Reply) : Service :=
  { s with
    node := n
    running := Function.update s.running client (some (job, p)) }

/-- A client without a command in progress sends one, or a thread makes one
engine call or gives the reply. -/
def step (s : Service) : Turn → Option Service
  | .start client r =>
    match s.running client with
    | some _ => none
    | none =>
      let job : Job := ⟨client, s.next, r⟩
      some { s with
        next := s.next + 1
        started := s.started ++ [job]
        running := Function.update s.running client (some (job, r.script)) }
  | .step client =>
    match s.running client with
    | none => none
    | some (job, .ret reply) => some (s.finish client job (.ok reply))
    | some (job, .raise e) => some (s.finish client job (.error e))
    | some (job, .call c k) =>
      match s.node.callAs job.number c with
      | none => none
      | some (.ok b, n) => some (s.resume client job n (k b))
      | some (.error e, n) => some (s.resume client job n (.raise e))

end Service

/-- Execute requests one after another. -/
def serveAll : Node → List Job → Option (List (Except Raise Reply) × Node)
  | n, [] => some ([], n)
  | n, job :: jobs =>
    match job.request.script.run (Node.callAs job.number) n with
    | none => none
    | some (r, n') => (serveAll n' jobs).map fun rest => (r :: rest.1, rest.2)

/-- The replies and the database are those of a sequential execution that keeps
the order of each client. -/
def Service.Linearizes (n₀ : Node) (s : Service) : Prop :=
  ∃ (order : List (Job × Except Raise Reply)) (m : Node), order.Perm s.done ∧
    (∀ c, (order.map Prod.fst).filter (·.client = c) = s.started.filter (·.client = c)) ∧
    serveAll n₀ (order.map Prod.fst) = some (order.map Prod.snd, m) ∧ m.view = s.node.view

/-! ## Keys and regions of jobs -/

/-- The key of a request, as the engine sees it. -/
def Request.key (r : Request) : Option CStr :=
  r.argv.head?.bind fun key => (stringValueCStr key).toOption

/-- Two commands that may overlap: on different keys, or both only read. -/
def Compatible (r r' : Request) : Prop :=
  ∀ k, r.key = some k → r'.key = some k → r.cmd.Reads ∧ r'.cmd.Reads

theorem Compatible.symm {r r' : Request} (compatible : Compatible r r') : Compatible r' r :=
  fun k here there => (compatible k there here).symm

/-- The part of a node that a job may touch; `home` says under which key an
object lives. -/
def Job.region (home : Nat → Option CStr) (j : Job) : Region where
  keys := fun k => j.request.key = some k
  ids := fun id => id = j.number ∨ ∃ k, j.request.key = some k ∧ home id = some k

/-- The part of a node that belongs to a key. -/
def keyRegion (home : Nat → Option CStr) (k : CStr) : Region where
  keys := fun k' => k' = k
  ids := fun id => home id = some k

theorem stays_script {R : Region} {r : Request} (keys : ∀ k, r.key = some k → R.keys k) :
    Stays R (fun _ _ => True) r.script := by
  have stays : Stays R (fun _ _ => True) (r.cmd.exec r.argv) := by
    refine stays_cmd r.cmd ?_ fun _ _ _ _ => trivial
    intro key first k known
    refine keys k ?_
    rw [Request.key, first, Option.bind_some, known]
    rfl
  unfold Request.script Cmd.start
  split
  · split
    · exact stays_raise _
    · exact stays
  · exact stays

theorem readsOnly_script {r : Request} (reads : r.cmd.Reads) : ReadsOnly r.script := by
  unfold Request.script Cmd.start
  split
  · split
    · trivial
    · exact readsOnly_cmd reads r.argv
  · exact readsOnly_cmd reads r.argv

/-- What calls of a job do to a node. -/
structure Effect (home : Nat → Option CStr) (j : Job) (n t : Node) : Prop where
  spares : (j.region home).Agree n t t
  reads : j.request.cmd.Reads → Region.whole.Meet n t

/-- The name of the job's own object belongs to the job's key, and to no key if
the job only reads. -/
structure Owns (home : Nat → Option CStr) (j : Job) : Prop where
  own : ∀ k, home j.number = some k → j.request.key = some k
  writes : ¬ j.request.cmd.Reads → home j.number = j.request.key

section Effects

variable {home : Nat → Option CStr} {j j' : Job} {n t : Node}

theorem Effect.meet_key (effect : Effect home j n t) (owns : Owns home j) {k : CStr}
    (quiet : j.request.key = some k → j.request.cmd.Reads) : (keyRegion home k).Meet n t := by
  by_cases here : j.request.key = some k
  · exact (effect.reads (quiet here)).of_whole _
  · refine ⟨?_, ?_, effect.spares.slotsOut⟩
    · intro k' same
      obtain rfl := same
      exact effect.spares.dbOut k' here
    · intro id mine
      refine effect.spares.objsOut id ?_
      intro either
      rcases either with rfl | ⟨k', key, lives⟩
      · exact here (owns.own k mine)
      · rw [show home id = some k from mine] at lives
        exact here (Option.some.inj lives ▸ key)

theorem Effect.meet_job (effect : Effect home j n t) (owns : Owns home j) (owns' : Owns home j')
    (differ : j.number ≠ j'.number) (compatible : Compatible j.request j'.request) :
    (j'.region home).Meet n t := by
  by_cases reads : j.request.cmd.Reads
  · exact (effect.reads reads).of_whole _
  · -- the two jobs have different keys
    have apart : ∀ k, j'.request.key = some k → j.request.key ≠ some k :=
      fun k there here => reads (compatible k here there).1
    refine ⟨?_, ?_, effect.spares.slotsOut⟩
    · intro k mine
      exact effect.spares.dbOut k (apart k mine)
    · intro id mine
      refine effect.spares.objsOut id ?_
      intro either
      rcases either with rfl | ⟨k, key, lives⟩
      · rcases mine with same | ⟨k, key', lives⟩
        · exact differ same
        · exact apart k key' (owns.own k lives)
      · rcases mine with rfl | ⟨k', key', lives'⟩
        · exact apart k (owns'.own k lives) key
        · rw [lives] at lives'
          exact apart k (Option.some.inj lives' ▸ key') key

theorem Effect.held (effect : Effect home j n t) (owns : Owns home j)
    (held : ∀ k id, n.db k = some (.object id) → home id = some k) :
    ∀ k id, t.db k = some (.object id) → home id = some k := by
  intro k id entry
  by_cases reads : j.request.cmd.Reads
  · rw [(effect.reads reads).db k trivial] at entry
    exact held k id entry
  · by_cases here : j.request.key = some k
    · rcases effect.spares.held k id here entry with rfl | ⟨k', key, lives⟩
      · rw [owns.writes reads, here]
      · rw [lives, ← key, here]
    · rw [effect.spares.dbOut k here] at entry
      exact held k id entry

theorem Effect.unused (effect : Effect home j n t) {next : Nat} (number : j.number < next)
    (old : ∀ id k, home id = some k → id < next) {id : Nat} (later : next ≤ id) :
    t.objs id = n.objs id := by
  refine effect.spares.objsOut id ?_
  intro either
  rcases either with rfl | ⟨k, _, lives⟩
  · omega
  · have := old id k lives
    omega

theorem closed_region (held : ∀ k id, n.db k = some (.object id) → home id = some k) (j : Job) :
    (j.region home).Closed n :=
  fun k id mine entry => Or.inr ⟨k, mine, held k id entry⟩

end Effects

end XFireDB
