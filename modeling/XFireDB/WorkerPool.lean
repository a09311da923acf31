import XFireDB.Session
import XFireDB.Answers
import XFireDB.Lib.Responses

/-!
# The worker pool

The acceptor pushes streams onto the queue of the pool.  A worker takes one off,
serves its lines and takes the next.  The rescue clauses stand around the loop and
not in it: a session that raises is the last one of its worker.

The pool is over the states `σ` of what it serves and over its queries, so that what
is said of its workers holds of any node and any cluster.
-/

namespace XFireDB

open Lib

/-- What workers execute: `Client#auth` if the configuration asks for it, and
`Cluster#query`.  `none` is a crash, or an answer that does not come. -/
structure Server (σ : Type) where
  auth : Option (List RStr → σ → Option (Except Raise Bool × σ))
  query : Xql → σ → Option (Except Raise RStr × σ)

/-- The client object of a session; `greeted` if the worker is in its loop. -/
structure Caller where
  greeted : Bool
  keep : Bool
  afterStream : Bool
deriving DecidableEq

/-- How a worker comes out of reading a line: it reads on, it closes the stream and
pops the next, or it ends up in a rescue clause. -/
inductive Round
  | goesOn (caller : Caller)
  | ends
  | raises

namespace Round

theorem ends_ne_goesOn (caller : Caller) : ends ≠ goesOn caller := by
  intro same
  cases same

theorem raises_ne_goesOn (caller : Caller) : raises ≠ goesOn caller := by
  intro same
  cases same

theorem ends_ne_raises : ends ≠ raises := by
  intro same
  cases same

theorem goesOn_ne_raises (caller : Caller) : goesOn caller ≠ raises := by
  intro same
  cases same

/-- What is to be shown of a session that is over. -/
theorem of_over {closed : Bool} {round kept : Round} (isClosed : closed = true)
    (ne : ∀ caller, round ≠ goesOn caller) :
    (closed = false → round = kept) ∧ (closed = true → ∀ caller, round ≠ goesOn caller) := by
  constructor
  · intro opened
    rw [isClosed] at opened
    cases opened
  · exact fun _ => ne

end Round

inductive Worker
  | waiting
  | serving (stream : Nat) (caller : Caller)
  | finished
deriving DecidableEq

namespace Server

variable {σ : Type} (server : Server σ)

/-- `Client.from_stream`. -/
def newCaller : Caller := ⟨server.auth.isNone, false, false⟩

/-- The line before the loop. -/
def greet (auth : List RStr → σ → Option (Except Raise Bool × σ)) (s : σ)
    (caller : Caller) (data : RStr) :
    Option (Round × σ) :=
  match parseXql data with
  | none => some (.raises, s)
  | some x =>
    if x.cmd ≠ lit "AUTH" then some (.ends, s)
    else
      match auth x.args s with
      | none => none
      | some (.error _, s) => some (.raises, s)
      | some (.ok false, s) => some (.ends, s)
      | some (.ok true, s) => some (.goesOn { caller with greeted := true }, s)

/-- A line in the loop: `Client#read`, the query and the reply.  `STREAM` is followed
by the line of the query. -/
def loopLine (s : σ) (caller : Caller) (data : RStr) : Option (Round × σ) :=
  if ¬ caller.afterStream ∧ upcase data = lit "STREAM" then
    some (.goesOn { caller with keep := true, afterStream := true }, s)
  else if upcase data = lit "QUIT" then some (.ends, s)
  else
    match parseXql data with
    | none => some (.raises, s)
    | some x =>
      match server.query x s with
      | none => none
      | some (.error _, s) => some (.raises, s)
      | some (.ok _, s) =>
        some (if caller.keep then .goesOn { caller with afterStream := false } else .ends, s)

/-- The worker reads a line of the client. -/
def round (s : σ) (caller : Caller) (data : RStr) : Option (Round × σ) :=
  match server.auth, caller.greeted with
  | some auth, false => greet auth s caller data
  | _, _ => server.loopLine s caller data

end Server

/-- Sessions on a node alone; nobody has to authenticate. -/
def nodeServer (cluster : ClusterCommand) : Server Node := ⟨none, fun x n => n.query cluster x⟩

/-- A session of a worker alone goes the way of the rounds: it is closed where the worker
does not read on, and it carries on with the same client object. -/
theorem Session.serve_round {cluster : ClusterCommand} {s s' : Session} {data : RStr}
    (opened : s.closed = false) (served : s.serve cluster data = some s') :
    ∃ round, (nodeServer cluster).loopLine s.node ⟨true, s.keep, s.afterStream⟩ data =
        some (round, s'.node) ∧
      (s'.closed = false → round = .goesOn ⟨true, s'.keep, s'.afterStream⟩) ∧
      (s'.closed = true → ∀ caller, round ≠ .goesOn caller) := by
  rw [Server.loopLine]
  rw [Session.serve] at served
  split at served
  · rename_i isStream
    cases served
    rw [if_pos isStream]
    refine ⟨_, rfl, fun _ => rfl, fun closed => ?_⟩
    rw [opened] at closed
    cases closed
  · rename_i notStream
    rw [if_neg notStream]
    dsimp only at served
    split at served
    · rename_i isQuit
      cases served
      rw [if_pos isQuit]
      exact ⟨_, rfl, Round.of_over rfl Round.ends_ne_goesOn⟩
    · rename_i notQuit
      rw [if_neg notQuit]
      cases parsed : parseXql data with
      | none =>
          rw [parsed] at served
          cases served
          exact ⟨_, rfl, Round.of_over rfl Round.raises_ne_goesOn⟩
      | some x =>
          rw [parsed] at served
          dsimp only at served ⊢
          rw [show (nodeServer cluster).query x s.node = s.node.query cluster x from rfl]
          rcases ran : s.node.query cluster x with _ | ⟨e | bytes, n⟩
          · rw [ran] at served
            cases served
          · rw [ran] at served
            cases e <;> cases served <;> exact ⟨_, rfl, Round.of_over rfl Round.raises_ne_goesOn⟩
          · rw [ran] at served
            cases served
            refine ⟨_, rfl, ?_, ?_⟩
            · intro closed
              have keeps : s.keep = true := by simpa [Session.answer] using closed
              simp [Session.answer, Session.write, keeps]
            · intro closed caller
              have drops : s.keep = false := by simpa [Session.answer] using closed
              rw [drops, if_neg Bool.false_ne_true]
              exact Round.ends_ne_goesOn caller

/-- The state of the pool; streams are numbered as they are accepted. -/
structure Pool (σ : Type) (num : Nat) where
  state : σ
  accepted : Nat
  queue : List Nat
  worker : Fin num → Worker

namespace Pool

variable {σ : Type} {num : Nat}

/-- `WorkerPool#initialize`. -/
def init (num : Nat) (state : σ) : Pool σ num := ⟨state, 0, [], fun _ => .waiting⟩

/-- What happens next.  A client that hangs up makes `gets` return nil, and one that
resets the connection makes it raise. -/
inductive Event (num : Nat)
  | accept
  | pop (w : Fin num)
  | line (w : Fin num) (data : RStr)
  | hangUp (w : Fin num)
  | reset (w : Fin num)

/-- What has happened to a stream. -/
inductive Report
  | accepted (stream : Nat)
  | begun (stream : Nat)
  | served (stream : Nat)
  | ended (stream : Nat)
  | lost (stream : Nat)
deriving DecidableEq

def Round.report (stream : Nat) : Round → Report
  | .goesOn _ => .served stream
  | .ends => .ended stream
  | .raises => .lost stream

/-- Where a round leaves the worker. -/
def Round.worker (stream : Nat) : Round → Worker
  | .goesOn caller => .serving stream caller
  | .ends => .waiting
  | .raises => .finished

/-- Worker `w` comes out of a round. -/
def come (p : Pool σ num) (w : Fin num) (stream : Nat) (out : Round × σ) : Report × Pool σ num :=
  (Round.report stream out.1,
    { p with state := out.2, worker := Function.update p.worker w (Round.worker stream out.1) })

/-- One step of the acceptor or of a worker. -/
def step (server : Server σ) (p : Pool σ num) : Event num → Option (Report × Pool σ num)
  | .accept => some (.accepted p.accepted,
      { p with accepted := p.accepted + 1, queue := p.queue ++ [p.accepted] })
  | .pop w =>
    match p.worker w, p.queue with
    | .waiting, stream :: rest => some (.begun stream,
        { p with
          queue := rest
          worker := Function.update p.worker w (.serving stream server.newCaller) })
    | _, _ => none
  | .line w data =>
    match p.worker w with
    | .serving stream caller => (server.round p.state caller data).map (p.come w stream)
    | _ => none
  | .hangUp w =>
    match p.worker w with
    | .serving stream _ => some (p.come w stream (.ends, p.state))
    | _ => none
  | .reset w =>
    match p.worker w with
    | .serving stream _ => some (p.come w stream (.raises, p.state))
    | _ => none

/-! ## What one step does -/

variable {server : Server σ} {p p' : Pool σ num} {report : Report}

/-- A step accepts a stream, begins the first of the queue, or is a round of a session. -/
inductive Step (p : Pool σ num) (caller : Caller) : Report → Pool σ num → Prop
  | accept : Step p caller (.accepted p.accepted)
      { p with accepted := p.accepted + 1, queue := p.queue ++ [p.accepted] }
  | pop {w : Fin num} {stream : Nat} {rest : List Nat} (waits : p.worker w = .waiting)
    (first : p.queue = stream :: rest) : Step p caller (.begun stream)
      { p with queue := rest, worker := Function.update p.worker w (.serving stream caller) }
  | round {w : Fin num} {stream : Nat} {now : Caller} (serves : p.worker w = .serving stream now)
    (out : Round × σ) : Step p caller (Round.report stream out.1)
      { p with state := out.2, worker := Function.update p.worker w (Round.worker stream out.1) }

theorem step_cases {e : Event num} (fired : p.step server e = some (report, p')) :
    p.Step server.newCaller report p' := by
  cases e with
  | accept =>
      cases fired
      exact .accept
  | pop w =>
      rw [step] at fired
      split at fired
      · rename_i stream rest waits first
        cases fired
        exact .pop waits first
      · cases fired
  | line w data =>
      rw [step] at fired
      split at fired
      · rename_i stream caller serves
        obtain ⟨out, _, same⟩ := Option.map_eq_some_iff.mp fired
        cases same
        exact .round serves out
      · cases fired
  | hangUp w =>
      rw [step] at fired
      split at fired
      · rename_i stream caller serves
        cases fired
        exact .round serves (.ends, p.state)
      · cases fired
  | reset w =>
      rw [step] at fired
      split at fired
      · rename_i stream caller serves
        cases fired
        exact .round serves (.raises, p.state)
      · cases fired

/-! ## Totals over the workers -/

/-- What `f` gives for each of the workers, in total. -/
def total {M : Type} [AddCommMonoid M] (p : Pool σ num) (f : Worker → M) : M := ∑ w, f (p.worker w)

/-- A worker's own part changes, the others keep theirs. -/
theorem sum_update {M : Type} [AddCommMonoid M] (worker : Fin num → Worker)
    (w : Fin num) (next : Worker) (f : Worker → M) :
    ∑ v, f (Function.update worker w next v) + f (worker w) = ∑ v, f (worker v) + f next := by
  have new := Finset.add_sum_erase Finset.univ (fun v => f (Function.update worker w next v))
    (Finset.mem_univ w)
  have old := Finset.add_sum_erase Finset.univ (fun v => f (worker v)) (Finset.mem_univ w)
  have others : ∑ v ∈ Finset.univ.erase w, f (Function.update worker w next v) =
      ∑ v ∈ Finset.univ.erase w, f (worker v) := by
    apply Finset.sum_congr rfl
    intro v member
    rw [Function.update_of_ne (Finset.ne_of_mem_erase member)]
  rw [← new, ← old, others, Function.update_self]
  abel

/-- A worker that has left the loop. -/
def Worker.lost : Worker → Nat
  | .finished => 1
  | _ => 0

/-- The stream that a worker serves. -/
def Worker.streams : Worker → Multiset Nat
  | .serving stream _ => {stream}
  | _ => 0

/-- How many workers have finished. -/
def finished (p : Pool σ num) : Nat := p.total Worker.lost

/-- The streams that are being served. -/
def serving (p : Pool σ num) : Multiset Nat := p.total Worker.streams

/-! ## Sums over reports -/

def Report.accepted? : Report → Option Nat
  | .accepted stream => some stream
  | _ => none

def Report.begun? : Report → Option Nat
  | .begun stream => some stream
  | _ => none

def Report.ended? : Report → Option Nat
  | .ended stream => some stream
  | _ => none

def Report.lost? : Report → Option Nat
  | .lost stream => some stream
  | _ => none

/-- One step: a worker finishes with each session that raises. -/
theorem finished_step {caller : Caller} (step : p.Step caller report p') :
    p'.finished = p.finished + [report].countP (·.lost?.isSome) := by
  cases step with
  | accept => rfl
  | @pop w stream rest waits first =>
      have totals := sum_update p.worker w (.serving stream caller) Worker.lost
      rw [waits] at totals
      exact totals
  | @round w stream now serves out =>
      obtain ⟨round, state⟩ := out
      have totals := sum_update p.worker w (Round.worker stream round) Worker.lost
      rw [serves] at totals
      cases round <;> exact totals

/-- One step: a stream that is begun is served until it ends or is lost. -/
theorem serving_step {caller : Caller} (step : p.Step caller report p') :
    p.serving + ([report].filterMap Report.begun? : List Nat) =
      ([report].filterMap Report.ended? : List Nat) + ([report].filterMap Report.lost? : List Nat) +
        p'.serving := by
  cases step with
  | accept =>
      show p.serving + (0 : Multiset Nat) = 0 + 0 + p.serving
      rw [add_zero, zero_add, zero_add]
  | @pop w stream rest waits first =>
      have totals := sum_update p.worker w (.serving stream caller) Worker.streams
      rw [waits] at totals
      show p.serving + {stream} = 0 + 0 + _
      rw [add_zero, zero_add]
      exact totals.symm.trans (add_zero _)
  | @round w stream now serves out =>
      obtain ⟨round, state⟩ := out
      have totals := sum_update p.worker w (Round.worker stream round) Worker.streams
      rw [serves] at totals
      cases round with
      | goesOn next =>
          show p.serving + 0 = 0 + 0 + _
          rw [add_zero, zero_add, zero_add]
          exact (add_right_cancel totals).symm
      | ends =>
          show p.serving + 0 = {stream} + 0 + _
          rw [add_zero, add_zero, add_comm]
          exact (totals.trans (add_zero _)).symm
      | raises =>
          show p.serving + 0 = 0 + {stream} + _
          rw [add_zero, zero_add, add_comm]
          exact (totals.trans (add_zero _)).symm

/-- One step: streams are begun in the order of the queue. -/
theorem queue_step {caller : Caller} (step : p.Step caller report p') :
    p.queue ++ [report].filterMap Report.accepted? = [report].filterMap Report.begun? ++ p'.queue ∧
      [report].filterMap Report.accepted? = List.range' p.accepted (p'.accepted - p.accepted) ∧
      p.accepted ≤ p'.accepted := by
  cases step with
  | accept =>
      refine ⟨rfl, ?_, Nat.le_succ _⟩
      dsimp only
      rw [Nat.add_sub_cancel_left]
      rfl
  | pop waits first =>
      refine ⟨by rw [first]; exact List.append_nil _, ?_, le_rfl⟩
      dsimp only
      rw [Nat.sub_self]
      rfl
  | round serves out =>
      obtain ⟨round, state⟩ := out
      dsimp only
      rw [Nat.sub_self]
      cases round <;> exact ⟨List.append_nil _, rfl, le_rfl⟩

/-! ## Runs -/

variable {events : List (Event num)} {reports : List Report}

theorem replies_cons {σ ε ρ : Type} {step : σ → ε → Option (ρ × σ)} {s t : σ}
    {e : ε} {rest : List ε} {rs : List ρ} (ran : replies step s (e :: rest) = some (rs, t)) :
    ∃ r s' rs', step s e = some (r, s') ∧ replies step s' rest = some (rs', t) ∧ rs = r :: rs' := by
  rw [replies] at ran
  obtain ⟨⟨r, s'⟩, fired, ran⟩ := Option.bind_eq_some_iff.mp ran
  obtain ⟨⟨rs', t'⟩, later, same⟩ := Option.map_eq_some_iff.mp ran
  cases same
  exact ⟨r, s', rs', fired, later, rfl⟩

theorem finished_run (ran : replies (step server) p events = some (reports, p')) :
    p'.finished = p.finished + reports.countP (·.lost?.isSome) := by
  induction events generalizing p reports with
  | nil =>
      cases ran
      rfl
  | cons e rest ih =>
      obtain ⟨report, mid, later, fired, continued, rfl⟩ := replies_cons ran
      rw [ih continued, finished_step (step_cases fired),
        show report :: later = [report] ++ later from rfl, List.countP_append, Nat.add_assoc]

theorem serving_run (ran : replies (step server) p events = some (reports, p')) :
    p.serving + (reports.filterMap Report.begun? : List Nat) =
      (reports.filterMap Report.ended? : List Nat) + (reports.filterMap Report.lost? : List Nat) +
        p'.serving := by
  induction events generalizing p reports with
  | nil =>
      cases ran
      show serving _ + 0 = 0 + 0 + serving _
      rw [add_zero, zero_add, zero_add]
  | cons e rest ih =>
      obtain ⟨report, mid, later, fired, continued, rfl⟩ := replies_cons ran
      have here := serving_step (step_cases fired)
      have there := ih continued
      rw [show report :: later = [report] ++ later from rfl]
      simp only [List.filterMap_append, ← Multiset.coe_add]
      calc p.serving + (↑([report].filterMap Report.begun?) + ↑(later.filterMap Report.begun?))
          = (↑([report].filterMap Report.ended?) + ↑([report].filterMap Report.lost?)) +
              (mid.serving + ↑(later.filterMap Report.begun?)) := by
            rw [← add_assoc, here, add_assoc]
        _ = (↑([report].filterMap Report.ended?) + ↑([report].filterMap Report.lost?)) +
              (↑(later.filterMap Report.ended?) + ↑(later.filterMap Report.lost?) +
                p'.serving) := by
            rw [there]
        _ = _ := by abel

theorem queue_run (ran : replies (step server) p events = some (reports, p')) :
    p.queue ++ reports.filterMap Report.accepted? = reports.filterMap Report.begun? ++ p'.queue ∧
      reports.filterMap Report.accepted? = List.range' p.accepted (p'.accepted - p.accepted) ∧
      p.accepted ≤ p'.accepted := by
  induction events generalizing p reports with
  | nil =>
      cases ran
      rw [Nat.sub_self]
      exact ⟨List.append_nil _, rfl, le_rfl⟩
  | cons e rest ih =>
      obtain ⟨report, mid, later, fired, continued, rfl⟩ := replies_cons ran
      obtain ⟨here, numbered, grows⟩ := queue_step (step_cases fired)
      obtain ⟨there, numbered', grows'⟩ := ih continued
      rw [show report :: later = [report] ++ later from rfl]
      simp only [List.filterMap_append]
      refine ⟨?_, ?_, grows.trans grows'⟩
      · rw [← List.append_assoc, here, List.append_assoc, there, List.append_assoc]
      · have split : p'.accepted - p.accepted =
            (mid.accepted - p.accepted) + (p'.accepted - mid.accepted) := by omega
        have next : p.accepted + (mid.accepted - p.accepted) = mid.accepted := by omega
        rw [numbered, numbered', split, ← List.range'_append_1, next]

theorem Worker.lost_le (worker : Worker) : Worker.lost worker ≤ 1 := by
  cases worker with
  | waiting => exact Nat.zero_le 1
  | serving stream caller => exact Nat.zero_le 1
  | finished => exact le_rfl

theorem finished_le (p : Pool σ num) : p.finished ≤ num := by
  have bound := Finset.sum_le_card_nsmul Finset.univ (fun w => Worker.lost (p.worker w)) 1
    fun w _ => Worker.lost_le (p.worker w)
  rwa [Finset.card_univ, Fintype.card_fin, nsmul_one, Nat.cast_id] at bound

/-- As many have finished as there are: each has. -/
theorem finished_eq_iff (p : Pool σ num) : p.finished = num ↔ ∀ w, p.worker w = .finished := by
  have ones : num = ∑ _w : Fin num, 1 := by
    rw [Finset.sum_const, Finset.card_univ, Fintype.card_fin, nsmul_one, Nat.cast_id]
  have each := Finset.sum_eq_sum_iff_of_le (s := Finset.univ)
    (f := fun w => Worker.lost (p.worker w)) (g := fun _ => 1) fun w _ =>
    Worker.lost_le (p.worker w)
  rw [← ones] at each
  refine each.trans (forall_congr' fun w => ?_)
  cases p.worker w with
  | waiting => simp [Worker.lost]
  | serving stream caller => simp [Worker.lost]
  | finished => simp [Worker.lost]

/-- Where every worker has finished, nothing goes on but accepting. -/
theorem accepted_of_finished (all : ∀ w, p.worker w = .finished)
    (ran : replies (step server) p events = some (reports, p')) :
    ∀ report ∈ reports, ∃ stream, report = .accepted stream := by
  induction events generalizing p reports with
  | nil =>
      cases ran
      exact nofun
  | cons e rest ih =>
      obtain ⟨report, mid, later, fired, continued, rfl⟩ := replies_cons ran
      cases step_cases fired with
      | accept =>
          intro report member
          rcases List.mem_cons.mp member with rfl | inLater
          · exact ⟨_, rfl⟩
          · have still : ∀ report ∈ later, ∃ stream, report = .accepted stream := by
              apply ih ?_ continued
              exact all
            exact still report inLater
      | pop waits first =>
          rw [all] at waits
          cases waits
      | round serves out =>
          rw [all] at serves
          cases serves

theorem finished_init (num : Nat) (state : σ) : (init num state).finished = 0 := by
  rw [finished, total, init]
  exact Finset.sum_const_zero

theorem serving_init (num : Nat) (state : σ) : (init num state).serving = 0 := by
  rw [serving, total, init]
  exact Finset.sum_const_zero

/-! ## The pool from its start -/

/-- The pool has lost one worker for each session that raised; once it has lost all of
them, streams are accepted and none is begun any more. -/
theorem lost_workers {start : σ}
    (ran : replies (step server) (init num start) events = some (reports, p)) :
    p.finished = reports.countP (·.lost?.isSome) ∧ p.finished ≤ num ∧
      (reports.countP (·.lost?.isSome) = num → ∀ events' reports' p',
        replies (step server) p events' = some (reports', p') →
        ∀ report ∈ reports', ∃ stream, report = .accepted stream) := by
  have count := finished_run ran
  rw [finished_init, zero_add] at count
  refine ⟨count, p.finished_le, ?_⟩
  intro all events' reports' p' ran'
  exact accepted_of_finished (p.finished_eq_iff.mp (count.trans all)) ran'

/-- One worker, a line of blanks, and a stream that nobody begins. -/
theorem lost_workers_blank : ∃ p : Pool Node 1,
    replies (step (nodeServer fun _ _ => none))
      (init 1 (Node.empty ⟨[], [], List.nodup_nil, List.nodup_nil⟩ 0 true))
        [.accept, .pop 0, .line 0 [32], .accept] =
      some ([.accepted 0, .begun 0, .lost 0, .accepted 1], p) ∧
    p.finished = 1 ∧ p.finished ≤ 1 ∧
      ∀ events' reports' p', replies (step (nodeServer fun _ _ => none)) p events' =
        some (reports', p') →
        ∀ report ∈ reports', ∃ stream, report = .accepted stream := by
  obtain ⟨p, ran⟩ : ∃ p : Pool Node 1, replies (step (nodeServer fun _ _ => none))
      (init 1 (Node.empty ⟨[], [], List.nodup_nil, List.nodup_nil⟩ 0 true))
      [.accept, .pop 0, .line 0 [32], .accept] =
      some ([.accepted 0, .begun 0, .lost 0, .accepted 1], p) := ⟨_, rfl⟩
  obtain ⟨count, bound, later⟩ := lost_workers ran
  exact ⟨p, ran, count, bound, later rfl⟩

/-- Streams are begun in the order in which they were accepted, each of them once; a
stream that is begun is being served, has ended or was lost, and no two of these. -/
theorem begun_once {start : σ}
    (ran : replies (step server) (init num start) events = some (reports, p)) :
    reports.filterMap Report.begun? ++ p.queue = List.range p.accepted ∧
      ((reports.filterMap Report.begun? : List Nat) : Multiset Nat) =
        (reports.filterMap Report.ended? : List Nat) + (reports.filterMap Report.lost? : List Nat) +
          p.serving ∧
      ((reports.filterMap Report.ended? : List Nat) + (reports.filterMap Report.lost? : List Nat) +
          p.serving : Multiset Nat).Nodup := by
  obtain ⟨order, numbered, _⟩ := queue_run ran
  have conserved := serving_run ran
  rw [serving_init, zero_add] at conserved
  have inOrder : reports.filterMap Report.begun? ++ p.queue = List.range p.accepted := by
    rw [← order, numbered, List.range_eq_range']
    rfl
  refine ⟨inOrder, conserved, ?_⟩
  rw [← conserved]
  have nodup := List.nodup_range (n := p.accepted)
  rw [← inOrder] at nodup
  exact Multiset.coe_nodup.mpr nodup.of_append_left

/-- Two streams for one worker: the first hangs up, the second is being served. -/
theorem begun_once_two : ∃ p : Pool Node 1,
    replies (step (nodeServer fun _ _ => none))
      (init 1 (Node.empty ⟨[], [], List.nodup_nil, List.nodup_nil⟩ 0 true))
        [.accept, .accept, .pop 0, .hangUp 0, .pop 0] =
      some ([.accepted 0, .accepted 1, .begun 0, .ended 0, .begun 1], p) ∧
    [0, 1] ++ p.queue = List.range p.accepted ∧
      (([0, 1] : List Nat) : Multiset Nat) = ([0] : List Nat) + ([] : List Nat) + p.serving ∧
      (([0] : List Nat) + ([] : List Nat) + p.serving : Multiset Nat).Nodup := by
  obtain ⟨p, ran⟩ : ∃ p : Pool Node 1, replies (step (nodeServer fun _ _ => none))
      (init 1 (Node.empty ⟨[], [], List.nodup_nil, List.nodup_nil⟩ 0 true))
      [.accept, .accept, .pop 0, .hangUp 0, .pop 0] =
      some ([.accepted 0, .accepted 1, .begun 0, .ended 0, .begun 1], p) := ⟨_, rfl⟩
  exact ⟨p, ran, begun_once ran⟩

end Pool

end XFireDB
