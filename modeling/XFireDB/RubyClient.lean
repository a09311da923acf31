import XFireDB.Answers
import XFireDB.ClientResult
import XFireDB.Session

/-!
# The Ruby client

The client of the Ruby gem puts its arguments into the text of a query as they are.  What
`set`, `list_push` and `map_add` were told is then what `get`, `list_ref` and `map_ref`
return, where the query text and the reply lines carry it.
-/

namespace XFireDB

open Lib Node Command
open Client (RubyData RubyResult statusNull statusSuccess process processDefault withoutMinus)

/-- `null?`. -/
def Client.RubyResult.null (r : RubyResult) : Bool := r.status &&& statusNull = statusNull

namespace RubyClient

section Calls

variable (cluster : ClusterCommand) (c : Connection)

/-- `connect`, after an authentication if there is one. -/
def connect (node : Node) (stream : Bool) : Connection where
  node := node
  keep := false
  afterStream := false
  closed := false
  replies := []
  requests := if stream then [lit "STREAM"] else []

/-- The loop over the results. -/
def results : Nat → Connection → Option (List RubyResult × Connection)
  | 0, c => some ([], c)
  | num + 1, c =>
    match c.gets cluster with
    | none => none
    | some (data, c) => (results num c).map fun found => (process data :: found.1, found.2)

/-- `query`: the results that the block is called with.  `none` if it raises or does not
return. -/
def query (q : RStr) : Option (List RubyResult × Connection) :=
  match (c.puts q).gets cluster with
  | none => none
  | some (reply, c) => results cluster (reply.count 32 + 1) c

/-- A query with the block `success = result.success?`. -/
def succeeds (q : RStr) : Option (Bool × Connection) :=
  (query cluster c q).map fun found =>
  (found.1.foldl (fun _ result => result.success) false, found.2)

/-- What the blocks of `list_ref` and `map_ref` keep of a result. -/
def kept (result : RubyResult) : RubyData := if result.success then result.data else .nil

def get (key : RStr) : Option (RubyData × Connection) :=
  (query cluster c (lit "GET " ++ key)).map fun found =>
    (found.1.foldl (fun str result => if result.null then str else result.data) .nil, found.2)

def set (key data : RStr) : Option (Bool × Connection) :=
  succeeds cluster c (lit "SET " ++ key ++ lit " " ++ quote data)

def mapAdd (key hkey data : RStr) : Option (Bool × Connection) :=
  succeeds cluster c (lit "MADD " ++ key ++ lit " " ++ hkey ++ lit " " ++ quote data)

/-- `map_ref`: a hash, which has the key `nil` if there are more results than arguments. -/
def mapRef (key : RStr) (args : List RStr) :
    Option ((Option RStr → Option RubyData) × Connection) :=
  (query cluster c (lit "MREF " ++ key ++ lit " " ++ join (lit " ") args)).map fun found =>
    (found.1.zipIdx.foldl (fun map result =>
      Function.update map args[result.2]? (some (kept result.1)))
      (fun _ => none), found.2)

def listPush (key data : RStr) : Option (Bool × Connection) :=
  succeeds cluster c (lit "LPUSH " ++ key ++ lit " " ++ quote data)

def listRef (key idx : RStr) : Option (List RubyData × Connection) :=
  (query cluster c (lit "LREF " ++ key ++ lit " " ++ idx)).map fun found =>
    (found.1.map kept, found.2)

end Calls

/-- A write and the read that belongs to it. -/
inductive Pair
  | setGet
  | pushRef
  | mapAddRef (hkey : RStr)

namespace Pair

/-- The write. -/
def write (cluster : ClusterCommand) (c : Connection) (key data : RStr) :
    Pair → Option (Bool × Connection)
  | setGet => set cluster c key data
  | pushRef => listPush cluster c key data
  | mapAddRef hkey => mapAdd cluster c key hkey data

/-- The read returns the data.  A list is asked for its last index. -/
def Reads (cluster : ClusterCommand) (c : Connection) (key data : RStr) : Pair → Prop
  | setGet => ∃ t, get cluster c key = some (.str data, t)
  | pushRef => ∃ k : CStr, k.toR = strip key ∧ ∃ t,
      listRef cluster c key (natToS ((Value.listed (c.node.view k)).length - 1)) =
        some ([.str data], t)
  | mapAddRef hkey => ∃ map t,
      mapRef cluster c key [hkey] = some (map, t) ∧ map (some hkey) = some (.str data)

/-- If the write returns true, the read that comes next returns the data. -/
def RoundTrips (p : Pair) (cluster : ClusterCommand) (c : Connection) (key data : RStr) : Prop :=
  ∀ t, p.write cluster c key data = some (true, t) → p.Reads cluster t key data

/-- The command of the write. -/
def cmd : Pair → Cmd
  | setGet => .set
  | pushRef => .lPush
  | mapAddRef _ => .mAdd

/-- The name of the command. -/
def name : Pair → RStr
  | setGet => lit "SET"
  | pushRef => lit "LPUSH"
  | mapAddRef _ => lit "MADD"

/-- How many arguments it wants after the key. -/
def arity : Pair → Nat
  | mapAddRef _ => 2
  | _ => 1

/-- What stands between the name and the data. -/
def words (key : RStr) : Pair → List RStr
  | mapAddRef hkey => [key, hkey]
  | _ => [key]

/-- The text of the write. -/
def text (p : Pair) (key data : RStr) : RStr :=
  p.name ++ 32 :: (p.words key).foldr (fun w rest => w ++ 32 :: rest) (quote data)

/-- The node takes the arguments: a key that clients may use, enough behind it, and nothing
that makes the command raise. -/
def Takes (p : Pair) (n : Node) (argv : List RStr) : Prop :=
  ∃ (k : CStr) (args : List RStr), argv = k.toR :: args ∧ k.toR ∉ hiddenKeys ∧
    p.arity ≤ args.length ∧ p.cmd.Answerable (n.content k) args

/-- The node takes the first line of the write. -/
def Accepted (p : Pair) (n : Node) (key data : RStr) : Prop :=
  ∀ x, parseXql (wireLine (p.text key data)) = some x → p.Takes n x.args

/-- The texts carry the data: the session goes on, no word is empty, the data is one line,
has no carriage return at its end and is the first token of its quotation, and the last
index of a list is an `int`. -/
structure Carries (p : Pair) (c : Connection) (key data : RStr) : Prop where
  stream : c.Streams
  words : [] ∉ p.words key
  line : 10 ∉ data
  last : data.getLast? ≠ some 13
  token : (tokenize (quote data)).head? = some data
  index : p.cmd = .lPush → ∀ k : CStr, k.toR = strip key →
    (Value.listed (c.node.view k)).length < 2 ^ 31

end Pair

/-! ## One query -/

section Query

variable {cluster : ClusterCommand} {c : Connection} {q : RStr} {x : Xql} {cmd : Cmd} {n : Node}

/-- What a query leaves of an idle connection whose reply was one line. -/
structure Leaves (c : Connection) (q : RStr) (n : Node) (t : Connection) : Prop where
  node : t.node = n
  keep : t.keep = c.keep
  closed : t.closed = !c.keep
  replies : t.replies = []
  requests : 10 ∉ q → t.requests = []

variable (cluster) in
/-- The worker serves the first line of the query. -/
theorem gets_puts (idle : c.Idle) (q : RStr) :
    ∃ more, (10 ∉ q → more = []) ∧
      (c.puts q).gets cluster =
        (c.toSession.serve cluster (wireLine q)).bind (Session.await cluster more) := by
  obtain ⟨more, lines, only⟩ := getsLines_puts q []
  rw [List.append_nil] at lines
  refine ⟨more, only, ?_⟩
  have waiting : (c.puts q).requests = wireLine q :: more := by
    rw [Connection.puts, idle.requests, List.nil_append, lines]
  rw [Connection.gets, waiting]
  exact Session.await_serve idle.replies idle.opened _ _

/-- The client reads a reply of one string. -/
theorem query_of_serve (idle : c.Idle) {s : Session} {m : Nat} {line : RStr} {replies : List RStr}
    (served : c.toSession.serve cluster (wireLine q) = some s)
    (has : s.replies = natToS m :: line :: replies) :
    ∃ requests, (10 ∉ q → requests = []) ∧
      query cluster c q = some ([process line], { s with replies, requests }) := by
  obtain ⟨more, only, first⟩ := gets_puts cluster idle q
  refine ⟨more, only, ?_⟩
  rw [query, first, served, Option.bind_some, Session.await_cons _ _ more has]
  dsimp only
  rw [count_natToS, results, Connection.gets, Session.await_cons line replies more rfl]
  rfl

variable (idle : c.Idle) (blank : 32 ∈ wireLine q) (parsed : parseXql (wireLine q) = some x)
  (named : Cmd.ofName x.cmd = some cmd)

include idle blank parsed named

theorem query_ok {reply : Reply} {v : RStr} (one : reply.strings = [v])
    (ran : (cmd.start false x.args).run Node.call c.node = some (.ok reply, n)) :
    ∃ t, query cluster c q = some ([process (wireLine v)], t) ∧ (10 ∉ v → Leaves c q n t) := by
  have served := Session.serve_query cluster c.toSession blank parsed named
  rw [ran] at served
  dsimp only at served
  obtain ⟨lines, written, oneLine⟩ := getsLines_written one
  have has : (({ c.toSession with node := n, afterStream := false }).answer reply.written).replies =
      natToS (v.length + 1) :: wireLine v :: lines := by
    rw [← written]
    exact congrArg (· ++ getsLines reply.written) idle.replies
  obtain ⟨requests, only, queried⟩ := query_of_serve idle served has
  refine ⟨_, queried, ?_⟩
  intro noFeed
  exact ⟨rfl, rfl, rfl, oneLine noFeed, only⟩

theorem query_error {e : Raise} (replied : e ≠ .noReply)
    (ran : (cmd.start false x.args).run Node.call c.node = some (.error e, n)) :
    ∃ t, query cluster c q = some ([process (wireLine e.rescued)], t) := by
  have served := Session.serve_query cluster c.toSession blank parsed named
  rw [ran] at served
  have rescued : c.toSession.serve cluster (wireLine q) =
      some ({ c.toSession with node := n, afterStream := false }.rescue e) := by
    rw [served]
    cases e <;> first | rfl | exact absurd rfl replied
  obtain ⟨lines, written, _⟩ := getsLines_written (r := .text e.rescued) rfl
  have has : ({ c.toSession with node := n, afterStream := false }.rescue e).replies =
      natToS (e.rescued.length + 1) :: wireLine e.rescued :: lines := by
    rw [← written]
    exact congrArg (· ++ getsLines (Reply.text e.rescued).written) idle.replies
  obtain ⟨requests, _, queried⟩ := query_of_serve idle rescued has
  exact ⟨_, queried⟩

/-- Without a reply the query does not return. -/
theorem query_stuck
    (ran : (cmd.start false x.args).run Node.call c.node = none ∨
      ∃ n, (cmd.start false x.args).run Node.call c.node = some (.error .noReply, n)) :
    query cluster c q = none := by
  have served := Session.serve_query cluster c.toSession blank parsed named
  obtain ⟨more, _, first⟩ := gets_puts cluster idle q
  rcases ran with crashed | ⟨n, stuck⟩
  · rw [crashed] at served
    rw [query, first, served]
    rfl
  · rw [stuck] at served
    rw [query, first, served]
    rfl

/-- For an empty reply the client waits for a result that does not come. -/
theorem query_empty (oneLine : 10 ∉ q) (ran :
    (cmd.start false x.args).run Node.call c.node = some (.ok (.lines []), n)) :
    query cluster c q = none := by
  have served := Session.serve_query cluster c.toSession blank parsed named
  rw [ran] at served
  obtain ⟨more, only, first⟩ := gets_puts cluster idle q
  have has : ({ c.toSession with node := n, afterStream := false }.answer
    (Reply.lines []).written).replies =
      [[]] := congrArg (· ++ getsLines (Reply.lines []).written) idle.replies
  rw [query, first, served, only oneLine, Option.bind_some, Session.await_cons [] [] [] has]
  rfl

end Query

/-! ## The write on the node -/

/-- A line that is no success for the client. -/
def Failure (line : RStr) : Prop := (process line).success = false

instance (line : RStr) : Decidable (Failure line) := inferInstanceAs (Decidable (_ = false))

/-- A result of a command that the client reads as a failure, or not at all. -/
def Refused : Except Raise Reply → Prop
  | .ok reply => ∃ v, reply.strings = [v] ∧ Failure (wireLine v)
  | .error e => e = .noReply ∨ Failure (wireLine e.rescued)

/-- The texts of syntax errors and of exceptions. -/
def failures : List String :=
  ["-Syntax `SET <key> \"<data>\"'", "-Syntax error: LPUSH <key> <data>",
    "-Syntax error: MADD <key> <map-key> <data>", "-Syntax error: LREF <key> <idx | range>",
    "-Syntax error: MREF <key> <hkey1> <hkey2> ...", "Query failed"]

theorem failure_of_mem : ∀ s ∈ failures, Failure (wireLine (lit s)) := by decide +kernel

theorem refused_text {s : String} (known : s ∈ failures) : Refused (.ok (text s)) :=
  ⟨lit s, rfl, failure_of_mem s known⟩

theorem refused_argumentError : Refused (.error .argumentError) :=
  Or.inr (failure_of_mem "Query failed" (by simp [failures]))

/-- A message is no success. -/
theorem failure_of_ne {b : UInt8} (noPlus : b ≠ 43) (noAnd : b ≠ 38) (noPercent : b ≠ 37)
    (noMinus : b ≠ 45) (noOK : b ≠ 79) (tail : RStr) : Failure (b :: tail) := by
  have notOK : b :: tail ≠ lit "OK" := fun same => noOK (List.head_eq_of_cons_eq same)
  rw [Failure, Client.process_of_ne noPlus noAnd noPercent, processDefault,
    Client.withoutMinus_of_ne noMinus, if_neg notOK]
  split
  · simp [RubyResult.success, statusNull, statusSuccess]
  · simp [RubyResult.success, Client.statusMsg, statusSuccess]

theorem refused_illegalKey (rest : RStr) :
    Refused (.error (.illegalKey (lit "Key: " ++ rest))) := by
  obtain ⟨rest', line⟩ := wireLine_word (w := lit "Key:") (by decide) rest
  have shape : lit "Key: " ++ rest = lit "Key:" ++ 32 :: rest := rfl
  refine Or.inr ?_
  rw [Raise.rescued, shape, line]
  exact failure_of_ne (by decide) (by decide) (by decide) (by decide) (by decide) _

theorem error_of_stringValueCStr {key : RStr} {e : Raise}
    (raises : stringValueCStr key = .error e) :
    e = .argumentError := by
  unfold stringValueCStr at raises
  split at raises
  · cases raises
    rfl
  · cases raises

theorem error_of_includes {shard : KeyShard} {key : RStr} {e : Raise}
    (raises : shard.includes key = .error e) : e = .argumentError := by
  unfold KeyShard.includes keyToSlot crc16 at raises
  cases known : stringValueCStr key with
  | ok k => simp [known, Except.map] at raises
  | error r =>
      rw [error_of_stringValueCStr known] at known
      simpa [known, Except.map, eq_comm] using raises

namespace Pair

variable {p : Pair} {v : Option Stored} {n n' : Node} {k : CStr} {args : List RStr}

/-- The outcome of a write with arguments enough. -/
theorem effect_of_enough (p : Pair) (v : Option Stored) (enough : p.arity ≤ args.length) :
    p.cmd.effect collides v args = none ∨
      (∃ a, p.cmd.effect collides v args = some (.ok (Command.text "-OK"), a)) ∨
        ∃ a, p.cmd.effect collides v args = some (.error .argumentError, a) := by
  cases p with
  | setGet =>
      cases args with
      | nil => exact absurd enough (by simp [arity])
      | cons data rest =>
          dsimp only [cmd, Cmd.effect, KeyEffect.set]
          cases known : stringValueCStr data with
          | ok d => exact Or.inr (Or.inl ⟨_, rfl⟩)
          | error e =>
              rw [error_of_stringValueCStr known]
              exact Or.inr (Or.inr ⟨_, rfl⟩)
  | pushRef =>
      cases args with
      | nil => exact absurd enough (by simp [arity])
      | cons data rest =>
          dsimp only [cmd, Cmd.effect, KeyEffect.lPush]
          cases known : stringValueCStr data with
          | ok d => exact Or.inr (Or.inl ⟨_, rfl⟩)
          | error e =>
              rw [error_of_stringValueCStr known]
              exact Or.inr (Or.inr ⟨_, rfl⟩)
  | mapAddRef hkey =>
      rcases args with _ | ⟨h, _ | ⟨data, rest⟩⟩
      · exact absurd enough (by simp [arity])
      · exact absurd enough (by simp [arity])
      · dsimp only [cmd, Cmd.effect, KeyEffect.mAdd]
        cases known : stringValueCStr h with
        | error e =>
            rw [error_of_stringValueCStr known]
            exact Or.inr (Or.inr ⟨_, rfl⟩)
        | ok h' =>
            cases known' : stringValueCStr data with
            | error e =>
                rw [error_of_stringValueCStr known']
                exact Or.inr (Or.inr ⟨_, rfl⟩)
            | ok d =>
                dsimp only
                split
                · exact Or.inl rfl
                · exact Or.inr (Or.inl ⟨_, rfl⟩)

/-- With arguments missing a write is told its syntax. -/
theorem exec_of_missing (p : Pair) (key : RStr) (missing : args.length < p.arity) :
    ∃ s ∈ failures, ∀ n : Node,
      (p.cmd.exec (key :: args)).run Node.call n = some (.ok (Command.text s), n) := by
  cases p with
  | setGet =>
      obtain rfl := List.eq_nil_of_length_eq_zero (Nat.lt_one_iff.mp missing)
      exact ⟨_, by simp [failures], fun n => rfl⟩
  | pushRef =>
      obtain rfl := List.eq_nil_of_length_eq_zero (Nat.lt_one_iff.mp missing)
      exact ⟨_, by simp [failures], fun n => rfl⟩
  | mapAddRef hkey =>
      rcases args with _ | ⟨h, _ | ⟨data, rest⟩⟩
      · exact ⟨"-Syntax error: MADD <key> <map-key> <data>", by simp [failures], fun n => rfl⟩
      · exact ⟨"-Syntax error: MADD <key> <map-key> <data>", by simp [failures], fun n => rfl⟩
      · exact absurd missing (by simp [arity])

/-- Without a key, too. -/
theorem exec_of_bare (p : Pair) :
    ∃ s ∈ failures, ∀ n : Node, (p.cmd.exec []).run Node.call n =
        some (.ok (Command.text s), n) := by
  cases p with
  | setGet => exact ⟨_, by simp [failures], fun n => rfl⟩
  | pushRef => exact ⟨_, by simp [failures], fun n => rfl⟩
  | mapAddRef hkey => exact ⟨_, by simp [failures], fun n => rfl⟩

/-- A key that cannot be hashed raises, if there are arguments enough. -/
theorem run_of_unhashed (p : Pair) {key : RStr} {e : Raise}
    (unhashed : n.shard.includes key = .error e) (enough : p.arity ≤ args.length) :
    (p.cmd.exec (key :: args)).run Node.call n = some (.error e, n) := by
  have asked : Node.call n (.shardInclude key) = some (n.shard.includes key, n) := rfl
  rw [unhashed] at asked
  have raising : ∀ query here, (unlessLocal key query here).run Node.call n =
    some (.error e, n) := by
    intro query here
    rw [unlessLocal, engine, Prog.lift_bind, Prog.run, asked]
  cases p with
  | setGet =>
      cases args with
      | nil => exact absurd enough (by simp [arity])
      | cons data rest => exact raising _ _
  | pushRef =>
      cases args with
      | nil => exact absurd enough (by simp [arity])
      | cons data rest => exact raising _ _
  | mapAddRef hkey =>
      rcases args with _ | ⟨h, _ | ⟨data, rest⟩⟩
      · exact absurd enough (by simp [arity])
      · exact absurd enough (by simp [arity])
      · exact raising _ _

theorem takes_cons (p : Pair) (n : Node) {k : CStr} (shown : k.toR ∉ hiddenKeys)
    (enough : p.arity ≤ args.length) :
    p.Takes n (k.toR :: args) ↔ (p.cmd.effect collides (n.content k) args).Answered := by
  rw [KeyEffect.answered_iff]
  constructor
  · intro takes
    obtain ⟨k', args', same, _, _, answerable⟩ := takes
    obtain ⟨sameKey, rfl⟩ := List.cons.inj same
    rwa [CStr.toR_injective sameKey]
  · intro answerable
    exact ⟨k, args, rfl, shown, enough, answerable⟩

theorem start_of_shown {key : RStr} (shown : key ∉ hiddenKeys) (cmd : Cmd) (args : List RStr) :
    cmd.start false (key :: args) = cmd.exec (key :: args) := by
  rw [Cmd.start, List.head?_cons]
  exact if_neg fun both => shown both.2

theorem refused_of_ran {out : Option (Except Raise Reply × Node)}
    {r : Except Raise Reply} {n : Node}
    (ran : out = some (r, n)) (refused : Refused r) : ∀ r n', out = some (r, n') → Refused r := by
  intro r' n' ran'
  obtain ⟨rfl, _⟩ := Prod.mk.inj (Option.some.inj (ran.symm.trans ran'))
  exact refused

/-- A write on a node that has every slot: it is acknowledged, or it is refused. -/
theorem run_cases (p : Pair) (proper : n.Proper)
    (alone : ∀ k : CStr, n.shard.includes k.toR = .ok true) (argv : List RStr) :
    (p.Takes n argv ∧ ∃ n', (p.cmd.start false argv).run Node.call n =
      some (.ok (Command.text "-OK"), n')) ∨
      (¬ p.Takes n argv ∧ ∀ r n', (p.cmd.start false argv).run Node.call n = some (r, n') →
        Refused r) := by
  cases argv with
  | nil =>
      obtain ⟨s, known, told⟩ := p.exec_of_bare
      refine Or.inr ⟨?_, refused_of_ran (told n) (refused_text known)⟩
      intro takes
      obtain ⟨k, args, same, _⟩ := takes
      cases same
  | cons key args =>
      by_cases hidden : key ∈ hiddenKeys
      · have refusing : (p.cmd.start false (key :: args)).run Node.call n =
            some (.error (.illegalKey (lit "Key: " ++ key ++ lit " is illegal")), n) := by
          rw [Cmd.start, List.head?_cons]
          dsimp only
          rw [if_pos ⟨Bool.false_ne_true, hidden⟩]
          rfl
        rw [List.append_assoc] at refusing
        refine Or.inr ⟨?_, refused_of_ran refusing (refused_illegalKey _)⟩
        intro takes
        obtain ⟨k, args', same, shown, _⟩ := takes
        rw [List.head_eq_of_cons_eq same] at hidden
        exact shown hidden
      · rw [start_of_shown hidden]
        rcases Nat.lt_or_ge args.length p.arity with missing | enough
        · obtain ⟨s, known, told⟩ := p.exec_of_missing key missing
          refine Or.inr ⟨?_, refused_of_ran (told n) (refused_text known)⟩
          intro takes
          obtain ⟨k, args', same, _, enough, _⟩ := takes
          obtain ⟨_, rfl⟩ := List.cons.inj same
          exact absurd enough (Nat.not_le_of_lt missing)
        · cases included : n.shard.includes key with
          | error e =>
              have raised := p.run_of_unhashed included enough
              rw [error_of_includes included] at raised
              refine Or.inr ⟨?_, refused_of_ran raised refused_argumentError⟩
              intro takes
              obtain ⟨k, args', same, _⟩ := takes
              rw [List.head_eq_of_cons_eq same, alone k] at included
              cases included
          | ok b =>
              obtain ⟨k, known⟩ := KeyShard.includes_nulFree included
              obtain rfl := toR_of_stringValueCStr known
              rw [p.takes_cons n hidden enough]
              rcases p.effect_of_enough (n.content k) enough with
                crashes | ⟨a, stores⟩ | ⟨a, raises⟩
              · refine Or.inr ⟨by rw [crashes]; exact KeyEffect.not_answered_none, ?_⟩
                intro r n' ran
                obtain ⟨a, effect, _⟩ := proper.effect_of_run (alone k) ran
                rw [crashes] at effect
                cases effect
              · obtain ⟨n', ran, _⟩ := proper.run_of_effect (alone k) stores
                exact Or.inl ⟨⟨_, a, stores, KeyEffect.marked_ok⟩, n', ran⟩
              · obtain ⟨n', ran, _⟩ := proper.run_of_effect (alone k) raises
                refine Or.inr ⟨?_, refused_of_ran ran refused_argumentError⟩
                intro answered
                obtain ⟨reply, a', same, _⟩ := answered
                rw [raises] at same
                cases same

/-! ## The write on the session -/

theorem ofName_name (p : Pair) : Cmd.ofName p.name = some p.cmd := by
  cases p <;> rfl

theorem name_plain (p : Pair) :
    PlainWord p.name ∧ upcase p.name = p.name ∧ 10 ∉ p.name ∧ 13 ∉ p.name := by
  cases p <;> dsimp only [name] <;> decide +kernel

/-- A write whose only result is a failure does not return true. -/
theorem not_succeeds {cluster : ClusterCommand} {c t t' : Connection} {q line : RStr}
    (queried : query cluster c q = some ([process line], t')) (failure : Failure line) :
    succeeds cluster c q ≠ some (true, t) := by
  rw [succeeds, queried]
  intro succeeded
  obtain ⟨success, _⟩ := Prod.mk.inj (Option.some.inj succeeded)
  exact Bool.false_ne_true (failure.symm.trans success)

theorem write_eq (p : Pair) (cluster : ClusterCommand) (c : Connection) (key data : RStr) :
    p.write cluster c key data = succeeds cluster c (p.text key data) := by
  cases p <;> simp [write, set, listPush, mapAdd, text, name, words, lit]

theorem parse_text (p : Pair) (key data : RStr) :
    ∃ argv, parseXql (wireLine (p.text key data)) = some ⟨p.name, argv⟩ := by
  obtain ⟨plain, upper, noFeed, _⟩ := p.name_plain
  obtain ⟨rest, line⟩ := wireLine_word noFeed
    ((p.words key).foldr (fun w rest => w ++ 32 :: rest) (quote data))
  obtain ⟨argv, parsed⟩ := parseXql_word plain rest
  refine ⟨argv, ?_⟩
  rw [text, line, parsed, upper]

theorem write_cases (p : Pair) (cluster : ClusterCommand) {c : Connection} (idle : c.Idle)
    (proper : c.node.Proper) (alone : ∀ k : CStr, c.node.shard.includes k.toR = .ok true)
    (key data : RStr) :
    (∃ argv n t, parseXql (wireLine (p.text key data)) = some ⟨p.name, argv⟩ ∧ p.Takes c.node argv ∧
        (p.cmd.start false argv).run Node.call c.node = some (.ok (Command.text "-OK"), n) ∧
        p.write cluster c key data = some (true, t) ∧ Leaves c (p.text key data) n t) ∨
      (¬ p.Accepted c.node key data ∧ ∀ t, p.write cluster c key data ≠ some (true, t)) := by
  obtain ⟨argv, parsed⟩ := p.parse_text key data
  have blank : 32 ∈ wireLine (p.text key data) := blank_mem_wireLine p.name_plain.2.2.1 _
  rw [p.write_eq]
  rcases p.run_cases proper alone argv with ⟨takes, n, ran⟩ | ⟨refuses, refused⟩
  · obtain ⟨t, queried, leaves⟩ := query_ok idle blank parsed p.ofName_name rfl ran
    refine Or.inl ⟨argv, n, t, parsed, takes, ran, ?_, leaves (by decide)⟩
    rw [succeeds, queried]
    rfl
  · refine Or.inr ⟨fun accepted => refuses (accepted _ parsed), ?_⟩
    intro t
    have stuck : query cluster c (p.text key data) = none →
        succeeds cluster c (p.text key data) ≠ some (true, t) := by
      intro nothing succeeded
      rw [succeeds, nothing] at succeeded
      cases succeeded
    cases out : (p.cmd.start false argv).run Node.call c.node with
    | none => exact stuck (query_stuck idle blank parsed p.ofName_name (Or.inl out))
    | some outcome =>
        obtain ⟨r, n⟩ := outcome
        have failing := refused r n out
        cases r with
        | ok reply =>
            obtain ⟨v, one, failure⟩ := failing
            obtain ⟨t', queried, _⟩ := query_ok idle blank parsed p.ofName_name one out
            exact not_succeeds queried failure
        | error e =>
            rcases eq_or_ne e .noReply with rfl | replied
            · exact stuck (query_stuck idle blank parsed p.ofName_name (Or.inr ⟨n, out⟩))
            · obtain ⟨t', queried⟩ := query_error idle blank parsed p.ofName_name replied out
              exact not_succeeds queried (failing.resolve_left replied)

theorem not_mem_text (p : Pair) {key data : RStr} (unspaced : ∀ w ∈ p.words key, Unspaced w)
    (oneLine : 10 ∉ data) : 10 ∉ p.text key data := by
  obtain ⟨front, split, inside⟩ := foldr_words (p.words key) (quote data)
  intro feed
  rw [text, split, List.mem_append, List.mem_cons, List.mem_append] at feed
  rcases feed with inName | blank | inFront | inData
  · exact p.name_plain.2.2.1 inName
  · cases blank
  · rcases inside 10 inFront with blank | ⟨w, isIn, inWord⟩
    · cases blank
    · exact (unspaced w isIn).not_mem (by decide) inWord
  · have mark : (10 : UInt8) ∉ lit "\"" := by decide
    rw [quote, List.mem_append, List.mem_append] at inData
    rcases inData with (first | inside) | last
    · exact mark first
    · exact oneLine inside
    · exact mark last

/-- The text of a write whose data is one line. -/
theorem wireLine_text (p : Pair) {key data : RStr} (unspaced : ∀ w ∈ p.words key, Unspaced w)
    (oneLine : 10 ∉ data) : wireLine (p.text key data) = p.text key data := by
  have noFeed := p.not_mem_text unspaced oneLine
  refine (wireLine_eq_iff le_rfl).mpr ⟨rfl, noFeed, ?_⟩
  obtain ⟨front, split, _⟩ := foldr_words (p.words key) (quote data)
  have ends : p.text key data = (p.name ++ 32 :: (front ++ lit "\"" ++ data)) ++ [34] := by
    rw [text, split, quote]
    simp [lit]
  rw [ends, List.getLast?_concat]
  decide

theorem parse_text_line (p : Pair) {key data : RStr} (unspaced : ∀ w ∈ p.words key, Unspaced w)
    (oneLine : 10 ∉ data) :
    parseXql (wireLine (p.text key data)) =
      some ⟨p.name, (p.words key).flatMap tokens ++ tokenize (quote data)⟩ := by
  obtain ⟨plain, upper, _⟩ := p.name_plain
  rw [p.wireLine_text unspaced oneLine, text, parse_name plain, upper, tokenize_words unspaced]

end Pair

end RubyClient

end XFireDB
