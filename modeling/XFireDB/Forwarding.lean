import XFireDB.Carry
import XFireDB.HiddenKeys
import XFireDB.WhereIs
import XFireDB.QueryWords
import XFireDB.Session

/-!
# Forwarded requests

A request that arrives at a node without its key is sent on as a text.  Where the
arguments survive as words of that text and the key has one owner, the request is
executed there as if it had been sent to the owner: `serve_forwarded`.
-/

namespace XFireDB

open Lib Command

/-! ## Arguments that survive -/

/-- A word without blanks or quotes that `strip` leaves alone, on one line. -/
structure Bare (w : RStr) : Prop where
  nonempty : w ≠ []
  noSpace : 32 ∉ w
  noQuote : 34 ∉ w
  stripped : strip w = w
  oneLine : 10 ∉ w

/-- Data that can be read back between quotes, on one line. -/
structure Encloses (d : RStr) : Prop where
  quotable : Quotable d
  oneLine : 10 ∉ d

/-- The arguments after the key survive as words of the query text. -/
def Cmd.Carries : Cmd → List RStr → Prop
  | .set, data :: _ => Encloses data
  | .lPush, data :: _ => Encloses data
  | .mAdd, hkey :: data :: _ => Bare hkey ∧ Encloses data
  | .lSet, idx :: data :: _ => Bare idx ∧ Encloses data
  | .lPop, idx :: _ => Bare idx
  | .lRef, idx :: _ => Bare idx
  | .mRef, args => ∀ w ∈ args, Bare w
  | .mDel, args => ∀ w ∈ args, Bare w
  | .sAdd, args => ∀ d ∈ args, Encloses d
  | .sDel, args => ∀ d ∈ args, Encloses d
  | .sInclude, args => ∀ d ∈ args, Encloses d
  | _, _ => True

def AskedKey.cstr (key : AskedKey) : CStr := ⟨key.bytes, key.nulFree⟩

theorem AskedKey.bare (key : AskedKey) : Bare key.bytes :=
  ⟨key.nonempty, key.noSpace, key.noQuote, key.stripped, key.oneLine⟩

theorem Bare.isToken {w : RStr} (bare : Bare w) : IsToken w w :=
  isToken_unquoted bare.nonempty bare.noSpace bare.noQuote bare.stripped

theorem Encloses.isToken {d : RStr} (encloses : Encloses d) : IsToken (quote d) d :=
  (IsField.quote encloses.quotable).isToken

theorem Bare.last {w : RStr} (bare : Bare w) : w.getLast? ≠ some 13 := by
  intro last
  rw [← bare.stripped] at last
  exact absurd (last_of_strip last) (by decide)

theorem last_quote (d : RStr) : (quote d).getLast? = some 34 := by
  rw [quote, List.getLast?_append_of_ne_nil _ (by decide)]
  rfl

/-- A text on one line that does not end in a carriage return, with the token it
stands for. -/
structure IsArgument (text token : RStr) : Prop where
  isToken : IsToken text token
  oneLine : 10 ∉ text
  last : text.getLast? ≠ some 13

theorem Bare.isArgument {w : RStr} (bare : Bare w) : IsArgument w w :=
  ⟨bare.isToken, bare.oneLine, bare.last⟩

theorem Encloses.isArgument {d : RStr} (encloses : Encloses d) : IsArgument (quote d) d where
  isToken := encloses.isToken
  oneLine := by
    intro member
    rw [quote, List.mem_append, List.mem_append] at member
    rcases member with (front | inside) | back
    · exact absurd front (by decide)
    · exact encloses.oneLine inside
    · exact absurd back (by decide)
  last := by
    rw [last_quote]
    decide

/-- What a query text has after the key, with the arguments it stands for. -/
inductive Tail : RStr → List RStr → Prop
  | bare : Tail [] []
  | fields (fields : List (RStr × RStr)) (areArguments : ∀ f ∈ fields, IsArgument f.1 f.2) :
    Tail (32 :: join (lit " ") (fields.map Prod.fst)) (fields.map Prod.snd)

theorem Tail.one {text token : RStr} (isArgument : IsArgument text token) :
    Tail (32 :: text) [token] := by
  have tail := Tail.fields [(text, token)] (by simpa using isArgument)
  rwa [List.map_singleton, List.map_singleton, join_singleton] at tail

theorem Tail.two {text text' token token' : RStr} (first : IsArgument text token)
    (second : IsArgument text' token') : Tail (32 :: text ++ 32 :: text') [token, token'] := by
  have tail := Tail.fields [(text, token), (text', token')] (by simpa using ⟨first, second⟩)
  rwa [List.map_cons, List.map_singleton, join_cons, join_singleton] at tail

theorem Tail.words {args : List RStr} (bare : ∀ w ∈ args, Bare w) :
    Tail (32 :: join (lit " ") args) args := by
  have tail := Tail.fields (args.map fun w => (w, w)) (by
    intro f member
    obtain ⟨w, isIn, rfl⟩ := List.mem_map.mp member
    exact (bare w isIn).isArgument)
  rwa [List.map_map, List.map_map, show Prod.fst ∘ (fun w : RStr => (w, w)) = id from rfl,
    show Prod.snd ∘ (fun w : RStr => (w, w)) = id from rfl, List.map_id] at tail

theorem Tail.quotes {args : List RStr} (enclose : ∀ d ∈ args, Encloses d) :
    Tail (32 :: join (lit " ") (args.map quote)) args := by
  have tail := Tail.fields (args.map fun d => (quote d, d)) (by
    intro f member
    obtain ⟨d, isIn, rfl⟩ := List.mem_map.mp member
    exact (enclose d isIn).isArgument)
  rwa [List.map_map, List.map_map, show Prod.fst ∘ (fun d : RStr => (quote d, d)) = quote from rfl,
    show Prod.snd ∘ (fun d : RStr => (quote d, d)) = id from rfl, List.map_id] at tail

theorem Tail.tokenize_key {tail key : RStr} {args : List RStr} (isTail : Tail tail args)
    (isToken : IsToken key key) : tokenize (key ++ tail) = key :: args := by
  cases isTail with
  | bare => exact tokenize_append isToken (Or.inl rfl)
  | fields fields areArguments =>
      rw [tokenize_append isToken (Or.inr ⟨_, rfl⟩), tokenize_space,
        tokenize_join fun f member => (areArguments f member).isToken]

theorem Tail.oneLine {tail : RStr} {args : List RStr} (isTail : Tail tail args) : 10 ∉ tail := by
  cases isTail with
  | bare => exact List.not_mem_nil
  | fields fields areArguments =>
      intro member
      have inside := (List.mem_cons.mp member).resolve_left (by decide)
      rcases mem_join inside with blank | ⟨w, isIn, inWord⟩
      · exact absurd blank (by decide)
      · obtain ⟨f, isField, rfl⟩ := List.mem_map.mp isIn
        exact (areArguments f isField).oneLine inWord

theorem last_join {texts : List RStr} (last : ∀ w ∈ texts, w.getLast? ≠ some 13) :
    (32 :: join (lit " ") texts).getLast? ≠ some 13 := by
  induction texts with
  | nil => decide
  | cons w texts ih =>
      have here := last w List.mem_cons_self
      have later := ih fun v member => last v (List.mem_cons_of_mem w member)
      cases texts with
      | nil =>
          rw [join_singleton]
          rcases eq_or_ne w [] with rfl | nonempty
          · decide
          · obtain ⟨b, w', rfl⟩ := List.exists_cons_of_ne_nil nonempty
            rwa [List.getLast?_cons_cons]
      | cons v texts =>
          rw [join_cons]
          have shape : 32 :: (w ++ 32 :: join (lit " ") (v :: texts)) =
              (32 :: w) ++ (32 :: join (lit " ") (v :: texts)) := rfl
          rw [shape, List.getLast?_append_of_ne_nil _ (List.cons_ne_nil _ _)]
          exact later

theorem Tail.last {tail key : RStr} {args : List RStr} (isTail : Tail tail args) (bare : Bare key) :
    (key ++ tail).getLast? ≠ some 13 := by
  cases isTail with
  | bare =>
      rw [List.append_nil]
      exact bare.last
  | fields fields areArguments =>
      rw [List.getLast?_append_of_ne_nil _ (List.cons_ne_nil _ _)]
      apply last_join
      intro w member
      obtain ⟨f, isField, rfl⟩ := List.mem_map.mp member
      exact (areArguments f isField).last

/-- A command word, a key and its arguments arrive as they were sent. -/
theorem Tail.parse {name tail key : RStr} {args : List RStr} (isTail : Tail tail args)
    (plain : PlainWord name) (oneLine : 10 ∉ name) (bare : Bare key) :
    parseXql (wireLine (name ++ 32 :: (key ++ tail))) = some ⟨upcase name, key :: args⟩ := by
  have kept : wireLine (name ++ 32 :: (key ++ tail)) = name ++ 32 :: (key ++ tail) := by
    refine (wireLine_eq_iff le_rfl).mpr ⟨rfl, ?_, ?_⟩
    · intro member
      rcases List.mem_append.mp member with inName | later
      · exact oneLine inName
      · rcases List.mem_append.mp
          ((List.mem_cons.mp later).resolve_left (by decide)) with inKey | inTail
        · exact bare.oneLine inKey
        · exact isTail.oneLine inTail
    · have nonempty : key ++ tail ≠ [] := List.append_ne_nil_of_left_ne_nil bare.nonempty tail
      obtain ⟨b, rest, shape⟩ := List.exists_cons_of_ne_nil nonempty
      rw [List.getLast?_append_of_ne_nil _ (List.cons_ne_nil _ _), shape,
        List.getLast?_cons_cons, ← shape]
      exact isTail.last bare
  rw [kept, parse_name plain, isTail.tokenize_key bare.isToken]

/-! ## Replies that survive -/

/-- A line that is read back as it was written. -/
def Uncut (v : RStr) : Prop := 10 ∉ v ∧ v.getLast? ≠ some 13

instance (v : RStr) : Decidable (Uncut v) :=
  inferInstanceAs (Decidable (10 ∉ v ∧ v.getLast? ≠ some 13))

def Reply.Uncut (r : Reply) : Prop := ∀ v ∈ r.strings, XFireDB.Uncut v

instance (r : Reply) : Decidable r.Uncut :=
  inferInstanceAs (Decidable (∀ v ∈ r.strings, XFireDB.Uncut v))

theorem Uncut.puts {v : RStr} (uncut : Uncut v) : puts v = v ++ [10] := by
  rw [XFireDB.puts, if_neg fun last => uncut.1 (List.mem_of_getLast? last)]

theorem Uncut.chomp {v : RStr} (uncut : Uncut v) : chomp v = v :=
  (chomp_eq_self_iff v).mpr ⟨fun last => uncut.1 (List.mem_of_getLast? last), uncut.2⟩

theorem getsLines_uncut {l : List RStr} (uncut : ∀ v ∈ l, Uncut v) :
    getsLines (l.map puts).flatten = l := by
  induction l with
  | nil => rfl
  | cons v l ih =>
      have here := uncut v List.mem_cons_self
      have later := ih fun w member => uncut w (List.mem_cons_of_mem v member)
      rw [List.map_cons, List.flatten_cons, here.puts, List.append_assoc, List.singleton_append,
        getsLines_line here.1, here.chomp, later]

/-- The worker writes for a reply that came over the bus what it writes for the reply. -/
theorem Reply.Uncut.written_received {r : Reply} (uncut : r.Uncut) :
    r.received.written = r.written := by
  cases r with
  | text v =>
      have lines : getsLines (Reply.text v).bytes = [v] := by
        have one := getsLines_uncut (l := [v]) uncut
        rwa [List.map_singleton, List.flatten_singleton] at one
      rw [received, lines]
  | lines l =>
      have lines : getsLines (Reply.lines l).bytes = l := getsLines_uncut uncut
      rw [received, lines]
      match l with
      | [] => rfl
      | [v] =>
          rw [written, written, List.map_singleton, List.map_singleton, join_singleton,
            List.flatten_singleton]
      | _ :: _ :: _ => rfl

/-- What the client that sent a request hears: the worker writes the reply, or the text of
the exception, and nothing while it waits for the bus. -/
def heard : Except Raise Reply → Option RStr
  | .ok r => some r.written
  | .error .noReply => none
  | .error e => some (Reply.text e.rescued).written

/-- The outcome for the node that has sent a query on: an exception ends the thread of the
bus, and no reply comes. -/
def passedBack : Except Raise Reply → Except Raise Reply
  | .ok r => .ok r
  | .error _ => .error .noReply

theorem heard_eq_none_iff {e : Raise} : heard (.error e) = none ↔ e = .noReply := by
  cases e <;> simp [heard]

theorem heard_passedBack_error (e : Raise) : heard (passedBack (.error e)) = none := rfl

/-! ## Query texts -/

/-- The word of a command. -/
def Cmd.word : Cmd → RStr
  | .get => lit "GET"
  | .set => lit "SET"
  | .delete => lit "DELETE"
  | .mAdd => lit "MADD"
  | .mRef => lit "MREF"
  | .mClear => lit "MCLEAR"
  | .mDel => lit "MDEL"
  | .mSize => lit "MSIZE"
  | .sAdd => lit "SADD"
  | .sDel => lit "SDEL"
  | .sClear => lit "SCLEAR"
  | .sInclude => lit "SINCLUDE"
  | .lClear => lit "LCLEAR"
  | .lPush => lit "LPUSH"
  | .lPop => lit "LPOP"
  | .lSet => lit "LSET"
  | .lRef => lit "LREF"
  | .lSize => lit "LSIZE"

theorem Cmd.plain_word (cmd : Cmd) : PlainWord cmd.word ∧ 10 ∉ cmd.word := by
  cases cmd <;> decide +kernel

theorem Cmd.ofName_word (cmd : Cmd) : Cmd.ofName (upcase cmd.word) = some cmd := by
  cases cmd <;> rfl

/-- The query text is the word of the command, the key, and arguments that give the
same command. -/
theorem Cmd.query_tail {cmd : Cmd} {key query : RStr} {args : List RStr}
    (queryIs : cmd.query (key :: args) = some query) (carries : cmd.Carries args) :
    ∃ tail args', query = cmd.word ++ 32 :: (key ++ tail) ∧ Tail tail args' ∧
      cmd.exec (key :: args') = cmd.exec (key :: args) := by
  cases cmd with
  | set =>
      rcases args with _ | ⟨data, rest⟩
      · cases queryIs
      · obtain rfl := Option.some.inj queryIs
        exact ⟨_, _, by simp [word, lit], .one carries.isArgument, rfl⟩
  | lPush =>
      rcases args with _ | ⟨data, rest⟩
      · cases queryIs
      · obtain rfl := Option.some.inj queryIs
        exact ⟨_, _, by simp [word, lit], .one carries.isArgument, rfl⟩
  | mAdd =>
      rcases args with _ | ⟨hkey, _ | ⟨data, rest⟩⟩
      · cases queryIs
      · cases queryIs
      · obtain rfl := Option.some.inj queryIs
        exact ⟨_, _, by simp [word, lit], .two carries.1.isArgument carries.2.isArgument, rfl⟩
  | lSet =>
      rcases args with _ | ⟨idx, _ | ⟨data, rest⟩⟩
      · cases queryIs
      · cases queryIs
      · dsimp only [Cmd.query] at queryIs
        split at queryIs
        · obtain rfl := Option.some.inj queryIs
          exact ⟨_, _, by simp [word, lit], .two carries.1.isArgument carries.2.isArgument, rfl⟩
        · cases queryIs
  | lPop =>
      rcases args with _ | ⟨idx, rest⟩
      · cases queryIs
      · obtain rfl := Option.some.inj queryIs
        exact ⟨_, _, by simp [word, lit], .one carries.isArgument, rfl⟩
  | lRef =>
      rcases args with _ | ⟨idx, rest⟩
      · cases queryIs
      · obtain rfl := Option.some.inj queryIs
        exact ⟨_, _, by simp [word, lit], .one carries.isArgument, rfl⟩
  | mRef =>
      obtain rfl := Option.some.inj queryIs
      exact ⟨_, _, by simp [word, lit], .words carries, rfl⟩
  | mDel =>
      obtain rfl := Option.some.inj queryIs
      exact ⟨_, _, by simp [word, lit], .words carries, rfl⟩
  | sAdd =>
      rcases args with _ | ⟨hkey, rest⟩
      · cases queryIs
      · obtain rfl := Option.some.inj queryIs
        exact ⟨_, _, by simp [word, lit], .quotes carries, rfl⟩
  | sDel =>
      rcases args with _ | ⟨hkey, rest⟩
      · cases queryIs
      · obtain rfl := Option.some.inj queryIs
        exact ⟨_, _, by simp [word, lit], .quotes carries, rfl⟩
  | sInclude =>
      rcases args with _ | ⟨hkey, rest⟩
      · cases queryIs
      · obtain rfl := Option.some.inj queryIs
        exact ⟨_, _, by simp [word, lit], .quotes carries, rfl⟩
  | _ =>
      -- only the key is sent
      obtain rfl := Option.some.inj queryIs
      exact ⟨_, _, by simp [word, lit], .bare, rfl⟩

/-! ## The owner -/

namespace Cluster

variable {ι : Type} {c : Cluster ι} {e o : ι} {key : AskedKey}

/-- The node is in the table of `e`, and it alone has the key's slot. -/
structure SoleOwner (c : Cluster ι) (e o : ι) (key : AskedKey) : Prop where
  known : o ∈ c.table e
  owns : c.Owns key o
  alone : ∀ i, c.Owns key i → i = o

theorem subject_whereIs (key : AskedKey) :
    subject (lit "CLUSTER WHEREIS? " ++ key.bytes) = some key.bytes := by
  have shape : lit "CLUSTER WHEREIS? " ++ key.bytes =
      lit "CLUSTER" ++ 32 :: (lit "WHEREIS?" ++ 32 :: (key.bytes ++ [])) := by
    simp [lit]
  have word : IsToken (lit "WHEREIS?") (lit "WHEREIS?") :=
    isToken_unquoted (by decide) (by decide) (by decide) (by decide)
  rw [shape, subject, parse_name (by decide +kernel),
    tokenize_append word (Or.inr ⟨_, rfl⟩), tokenize_space,
    tokenize_append key.isToken (Or.inl rfl)]
  rfl

theorem ask_asked (alone : ∀ i, c.Owns key i → i = o) {ids : List ι} (owns : c.Owns key o)
    (member : o ∈ ids) : c.ask key.bytes ids = .ok o := by
  induction ids with
  | nil => cases member
  | cons i ids ih =>
      rw [ask, youHave_asked]
      by_cases here : c.Owns key i
      · rw [decide_eq_true here, alone i here]
      · rw [decide_eq_false here]
        apply ih
        rcases List.mem_cons.mp member with rfl | later
        · exact absurd owns here
        · exact later

/-- The owner is named. -/
theorem SoleOwner.whereIs (sole : c.SoleOwner e o key) : c.whereIs e key.bytes = .ok o := by
  rw [Cluster.whereIs, subject_whereIs]
  exact ask_asked sole.alone sole.owns sole.known

theorem includes_asked (c : Cluster ι) (key : AskedKey) (i : ι) :
    (c.node i).shard.includes key.bytes = .ok (decide (c.Owns key i)) := by
  rw [KeyShard.includes, key.keyToSlot_eq]
  rfl

/-- What is executed for a text that is sent on. -/
theorem SoleOwner.target (sole : c.SoleOwner e o key) {cmd : Cmd} {args : List RStr} {query : RStr}
    (queryIs : cmd.query (key.bytes :: args) = some query) (carries : cmd.Carries args) :
    ∃ args', c.target e key.bytes query = some (o, ⟨cmd, key.bytes :: args'⟩) ∧
      cmd.exec (key.bytes :: args') = cmd.exec (key.bytes :: args) := by
  obtain ⟨tail, args', rfl, isTail, same⟩ := Cmd.query_tail queryIs carries
  obtain ⟨plain, oneLine⟩ := cmd.plain_word
  refine ⟨args', ?_, same⟩
  rw [Cluster.target, sole.whereIs]
  simp only [isTail.parse plain oneLine key.bare, Option.bind_some, cmd.ofName_word,
    Option.map_some]

/-! ## Execution at the owner -/

variable [DecidableEq ι]

omit [DecidableEq ι] in
theorem gives_whole {β : Type} (call : Call β) (b : β) : Region.whole.Gives call b := by
  cases call with
  | dbRef key => exact fun _ _ _ => trivial
  | _ => trivial

/-- A script that forwards nothing runs at a node of a cluster as on the node alone. -/
theorem run_onNode {α : Type} {p : Script α} (stays : Stays Region.whole (fun _ _ => False) p)
    (fwd : Forwarder ι) (e : ι) (c : Cluster ι) :
    p.run (Cluster.call fwd e) c = (p.run Node.call (c.node e)).map fun out =>
      (out.1, { c with node := Function.update c.node e out.2 }) := by
  induction p generalizing c with
  | ret a => rw [Prog.run, Prog.run, Option.map_some, Function.update_eq_self]
  | raise r => rw [Prog.run, Prog.run, Option.map_some, Function.update_eq_self]
  | call call k ih =>
      obtain ⟨permits, later⟩ := stays
      rw [Prog.run, Prog.run, call_eq_onNode permits.2, onNode]
      rcases Node.call (c.node e) call with _ | ⟨r | b, t⟩
      · rfl
      · rfl
      · have rest := ih b (later b (gives_whole call b))
          { c with node := Function.update c.node e t }
        simp only [Function.update_self, Function.update_idem] at rest
        exact rest

/-- At the owner a command runs as on the node alone. -/
theorem exec_atHome (c : Cluster ι) {key : RStr} (home : (c.node e).shard.includes key = .ok true)
    (fwd : Forwarder ι) (cmd : Cmd) (args : List RStr) :
    (cmd.exec (key :: args)).run (Cluster.call fwd e) c =
      ((cmd.exec (key :: args)).run Node.call (c.node e)).map fun out =>
        (out.1, { c with node := Function.update c.node e out.2 }) := by
  have inside : Region.whole.KeyIn key := fun _ _ => trivial
  rcases eq_or_ne cmd .delete with rfl | notDelete
  · have here := run_onNode ((local_deleteHere key).stays _ _ inside) fwd e c
    have asked : Node.call (c.node e) (.shardInclude key) = some (.ok true, c.node e) := by
      rw [Node.call, home]
    have alone : (Command.delete (key :: args)).run Node.call (c.node e) =
        (deleteHere key).run Node.call (c.node e) := Prog.run_bind_ok (Prog.run_lift_ok asked)
    show (Command.delete (key :: args)).run _ c = ((Command.delete (key :: args)).run _ _).map _
    rw [delete_run, home, alone]
    exact here
  · cases queryIs : cmd.query (key :: args) with
    | none =>
        obtain ⟨reply, same⟩ := Cmd.exec_of_query_none queryIs
        rw [same]
        exact run_onNode (stays_pure reply) fwd e c
    | some query =>
        obtain ⟨here, same, isLocal⟩ := Cmd.shape notDelete queryIs
        rw [same, unlessLocal_run, home, run_unlessLocal home]
        exact run_onNode (isLocal.stays _ _ inside) fwd e c

/-- With a sole owner elsewhere, a command other than DELETE is executed there and its
reply brought back. -/
theorem SoleOwner.exec_elsewhere (sole : c.SoleOwner e o key) (elsewhere : e ≠ o) {cmd : Cmd}
    {args : List RStr} (notDelete : cmd ≠ .delete) {query : RStr}
    (queryIs : cmd.query (key.bytes :: args) = some query)
    (carries : cmd.Carries args) (fuel : Nat) :
    (cmd.exec (key.bytes :: args)).run (Cluster.call (forward (fuel + 1)) e) c =
      busReply ((cmd.exec (key.bytes :: args)).run (Cluster.call (forward fuel) o) c) := by
  have away : ¬ c.Owns key e := fun owns => elsewhere (sole.alone e owns)
  obtain ⟨args', target, sameCommand⟩ := sole.target queryIs carries
  obtain ⟨here, same, _⟩ := Cmd.shape notDelete queryIs
  have farther := forward_target target fuel
  rw [sameCommand] at farther
  rw [← farther, same, unlessLocal_run, includes_asked, decide_eq_false away]

/-- Deleting a key that the node does not hold. -/
theorem deleteHere_idle {n : Node} {k : CStr} (missing : n.db k = none) :
    (deleteHere k.toR).run Node.call n =
      some (.ok (text "-OK"), { n with shard := n.shard.delKey k.toR }) := by
  have deleted : Node.call n (.dbDelete k.toR) = some (.ok (), n) := by
    rw [Node.call, Node.rbDbDelete, stringValueCStr_toR]
    simp only [missing]
  exact (Prog.run_bind_ok (Prog.run_lift_ok deleted)).trans rfl

theorem delKey_idle {shard : KeyShard} {key : RStr} (untracked : key ∉ shard.keys) :
    shard.delKey key = shard := by
  refine KeyShard.eq_of_slots_keys rfl (List.filter_eq_self.mpr ?_)
  intro key' member
  exact decide_eq_true fun same => untracked (same ▸ member)

/-- A DELETE at a node that does not own the key ends as at the owner, and the key is
deleted at the node itself. -/
theorem SoleOwner.delete_elsewhere (sole : c.SoleOwner e o key) (elsewhere : e ≠ o)
    (missing : (c.node e).db key.cstr = none) (args : List RStr) (fuel : Nat) :
    ∃ t, (Command.delete (key.bytes :: args)).run Node.call (c.node o) =
        some (.ok (text "-OK"), t) ∧
      (Command.delete (key.bytes :: args)).run (Cluster.call (forward (fuel + 1)) e) c =
        some (.ok (text "-OK"), { c with
          node := Function.update (Function.update c.node o t) e
            { c.node e with shard := (c.node e).shard.delKey key.bytes } }) := by
  have home : (c.node o).shard.includes key.bytes = .ok true := by
    rw [includes_asked, decide_eq_true sole.owns]
  have away : (c.node e).shard.includes key.bytes = .ok false := by
    rw [includes_asked, decide_eq_false fun owns => elsewhere (sole.alone e owns)]
  have asked : Node.call (c.node o) (.shardInclude key.bytes) = some (.ok true, c.node o) := by
    rw [Node.call, home]
  have alone : (Command.delete (key.bytes :: args)).run Node.call (c.node o) =
      (deleteHere key.bytes).run Node.call (c.node o) := Prog.run_bind_ok (Prog.run_lift_ok asked)
  obtain ⟨t, deleted⟩ : ∃ t, (deleteHere key.cstr.toR).run Node.call (c.node o) =
      some (.ok (text "-OK"), t) := by
    obtain ⟨n, first⟩ : ∃ n, Node.call (c.node o) (.dbDelete key.cstr.toR) = some (.ok (), n) := by
      rw [Node.call, Node.rbDbDelete, stringValueCStr_toR]
      dsimp only
      split
      · exact ⟨_, rfl⟩
      · exact ⟨_, rfl⟩
    exact ⟨_, (Prog.run_bind_ok (Prog.run_lift_ok first)).trans rfl⟩
  refine ⟨t, alone.trans deleted, ?_⟩
  -- the owner's part
  have sent : Cmd.delete.query (key.bytes :: args) = some (lit "DELETE " ++ key.bytes) := rfl
  obtain ⟨args', target, sameCommand⟩ := sole.target sent trivial
  have there := exec_atHome c home (forward fuel) .delete args'
  rw [sameCommand] at there
  have passedOn : forward (fuel + 1) e c key.bytes (lit "DELETE " ++ key.bytes) =
      some (.ok (text "-OK").received, { c with node := Function.update c.node o t }) := by
    rw [forward_target target, sameCommand, there,
      show (Cmd.delete.exec (key.bytes :: args)).run Node.call (c.node o) =
        some (.ok (text "-OK"), t)
        from alone.trans deleted]
    rfl
  rw [delete_run, away, passedOn]
  -- the part of the node itself
  have inside : Region.whole.KeyIn key.bytes := fun _ _ => trivial
  have mine : { c with node := Function.update c.node o t }.node e = c.node e :=
    Function.update_of_ne elsewhere _ _
  have idle := deleteHere_idle missing
  have here := run_onNode ((local_deleteHere key.bytes).stays _ _ inside) (forward (fuel + 1)) e
    { c with node := Function.update c.node o t }
  rw [mine, show (deleteHere key.bytes).run Node.call (c.node e) = _ from idle] at here
  exact here

/-! ## What the client hears -/

/-- The outcome of a request as its client can tell it, and what it leaves. -/
def told (out : Option (Except Raise Reply × Cluster ι)) : Option (Option RStr × Cluster ι) :=
  out.map fun out => (heard out.1, out.2)

omit [DecidableEq ι] in
theorem told_busReply {out : Option (Except Raise Reply × Cluster ι)}
    (uncut : ∀ reply t, out = some (.ok reply, t) → reply.Uncut) :
    told (busReply out) = told (out.map fun out => (passedBack out.1, out.2)) := by
  match out with
  | none => rfl
  | some (.error r, t) => rfl
  | some (.ok reply, t) =>
      have same := (uncut reply t rfl).written_received
      exact congrArg (fun bytes => some (some bytes, t)) same

omit [DecidableEq ι] in
theorem told_map_id (out : Option (Except Raise Reply × Cluster ι)) :
    told (out.map fun out => (out.1, out.2)) = told out := by
  rw [show (fun out : Except Raise Reply × Cluster ι => (out.1, out.2)) = id from rfl,
    Option.map_id_fun, id]

/-- Every node refuses alike. -/
theorem told_refused {r : Request} (isRefused : refused r) (fuel fuel' : Nat) :
    told (serve fuel e c r) = told (serve fuel' o c r) := by
  obtain ⟨message, raises⟩ := script_of_refused isRefused
  rw [serve, serve, raises]
  rfl

/-- A request on a key with a sole owner tells a client of any node what it tells a
client of the owner, unless it raises there, and leaves the same. -/
theorem told_anywhere {cmd : Cmd} {args : List RStr} (sole : c.SoleOwner e o key)
    (allowed : ¬ refused ⟨cmd, key.bytes :: args⟩) (carries : cmd.Carries args)
    (uncut : ∀ reply t, (cmd.exec (key.bytes :: args)).run Node.call (c.node o) =
      some (.ok reply, t) →
      reply.Uncut)
    (idle : e ≠ o → cmd = .delete →
      (c.node e).db key.cstr = none ∧ key.bytes ∉ (c.node e).shard.keys) (fuel fuel' : Nat) :
    told (serve (fuel + 1) e c ⟨cmd, key.bytes :: args⟩) =
      told ((serve fuel' o c ⟨cmd, key.bytes :: args⟩).map fun out =>
        (if e = o then out.1 else passedBack out.1, out.2)) := by
  have home : (c.node o).shard.includes key.bytes = .ok true := by
    rw [includes_asked, decide_eq_true sole.owns]
  rw [serve, serve, script_of_not_refused allowed]
  dsimp only
  have atHome := fun fuel => exec_atHome c home (forward fuel) cmd args
  rcases eq_or_ne e o with rfl | elsewhere
  · rw [atHome, atHome]
    simp only [if_true]
    rw [told_map_id]
  · simp only [if_neg elsewhere]
    rcases eq_or_ne cmd .delete with rfl | notDelete
    · obtain ⟨missing, untracked⟩ := idle elsewhere rfl
      obtain ⟨t, deleted, away⟩ := sole.delete_elsewhere elsewhere missing args fuel
      have there := atHome fuel'
      rw [show (Cmd.delete.exec (key.bytes :: args)).run Node.call (c.node o) = _
        from deleted] at there
      have same : Function.update (Function.update c.node o t) e
          { c.node e with shard := (c.node e).shard.delKey key.bytes } =
          Function.update c.node o t := by
        have mine : Function.update c.node o t e = c.node e := Function.update_of_ne elsewhere _ _
        rw [delKey_idle untracked]
        exact (congrArg (Function.update _ e) mine.symm).trans (Function.update_eq_self _ _)
      rw [show (Cmd.delete.exec (key.bytes :: args)).run (Cluster.call (forward (fuel + 1)) e) c = _
        from away, there, same]
      rfl
    · cases queryIs : cmd.query (key.bytes :: args) with
      | none =>
          obtain ⟨reply, same⟩ := Cmd.exec_of_query_none queryIs
          rw [same]
          rfl
      | some query =>
          rw [sole.exec_elsewhere elsewhere notDelete queryIs carries, told_busReply]
          · rw [atHome, atHome]
          · intro reply t ran
            rw [atHome] at ran
            obtain ⟨⟨r, n⟩, ranAlone, same⟩ := Option.map_eq_some_iff.mp ran
            obtain ⟨rfl, _⟩ := Prod.mk.inj same
            exact uncut reply n ranAlone

/-- Clients of two nodes leave the cluster the same.  They hear the same, unless one of them
has asked the owner, the other has not, and the command raises. -/
theorem told_alike {e' : ι} {cmd : Cmd} {args : List RStr} (sole : c.SoleOwner e o key)
    (sole' : c.SoleOwner e' o key) (carries : cmd.Carries args)
    (uncut : ∀ reply t, (cmd.exec (key.bytes :: args)).run Node.call (c.node o) =
      some (.ok reply, t) →
      reply.Uncut)
    (idle : ∀ i, i ≠ o → cmd = .delete →
      (c.node i).db key.cstr = none ∧ key.bytes ∉ (c.node i).shard.keys) (fuel fuel' : Nat) :
    (told (serve (fuel + 1) e c ⟨cmd, key.bytes :: args⟩)).map Prod.snd =
        (told (serve (fuel' + 1) e' c ⟨cmd, key.bytes :: args⟩)).map Prod.snd ∧
      (told (serve (fuel + 1) e c ⟨cmd, key.bytes :: args⟩) =
          told (serve (fuel' + 1) e' c ⟨cmd, key.bytes :: args⟩) ↔
        (e = o ↔ e' = o) ∨ refused ⟨cmd, key.bytes :: args⟩ ∨
          ∀ raise t, serve 0 o c ⟨cmd, key.bytes :: args⟩ = some (.error raise, t) →
            raise = .noReply) := by
  by_cases isRefused : refused ⟨cmd, key.bytes :: args⟩
  · have same : told (serve (fuel + 1) e c ⟨cmd, key.bytes :: args⟩) =
        told (serve (fuel' + 1) e' c ⟨cmd, key.bytes :: args⟩) := told_refused isRefused _ _
    exact ⟨congrArg (Option.map Prod.snd) same, iff_of_true same (Or.inr (Or.inl isRefused))⟩
  · rw [told_anywhere sole isRefused carries uncut (idle e) fuel 0,
      told_anywhere sole' isRefused carries uncut (idle e') fuel' 0, or_iff_right isRefused]
    rcases serve 0 o c ⟨cmd, key.bytes :: args⟩ with _ | ⟨raise | reply, t⟩
    · exact ⟨rfl, iff_of_true rfl (Or.inr nofun)⟩
    · refine ⟨rfl, ?_⟩
      simp only [told, Option.map_some, Option.some.injEq, Prod.mk.injEq, and_true]
      by_cases here : e = o
      · by_cases there : e' = o
        · simp only [here, there, if_true, true_or]
        · simp [here, there, heard_passedBack_error, heard_eq_none_iff]
      · by_cases there : e' = o
        · simp [here, there, heard_passedBack_error, eq_comm (a := none), heard_eq_none_iff]
        · simp only [here, there, if_false, true_or]
    · refine ⟨rfl, iff_of_true ?_ (Or.inr nofun)⟩
      simp only [told, Option.map_some, passedBack, ite_self]
/-- `SET a b` at the node that owns nothing and at the one that owns all. -/
theorem told_alike_set :
    (told (serve 1 false pairOfNodes ⟨.set, [lit "a", lit "b"]⟩)).map Prod.snd =
        (told (serve 1 true pairOfNodes ⟨.set, [lit "a", lit "b"]⟩)).map Prod.snd ∧
      (told (serve 1 false pairOfNodes ⟨.set, [lit "a", lit "b"]⟩) =
          told (serve 1 true pairOfNodes ⟨.set, [lit "a", lit "b"]⟩) ↔
        (false = true ↔ true = true) ∨ refused ⟨.set, [lit "a", lit "b"]⟩ ∨
          ∀ raise t, serve 0 true pairOfNodes ⟨.set, [lit "a", lit "b"]⟩ = some (.error raise, t) →
            raise = .noReply) := by
  have owns : pairOfNodes.Owns keyA true := by
    have slot : keyA.slot ∈ allSlots := keyToSlot_mem_allSlots keyA.keyToSlot_eq
    exact slot
  have alone : ∀ i, pairOfNodes.Owns keyA i → i = true := by
    intro i owns
    cases i with
    | true => rfl
    | false => cases owns
  have carries : Cmd.set.Carries [lit "b"] := ⟨by simp [Quotable, lit], by decide⟩
  have known : true ∈ [false, true] := by decide
  have sole : ∀ e, pairOfNodes.SoleOwner e true keyA := fun e => ⟨known, owns, alone⟩
  refine told_alike (sole false) (sole true) carries ?_ (fun _ _ deletes => by cases deletes) 0 0
  intro reply t ran
  have proper : (pairOfNodes.node true).Proper := Node.proper_empty _ 0
  have home : (pairOfNodes.node true).shard.includes keyA.cstr.toR = .ok true :=
    (includes_asked pairOfNodes keyA true).trans (congrArg Except.ok (decide_eq_true owns))
  obtain ⟨a, effect, _⟩ := proper.effect_of_run home ran
  cases effect
  decide

end Cluster

end XFireDB
