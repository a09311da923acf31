import XFireDB.RubyClient

/-!
# Round trips of the Ruby client

`get`, `list_ref` and `map_ref` return what `set`, `list_push` and `map_add` have written
exactly where the query text and the reply line carry the data.
-/

namespace XFireDB

open Lib Node Command
open Client (RubyData RubyResult statusNull statusSuccess process processDefault withoutMinus)

namespace RubyClient

namespace Pair

/-! ## The read -/

theorem mem_of_mem_withoutMinus (line : RStr) : ∀ b ∈ withoutMinus line, b ∈ line := by
  unfold withoutMinus
  split
  · exact fun b member => List.mem_cons_of_mem 45 member
  · exact fun b member => member

/-- A string that the client reads stands in the line. -/
theorem str_of_process {line d : RStr} (read : (process line).data = .str d) :
    ∀ b ∈ d, b ∈ line := by
  unfold process at read
  split at read
  · cases read
    exact fun b member => List.mem_cons_of_mem 43 member
  · split at read
    · cases read
    · split at read
      · cases read
      · cases read
        exact fun b member => member
  · cases read
  · unfold processDefault at read
    dsimp only at read
    split at read
    · cases read
      exact mem_of_mem_withoutMinus line
    · split at read
      · cases read
      · cases read
        exact mem_of_mem_withoutMinus line

/-- No string that a query yields has a line end in it. -/
theorem results_lined {cluster : ClusterCommand} {num : Nat} {c t : Connection}
    {rs : List RubyResult} (lined : c.Lined) (ran : results cluster num c = some (rs, t)) :
    ∀ r ∈ rs, ∀ d, r.data = .str d → 10 ∉ d := by
  induction num generalizing c rs with
  | zero =>
      cases ran
      exact fun r member => absurd member List.not_mem_nil
  | succ num ih =>
      rw [results] at ran
      split at ran
      · cases ran
      · rename_i data c' got
        obtain ⟨noFeed, lined'⟩ := Session.Lined.await lined got
        obtain ⟨⟨later, t'⟩, found, same⟩ := Option.map_eq_some_iff.mp ran
        cases same
        refine List.forall_mem_cons.mpr ⟨?_, ih lined' found⟩
        intro d read feed
        exact noFeed (str_of_process read 10 feed)

theorem query_lined {cluster : ClusterCommand} {c t : Connection} {q : RStr} {rs : List RubyResult}
    (lined : c.Lined) (queried : query cluster c q = some (rs, t)) :
    ∀ r ∈ rs, ∀ d, r.data = .str d → 10 ∉ d := by
  unfold query at queried
  split at queried
  · cases queried
  · rename_i reply c' got
    have sent : (c.puts q).Lined := lined
    exact results_lined (Session.Lined.await sent got).2 queried

/-- Nothing comes back from a closed session. -/
theorem query_closed {cluster : ClusterCommand} {c : Connection} (waits : c.replies = [])
    (closed : c.closed = true) (q : RStr) : query cluster c q = none := by
  have waits' : (c.puts q).replies = [] := waits
  rw [query, Connection.gets, Session.await_closed waits' closed]

theorem str_of_kept {r : RubyResult} {d : RStr} (same : kept r = .str d) : r.data = .str d := by
  unfold kept at same
  split at same
  · exact same
  · cases same

theorem str_of_get {rs : List RubyResult} {d : RStr}
    (same : rs.foldl (fun str r => if r.null then str else r.data) RubyData.nil = .str d) :
    ∃ r ∈ rs, r.data = .str d := by
  induction rs using List.reverseRecOn with
  | nil => cases same
  | append_singleton rs r ih =>
      rw [List.foldl_append, List.foldl_cons, List.foldl_nil] at same
      split at same
      · obtain ⟨r', member, read⟩ := ih same
        exact ⟨r', List.mem_append_left _ member, read⟩
      · exact ⟨r, List.mem_append_right _ List.mem_cons_self, same⟩

theorem str_of_mapRef {args : List RStr} {results : List (RubyResult × Nat)}
    {hkey : Option RStr} {d : RStr}
    (same : results.foldl (fun map result =>
      Function.update map args[result.2]? (some (kept result.1)))
      (fun _ => none) hkey = some (.str d)) :
    ∃ result ∈ results, kept result.1 = .str d := by
  induction results using List.reverseRecOn with
  | nil => cases same
  | append_singleton results result ih =>
      rw [List.foldl_append, List.foldl_cons, List.foldl_nil, Function.update_apply] at same
      split at same
      · exact ⟨result, List.mem_append_right _ List.mem_cons_self, Option.some.inj same⟩
      · obtain ⟨result', member, read⟩ := ih same
        exact ⟨result', List.mem_append_left _ member, read⟩

/-- Data that is read is the string of a result. -/
theorem Reads.result {p : Pair} {cluster : ClusterCommand} {c : Connection} {key data : RStr}
    (reads : p.Reads cluster c key data) :
    ∃ q rs t, query cluster c q = some (rs, t) ∧ ∃ r ∈ rs, r.data = .str data := by
  cases p with
  | setGet =>
      obtain ⟨t, got⟩ := reads
      obtain ⟨⟨rs, t'⟩, queried, same⟩ := Option.map_eq_some_iff.mp got
      exact ⟨_, rs, t', queried, str_of_get (congrArg Prod.fst same)⟩
  | pushRef =>
      obtain ⟨k, _, t, got⟩ := reads
      obtain ⟨⟨rs, t'⟩, queried, same⟩ := Option.map_eq_some_iff.mp got
      have only : rs.map kept = [.str data] := congrArg Prod.fst same
      obtain ⟨r, member, read⟩ :=
        List.mem_map.mp (only ▸ List.mem_singleton_self (RubyData.str data))
      exact ⟨_, rs, t', queried, r, member, str_of_kept read⟩
  | mapAddRef hkey =>
      obtain ⟨map, t, got, found⟩ := reads
      obtain ⟨⟨rs, t'⟩, queried, same⟩ := Option.map_eq_some_iff.mp got
      have built := congrArg Prod.fst same
      dsimp only at built
      rw [← built] at found
      obtain ⟨⟨r, i⟩, member, read⟩ := str_of_mapRef found
      exact ⟨_, rs, t', queried, r, (List.mem_zipIdx' member).2 ▸ List.getElem_mem _,
        str_of_kept read⟩

/-! ## What a read returns -/

section Asks

variable (cluster : ClusterCommand) {t : Connection} {name : RStr} {ws : List RStr} {cmd : Cmd}
  (idle : t.Idle) (plain : PlainWord name) (unspaced : ∀ w ∈ ws, Unspaced w)
  (named : Cmd.ofName (upcase name) = some cmd)

include idle plain unspaced named

theorem asks_ok {reply : Reply} {v : RStr} {n : Node} (one : reply.strings = [v])
    (ran : (cmd.start false (ws.flatMap tokens)).run Node.call t.node = some (.ok reply, n)) :
    ∃ t', query cluster t (name ++ 32 :: join (lit " ") ws) =
        some ([process (wireLine v)], t') := by
  obtain ⟨t', queried, _⟩ :=
    query_ok idle (blank_mem_words plain unspaced) (parse_words plain unspaced) named one ran
  exact ⟨t', queried⟩

theorem asks_error {e : Raise} {n : Node} (replied : e ≠ .noReply)
    (ran : (cmd.start false (ws.flatMap tokens)).run Node.call t.node = some (.error e, n)) :
    ∃ t', query cluster t (name ++ 32 :: join (lit " ") ws) =
        some ([process (wireLine e.rescued)], t') := by
  exact query_error idle (blank_mem_words plain unspaced)
    (parse_words plain unspaced) named replied ran

/-- A read on a key of the node. -/
theorem asks_effect (proper : t.node.Proper)
    (alone : ∀ k : CStr, t.node.shard.includes k.toR = .ok true)
    {k : CStr} {args : List RStr} (spelled : ws.flatMap tokens = k.toR :: args)
    (shown : k.toR ∉ hiddenKeys) {reply : Reply} {v : RStr} {a : After} (one : reply.strings = [v])
    (effect : cmd.effect collides (t.node.content k) args = some (.ok reply, a)) :
    ∃ t', query cluster t (name ++ 32 :: join (lit " ") ws) =
        some ([process (wireLine v)], t') := by
  obtain ⟨n, ran, _⟩ := proper.run_of_effect (alone k) effect
  rw [← start_of_shown shown, ← spelled] at ran
  exact asks_ok cluster idle plain unspaced named one ran

theorem asks_raise (proper : t.node.Proper)
    (alone : ∀ k : CStr, t.node.shard.includes k.toR = .ok true)
    {k : CStr} {args : List RStr} (spelled : ws.flatMap tokens = k.toR :: args)
    (shown : k.toR ∉ hiddenKeys) {e : Raise} (replied : e ≠ .noReply) {a : After}
    (effect : cmd.effect collides (t.node.content k) args = some (.error e, a)) :
    ∃ t', query cluster t (name ++ 32 :: join (lit " ") ws) =
        some ([process (wireLine e.rescued)], t') := by
  obtain ⟨n, ran, _⟩ := proper.run_of_effect (alone k) effect
  rw [← start_of_shown shown, ← spelled] at ran
  exact asks_error cluster idle plain unspaced named replied ran

end Asks

theorem kept_plus (x : RStr) : kept (process (43 :: x)) = .str x :=
  if_pos (Client.success_processed (.str x))

theorem null_plus (x : RStr) : (process (43 :: x)).null = false := by
  simp [process, RubyResult.null, statusSuccess, statusNull]

theorem kept_failure {line : RStr} (failure : Failure line) : kept (process line) = .nil := by
  rw [kept, failure]
  rfl

section Reads

variable {cluster : ClusterCommand} {t t' : Connection} {key hkey data : RStr} {r : RubyResult}

theorem reads_setGet {x : RStr}
    (queried : query cluster t (lit "GET" ++ 32 :: join (lit " ") [key]) =
      some ([process (43 :: x)], t')) :
    setGet.Reads cluster t key data ↔ x = data := by
  rw [join_singleton] at queried
  have got : get cluster t key = some (.str x, t') := by
    rw [get, show lit "GET " ++ key = lit "GET" ++ 32 :: key from rfl, queried, Option.map_some,
      List.foldl_cons, List.foldl_nil, null_plus, if_neg Bool.false_ne_true]
    rfl
  rw [Reads, got]
  simp

theorem reads_pushRef {k : CStr} (spelled : k.toR = strip key)
    (queried : query cluster t (lit "LREF" ++ 32 :: join (lit " ")
      [key, natToS ((Value.listed (t.node.view k)).length - 1)]) = some ([r], t')) :
    pushRef.Reads cluster t key data ↔ kept r = .str data := by
  rw [join_cons, join_singleton] at queried
  have got : listRef cluster t key (natToS ((Value.listed (t.node.view k)).length - 1)) =
      some ([kept r], t') := by
    have spaced : ∀ idx, lit "LREF " ++ key ++ lit " " ++ idx = lit "LREF" ++
      32 :: (key ++ 32 :: idx) := by
      intro idx
      simp [lit]
    rw [listRef, spaced, queried]
    rfl
  rw [Reads]
  constructor
  · intro reads
    obtain ⟨k', spelled', t'', same⟩ := reads
    obtain rfl := CStr.toR_injective (spelled'.trans spelled.symm)
    rw [got] at same
    simpa using congrArg Prod.fst (Option.some.inj same)
  · intro same
    exact ⟨k, spelled, t', by rw [got, same]⟩

theorem mRef_text (key hkey : RStr) : lit "MREF " ++ key ++ lit " " ++ join (lit " ") [hkey] =
    lit "MREF" ++ 32 :: join (lit " ") [key, hkey] := by
  rw [join_singleton, join_cons, join_singleton]
  simp [lit]

theorem reads_mapAddRef
    (queried : query cluster t (lit "MREF" ++ 32 :: join (lit " ") [key, hkey]) = some ([r], t')) :
    (mapAddRef hkey).Reads cluster t key data ↔ kept r = .str data := by
  have got : mapRef cluster t key [hkey] =
      some (Function.update (fun _ => none) (some hkey) (some (kept r)), t') := by
    rw [mapRef, mRef_text, queried]
    rfl
  rw [Reads, got]
  constructor
  · intro reads
    obtain ⟨map, t'', same, found⟩ := reads
    cases same
    rw [Function.update_self] at found
    exact Option.some.inj found
  · intro same
    exact ⟨_, t', rfl, by rw [Function.update_self, same]⟩

end Reads

theorem natToS_shown (m : Nat) : natToS m ∉ hiddenKeys := by
  intro hidden
  have letter : (120 : UInt8) ∈ natToS m := by
    simp only [hiddenKeys, List.mem_cons, List.not_mem_nil, or_false] at hidden
    rcases hidden with same | same | same
    · rw [same]
      decide
    · rw [same]
      decide
    · rw [same]
      decide
  exact absurd (isDigit_of_mem_natToS letter) (by decide)

/-! ## A read after its write -/

theorem plain_reads : ∀ s ∈ ["GET", "LREF", "MREF"], PlainWord (lit s) := by decide +kernel

theorem ofName_get : Cmd.ofName (upcase (lit "GET")) = some .get := rfl

theorem ofName_lRef : Cmd.ofName (upcase (lit "LREF")) = some .lRef := rfl

theorem ofName_mRef : Cmd.ofName (upcase (lit "MREF")) = some .mRef := rfl

section Acknowledged

variable {cluster : ClusterCommand} {t : Connection} {key data : RStr} {k : CStr} {args : List RStr}
  {v : Option Stored} {a : After}
  (idle : t.Idle) (proper : t.node.Proper)
  (alone : ∀ k : CStr, t.node.shard.includes k.toR = .ok true)
  (shown : k.toR ∉ hiddenKeys) (held : t.node.content k = a.value) (unspaced : Unspaced key)
  (oneLine : 10 ∉ data)

include idle

/-- Without a key GET is told its syntax, which a single token could hold. -/
theorem not_reads_bare (several : (tokenize (quote data)).length ≠ 1) :
    ¬ setGet.Reads cluster t [] data := by
  have told : process (wireLine (lit "-Incorrect syntax: GET <key>")) =
      ⟨.str (lit "Incorrect syntax: GET <key>"), Client.statusMsg⟩ := by decide +kernel
  have shown : (Client.RubyResult.mk
    (.str (lit "Incorrect syntax: GET <key>")) Client.statusMsg).null = false := by
    decide +kernel
  have empty : ∀ w ∈ [([] : RStr)], Unspaced w := by simp [Unspaced]
  have ran : (Cmd.start false .get ([([] : RStr)].flatMap tokens)).run Node.call t.node =
      some (.ok (Command.text "-Incorrect syntax: GET <key>"), t.node) := rfl
  obtain ⟨t', queried⟩ :=
    asks_ok cluster idle (plain_reads "GET" (by simp)) empty ofName_get rfl ran
  rw [told, join_singleton] at queried
  have got : get cluster t [] = some (.str (lit "Incorrect syntax: GET <key>"), t') := by
    rw [get, show lit "GET " ++ [] = lit "GET" ++ 32 :: [] from rfl, queried, Option.map_some,
      List.foldl_cons, List.foldl_nil, shown, if_neg Bool.false_ne_true]
  intro reads
  obtain ⟨t'', same⟩ := reads
  rw [got] at same
  obtain ⟨read, _⟩ := Prod.mk.inj (Option.some.inj same)
  rw [← RubyData.str.inj read] at several
  exact several (by decide +kernel)

/-- Without a key LREF is told its syntax. -/
theorem not_reads_pushRef : ¬ pushRef.Reads cluster t [] data := by
  intro reads
  obtain ⟨k, known, t', got⟩ := reads
  have words : ∀ w ∈ [[], natToS ((Value.listed (t.node.view k)).length - 1)], Unspaced w :=
    List.forall_mem_cons.mpr ⟨by simp [Unspaced], List.forall_mem_singleton.mpr (unspaced_natToS _)⟩
  have asked : [[], natToS ((Value.listed (t.node.view k)).length - 1)].flatMap tokens =
      [natToS ((Value.listed (t.node.view k)).length - 1)] := by
    rw [List.flatMap_cons, List.flatMap_singleton, tokens_natToS]
    rfl
  have ran : (Cmd.start false .lRef
    ([[], natToS ((Value.listed (t.node.view k)).length - 1)].flatMap tokens)).run
      Node.call t.node =
        some (.ok (Command.text "-Syntax error: LREF <key> <idx | range>"), t.node) := by
    rw [asked, start_of_shown (natToS_shown _)]
    rfl
  obtain ⟨t'', queried⟩ :=
    asks_ok cluster idle (plain_reads "LREF" (by simp)) words ofName_lRef rfl ran
  have failing : Failure (wireLine (lit "-Syntax error: LREF <key> <idx | range>")) :=
    failure_of_mem _ (by simp [failures])
  have read : kept (process _) = .str data := (reads_pushRef known queried).mp ⟨k, known, t', got⟩
  rw [kept_failure failing] at read
  cases read

include proper alone shown held unspaced oneLine

theorem setGet_reads_iff (spelled : tokens key ++ tokenize (quote data) = k.toR :: args)
    (effect : KeyEffect.set v args = some (.ok (Command.text "-OK"), a)) :
    setGet.Reads cluster t key data ↔
      key ≠ [] ∧ data.getLast? ≠ some 13 ∧ (tokenize (quote data)).head? = some data := by
  obtain ⟨d, rest, rfl, stored⟩ := KeyEffect.set_ok effect
  rcases eq_or_ne key [] with rfl | nonempty
  · refine iff_of_false (not_reads_bare idle ?_) fun both => both.1 rfl
    intro single
    have lengths := congrArg List.length spelled
    rw [List.length_append, single] at lengths
    simp [tokens] at lengths
  · rw [tokens_of_ne_nil nonempty, List.singleton_append] at spelled
    obtain ⟨sameKey, sameArgs⟩ := List.cons.inj spelled
    have first : (tokenize (quote data)).head? = some d.toR := by rw [sameArgs, List.head?_cons]
    have shows : KeyEffect.get (t.node.content k) =
        KeyEffect.replies (some (.string d)) (.text (lit "+" ++ d.toR)) := by
      rw [held, stored]
      rfl
    have asked : [key].flatMap tokens = k.toR :: [] := by
      rw [List.flatMap_singleton, tokens_of_ne_nil nonempty, sameKey]
    obtain ⟨x, line, same⟩ := plus_iff first oneLine
    obtain ⟨t', queried⟩ := asks_effect cluster idle (plain_reads "GET" (by simp))
      (List.forall_mem_singleton.mpr unspaced) ofName_get proper alone asked shown rfl shows
    rw [line] at queried
    rw [reads_setGet queried, same, and_iff_right nonempty]

theorem pushRef_reads_iff (spelled : tokens key ++ tokenize (quote data) = k.toR :: args)
    (effect : KeyEffect.lPush v args = some (.ok (Command.text "-OK"), a)) :
    pushRef.Reads cluster t key data ↔
      key ≠ [] ∧ data.getLast? ≠ some 13 ∧ (tokenize (quote data)).head? = some data ∧
        ((Stored.asList v).getD []).length < 2 ^ 31 := by
  obtain ⟨d, rest, rfl, stored⟩ := KeyEffect.lPush_ok effect
  have words : ∀ w ∈ [key, natToS ((Value.listed (t.node.view k)).length - 1)], Unspaced w :=
    List.forall_mem_cons.mpr ⟨unspaced, List.forall_mem_singleton.mpr (unspaced_natToS _)⟩
  rcases eq_or_ne key [] with rfl | nonempty
  · exact iff_of_false (not_reads_pushRef idle) fun both => both.1 rfl
  · rw [tokens_of_ne_nil nonempty, List.singleton_append] at spelled
    obtain ⟨sameKey, sameArgs⟩ := List.cons.inj spelled
    have first : (tokenize (quote data)).head? = some d.toR := by rw [sameArgs, List.head?_cons]
    have last : (Value.listed (t.node.view k)).length - 1 = ((Stored.asList v).getD []).length := by
      rw [listed_view, held, stored]
      simp [Stored.asList]
    have asked : [key, natToS ((Value.listed (t.node.view k)).length - 1)].flatMap tokens =
        k.toR :: [natToS ((Stored.asList v).getD []).length] := by
      rw [last, List.flatMap_cons, List.flatMap_singleton, tokens_of_ne_nil nonempty,
        tokens_natToS, sameKey]
      rfl
    rcases Nat.lt_or_ge ((Stored.asList v).getD []).length (2 ^ 31) with short | far
    · have shows := lRef_last short d
      rw [← stored, ← held] at shows
      obtain ⟨x, line, same⟩ := plus_iff first oneLine
      obtain ⟨t', queried⟩ :=
        asks_effect cluster idle (plain_reads "LREF" (by simp)) words ofName_lRef
        proper alone asked shown rfl shows
      rw [line] at queried
      rw [reads_pushRef sameKey.symm queried, kept_plus, RubyData.str.injEq, same,
        and_iff_right nonempty]
      exact and_congr_right fun _ => (and_iff_left short).symm
    · have raises := lRef_far far ((Stored.asList v).getD [] ++ [d])
      rw [← stored, ← held] at raises
      obtain ⟨t', queried⟩ :=
        asks_raise cluster idle (plain_reads "LREF" (by simp)) words ofName_lRef
        proper alone asked shown (by decide) raises
      have failing : Failure (wireLine Raise.rangeError.rescued) :=
        failure_of_mem "Query failed" (by simp [failures])
      rw [reads_pushRef sameKey.symm queried, kept_failure failing]
      exact iff_of_false RubyData.noConfusion fun all => absurd all.2.2.2 (Nat.not_lt_of_le far)

theorem mapAddRef_reads_iff {hkey : RStr} (unspaced' : Unspaced hkey)
    (spelled : tokens key ++ (tokens hkey ++ tokenize (quote data)) = k.toR :: args)
    (effect : KeyEffect.mAdd collides v args = some (.ok (Command.text "-OK"), a)) :
    (mapAddRef hkey).Reads cluster t key data ↔
      (key ≠ [] ∧ hkey ≠ []) ∧ data.getLast? ≠ some 13 ∧
      (tokenize (quote data)).head? = some data := by
  obtain ⟨h, d, rest, rfl, clear, stored⟩ := KeyEffect.mAdd_ok effect
  have words : ∀ w ∈ [key, hkey], Unspaced w :=
    List.forall_mem_cons.mpr ⟨unspaced, List.forall_mem_singleton.mpr unspaced'⟩
  have both : [key, hkey].flatMap tokens = tokens key ++ tokens hkey := by
    rw [List.flatMap_cons, List.flatMap_singleton]
  by_cases some_ : key ≠ [] ∧ hkey ≠ []
  · obtain ⟨nonempty, nonempty'⟩ := some_
    rw [tokens_of_ne_nil nonempty, tokens_of_ne_nil nonempty', List.singleton_append,
      List.singleton_append] at spelled
    obtain ⟨sameKey, later⟩ := List.cons.inj spelled
    obtain ⟨sameHkey, sameArgs⟩ := List.cons.inj later
    have first : (tokenize (quote data)).head? = some d.toR := by rw [sameArgs, List.head?_cons]
    have asked : [key, hkey].flatMap tokens = k.toR :: [h.toR] := by
      rw [both, tokens_of_ne_nil nonempty, tokens_of_ne_nil nonempty', sameKey, sameHkey]
      rfl
    have shows := mRef_putMap ((Stored.asMap v).getD []) clear d
    rw [← stored, ← held] at shows
    obtain ⟨x, line, same⟩ := plus_iff first oneLine
    obtain ⟨t', queried⟩ :=
      asks_effect cluster idle (plain_reads "MREF" (by simp)) words ofName_mRef
      proper alone asked shown rfl shows
    rw [line] at queried
    rw [reads_mapAddRef queried, kept_plus, RubyData.str.injEq, same]
    exact (and_iff_right ⟨nonempty, nonempty'⟩).symm
  · refine iff_of_false ?_ fun all => some_ all.1
    have few : tokens key ++ tokens hkey = [] ∨ tokens key ++ tokens hkey = [k.toR] := by
      rcases eq_or_ne key [] with rfl | nonempty
      · rcases eq_or_ne hkey [] with rfl | nonempty'
        · exact Or.inl rfl
        · rw [tokens_of_ne_nil nonempty'] at spelled ⊢
          exact Or.inr (congrArg (fun w => [w]) (List.cons.inj spelled).1)
      · obtain rfl : hkey = [] := by
          by_contra nonempty'
          exact some_ ⟨nonempty, nonempty'⟩
        rw [tokens_of_ne_nil nonempty] at spelled ⊢
        exact Or.inr (congrArg (fun w => [w]) (List.cons.inj spelled).1)
    rcases few with bare | one
    · have ran : (Cmd.start false .mRef ([key, hkey].flatMap tokens)).run Node.call t.node =
          some (.ok (Command.text "-Syntax error: MREF <key> <hkey1> <hkey2> ..."), t.node) := by
        rw [both, bare]
        rfl
      obtain ⟨t', queried⟩ :=
        asks_ok cluster idle (plain_reads "MREF" (by simp)) words ofName_mRef rfl ran
      have failing : Failure (wireLine (lit "-Syntax error: MREF <key> <hkey1> <hkey2> ...")) :=
        failure_of_mem _ (by simp [failures])
      rw [reads_mapAddRef queried, kept_failure failing]
      exact RubyData.noConfusion
    · have shows : Cmd.effect collides (t.node.content k) [] .mRef =
          KeyEffect.replies (t.node.content k) (.lines []) := by
        rw [held, stored]
        rfl
      have plain := plain_reads "MREF" (by simp)
      obtain ⟨n, ran, _⟩ := proper.run_of_effect (alone k) shows
      rw [← start_of_shown shown, ← one, ← both] at ran
      have nothing : query cluster t (lit "MREF" ++ 32 :: join (lit " ") [key, hkey]) = none :=
        query_empty idle (blank_mem_words plain words) (parse_words plain words) ofName_mRef
          (not_mem_words plain words (by decide) (by decide)) ran
      intro reads
      obtain ⟨map, t', got, _⟩ := reads
      rw [mapRef, mRef_text, nothing] at got
      cases got

end Acknowledged

theorem carries_iff (p : Pair) {c : Connection} {key data : RStr} (keep : c.keep = true)
    (oneLine : 10 ∉ data) :
    p.Carries c key data ↔
      [] ∉ p.words key ∧ data.getLast? ≠ some 13 ∧ (tokenize (quote data)).head? = some data ∧
        (p.cmd = .lPush → ∀ k : CStr, k.toR = strip key →
          (Value.listed (c.node.view k)).length < 2 ^ 31) := by
  constructor
  · intro carries
    exact ⟨carries.words, carries.last, carries.token, carries.index⟩
  · intro all
    obtain ⟨words, last, token, index⟩ := all
    exact ⟨Or.inl keep, words, oneLine, last, token, index⟩

/-- The read after a write of one line that was taken, on a session that goes on. -/
theorem reads_iff (p : Pair) (cluster : ClusterCommand) {c t : Connection}
    {key data : RStr} {n : Node} {argv : List RStr} (proper : c.node.Proper)
    (alone : ∀ k : CStr, c.node.shard.includes k.toR = .ok true)
    (unspaced : ∀ w ∈ p.words key, Unspaced w) (keep : c.keep = true) (oneLine : 10 ∉ data)
    (parsed : parseXql (wireLine (p.text key data)) = some ⟨p.name, argv⟩)
    (takes : p.Takes c.node argv)
    (ran : (p.cmd.start false argv).run Node.call c.node = some (.ok (Command.text "-OK"), n))
    (leaves : Leaves c (p.text key data) n t) :
    p.Reads cluster t key data ↔ p.Carries c key data := by
  have sameArgs : (p.words key).flatMap tokens ++ tokenize (quote data) = argv := by
    rw [p.parse_text_line unspaced oneLine] at parsed
    exact congrArg Xql.args (Option.some.inj parsed)
  obtain ⟨k, args, rfl, shown, _, _⟩ := takes
  rw [start_of_shown shown] at ran
  obtain ⟨a, effect, changed, proper'⟩ := proper.effect_of_run (alone k) ran
  have idle : t.Idle :=
    ⟨leaves.requests (p.not_mem_text unspaced oneLine), leaves.replies,
      by rw [leaves.closed, keep, Bool.not_true]⟩
  obtain ⟨rfl, _⟩ := leaves
  have alone' : ∀ k : CStr, t.node.shard.includes k.toR = .ok true := by
    intro k'
    rw [changed.includes, alone k']
  have held := changed.here
  rw [p.carries_iff keep oneLine]
  cases p with
  | setGet =>
      have here : Unspaced key := unspaced key List.mem_cons_self
      simp only [words, List.flatMap_singleton] at sameArgs
      rw [setGet_reads_iff idle proper' alone' shown held here oneLine sameArgs effect]
      simp [words, cmd, eq_comm]
  | pushRef =>
      have here : Unspaced key := unspaced key List.mem_cons_self
      simp only [words, List.flatMap_singleton] at sameArgs
      rw [pushRef_reads_iff idle proper' alone' shown held here oneLine sameArgs effect]
      have words_ne : [] ∉ words key pushRef ↔ key ≠ [] := by simp [words, eq_comm]
      rw [words_ne]
      refine and_congr_right fun nonempty => and_congr_right fun _ => and_congr_right fun _ => ?_
      rw [tokens_of_ne_nil nonempty, List.singleton_append] at sameArgs
      obtain ⟨sameKey, _⟩ := List.cons.inj sameArgs
      rw [← listed_view, sameKey]
      constructor
      · intro short _ k' same
        rwa [CStr.toR_injective same]
      · intro all
        exact all rfl k rfl
  | mapAddRef hkey =>
      have here : Unspaced key := unspaced key List.mem_cons_self
      have there : Unspaced hkey := unspaced hkey (List.mem_cons_of_mem key List.mem_cons_self)
      simp only [words, List.flatMap_cons, List.flatMap_nil, List.append_nil,
        List.append_assoc] at sameArgs
      rw [mapAddRef_reads_iff idle proper' alone' shown held here oneLine there sameArgs effect]
      simp [words, cmd, eq_comm]

/-- What an idle client writes it reads again exactly where the node refuses the write or
the texts carry the data. -/
theorem roundTrips_idle (p : Pair) (cluster : ClusterCommand) {c : Connection} (idle : c.Idle)
    (proper : c.node.Proper) (alone : ∀ k : CStr, c.node.shard.includes k.toR = .ok true)
    {key : RStr} (unspaced : ∀ w ∈ p.words key, Unspaced w) (data : RStr) :
    p.RoundTrips cluster c key data ↔ (p.Accepted c.node key data → p.Carries c key data) := by
  rcases p.write_cases cluster idle proper alone key data with
    ⟨argv, n, t, parsed, takes, ran, wrote, leaves⟩ | ⟨refused, unwritten⟩
  · have accepted : p.Accepted c.node key data := by
      intro x parsed'
      obtain rfl := Option.some.inj (parsed.symm.trans parsed')
      exact takes
    have next : p.RoundTrips cluster c key data ↔ p.Reads cluster t key data := by
      constructor
      · intro all
        exact all t wrote
      · intro reads t' wrote'
        rw [wrote] at wrote'
        cases wrote'
        exact reads
    rw [next, imp_iff_right accepted]
    by_cases keep : c.keep = true
    · by_cases feed : 10 ∈ data
      · refine iff_of_false ?_ fun carries => carries.line feed
        intro reads
        obtain ⟨q, rs, t', queried, r, member, read⟩ := reads.result
        have lined : t.Lined := by
          intro line waiting
          rw [leaves.replies] at waiting
          cases waiting
        exact query_lined lined queried r member data read feed
      · exact p.reads_iff cluster proper alone unspaced keep feed parsed takes ran leaves
    · have ended : ¬ c.Streams := by
        rw [Connection.Streams, idle.requests]
        simpa [lit] using keep
      refine iff_of_false ?_ fun carries => ended carries.stream
      intro reads
      obtain ⟨q, rs, t', queried, _⟩ := reads.result
      have closed : t.closed = true := by
        rw [leaves.closed, Bool.eq_false_of_not_eq_true keep, Bool.not_false]
      rw [query_closed leaves.replies closed] at queried
      cases queried
  · exact iff_of_true (fun t wrote => absurd wrote (unwritten t)) fun accepted =>
      absurd accepted refused

theorem write_settled (p : Pair) (cluster : ClusterCommand) {c : Connection}
    (connected : c.Connected)
    (key data : RStr) : p.write cluster c key data = p.write cluster c.settled key data := by
  rw [p.write_eq, p.write_eq, succeeds, succeeds, query, query, connected.gets_puts]

theorem carries_settled (p : Pair) {c : Connection} (connected : c.Connected) (key data : RStr) :
    p.Carries c.settled key data ↔ p.Carries c key data := by
  have streams : c.settled.Streams ↔ c.Streams := by
    rw [connected.streams_iff, Connection.Streams, connected.idle.requests]
    simp [lit]
  have node := c.settled_node
  constructor
  · intro carries
    obtain ⟨stream, words, line, last, token, index⟩ := carries
    rw [node] at index
    exact ⟨streams.mp stream, words, line, last, token, index⟩
  · intro carries
    obtain ⟨stream, words, line, last, token, index⟩ := carries
    rw [← node] at index
    exact ⟨streams.mpr stream, words, line, last, token, index⟩

/-! ## A node on its own -/

/-- A node that has every slot. -/
def rootNode : Node := Node.empty ⟨allSlots, [], nodup_allSlots, List.nodup_nil⟩ 0 true

theorem includes_rootNode (k : CStr) : rootNode.shard.includes k.toR = .ok true := by
  have known : keyToSlot k.toR = .ok (slotOf k) := keyToSlot_toR k
  rw [KeyShard.includes, known]
  exact congrArg Except.ok (decide_eq_true (keyToSlot_mem_allSlots known))

/-- CLUSTER on a server that is no part of a cluster. -/
def noCluster : ClusterCommand := fun argv n =>
  if ∃ key ∈ hiddenKeys, argv.head? = some key then
    some (.error (.illegalKey (lit "Key: " ++ argv.headD [] ++ lit " is illegal")), n)
  else some (.error (.illegalCommand (lit "Cluster commands not allowed in non-cluster mode")), n)

theorem connected_connect (n : Node) (stream : Bool) : (connect n stream).Connected := by
  cases stream with
  | false => exact ⟨Or.inl rfl, rfl, rfl⟩
  | true => exact ⟨Or.inr ⟨rfl, rfl⟩, rfl, rfl⟩

theorem unspaced_k : ∀ w ∈ setGet.words (lit "k"), Unspaced w :=
  List.forall_mem_singleton.mpr (by decide +kernel)

/-- What the Ruby client writes it reads again exactly where the node refuses the write or
the texts carry the data. -/
theorem roundTrips_iff (p : Pair) (cluster : ClusterCommand) {c : Connection}
    (connected : c.Connected)
    (proper : c.node.Proper) (alone : ∀ k : CStr, c.node.shard.includes k.toR = .ok true)
    {key : RStr} (unspaced : ∀ w ∈ p.words key, Unspaced w) (data : RStr) :
    p.RoundTrips cluster c key data ↔ (p.Accepted c.node key data → p.Carries c key data) := by
  have node := c.settled_node
  rw [← node] at proper alone
  have settled := p.roundTrips_idle cluster connected.idle proper alone unspaced data
  rw [RoundTrips, p.write_settled cluster connected, ← p.carries_settled connected, ← node]
  exact settled

/-- `set("k", "a")` and `get("k")` on a stream. -/
theorem roundTrips_iff_get :
    setGet.RoundTrips noCluster (connect rootNode true) (lit "k") (lit "a") := by
  refine (roundTrips_iff setGet noCluster (connected_connect rootNode true)
    (Node.proper_empty _ 0) includes_rootNode unspaced_k _).mpr ?_
  intro _
  refine ⟨Or.inr rfl, by decide, by decide, by decide, by decide +kernel, ?_⟩
  intro isPush
  cases isPush

/-- The text `SET k "a" b"` sets the key to `a`, and the reply is `-OK`. -/
theorem setGet_cuts :
    (connect rootNode true).settled.Connected ∧ rootNode.Proper ∧
      (∀ k : CStr, rootNode.shard.includes k.toR = .ok true) ∧
      (∀ w ∈ setGet.words (lit "k"), Unspaced w) ∧
        ¬ setGet.RoundTrips noCluster (connect rootNode true).settled (lit "k") (lit "a\" b") := by
  have idle := (connected_connect rootNode true).idle
  refine ⟨⟨Or.inl idle.requests, idle.replies, idle.opened⟩, Node.proper_empty _ 0,
    includes_rootNode, unspaced_k, ?_⟩
  rw [roundTrips_idle setGet noCluster idle (Node.proper_empty _ 0) includes_rootNode unspaced_k]
  intro all
  have parsed : parseXql (wireLine (setGet.text (lit "k") (lit "a\" b"))) =
      some ⟨lit "SET", [lit "k", lit "a", lit "b"]⟩ := by decide +kernel
  have token := (all ?_).token
  · exact absurd token (by decide +kernel)
  · intro x parsed'
    obtain rfl := Option.some.inj (parsed.symm.trans parsed')
    refine ⟨keyK, [lit "a", lit "b"], rfl, by decide +kernel, by decide, ?_⟩
    intro data first
    cases first
    decide

end Pair

end RubyClient

end XFireDB
