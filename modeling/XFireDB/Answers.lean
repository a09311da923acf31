import XFireDB.Acknowledged
import XFireDB.RangePop

/-!
# Commands that answer

A storage command on a key of its node should reply, with `+`, `-`, `%` or `&` in front.
It does exactly where `Cmd.Answerable` says so; elsewhere it raises, or the search of a
skiplist runs into the header.
-/

namespace XFireDB

open Lib Node Command

/-! ## Replies -/

/-- The first byte of a reply line. -/
def Marked (line : RStr) : Prop := line.head? ∈ [some 43, some 45, some 37, some 38]

instance (line : RStr) : Decidable (Marked line) := inferInstanceAs (Decidable (_ ∈ _))

theorem Marked.append {line : RStr} (marked : Marked line) (rest : RStr) :
    Marked (line ++ rest) := by
  cases line with
  | nil => exact absurd marked (by decide)
  | cons b line => exact marked

/-- Every line of the reply starts with `+`, `-`, `%` or `&`. -/
def Reply.Marked : Reply → Prop
  | .text s => XFireDB.Marked s
  | .lines l => ∀ s ∈ l, XFireDB.Marked s

instance : (r : Reply) → Decidable r.Marked
  | .text s => inferInstanceAs (Decidable (XFireDB.Marked s))
  | .lines l => inferInstanceAs (Decidable (∀ s ∈ l, XFireDB.Marked s))

/-- The command returns a reply. -/
def Node.Answers (n : Node) (cmd : Cmd) (argv : List RStr) : Prop :=
  ∃ reply n', (cmd.exec argv).run Node.call n = some (.ok reply, n') ∧ reply.Marked

/-! ## Where commands answer -/

/-- The sub-key is a C string with a hash below the header's, which no other key of the
container has. -/
def ClearAt (there : CStr → Prop) (h : RStr) : Prop :=
  ∃ k : CStr, h = k.toR ∧ skiplistHash k < skiplistMaxSize ∧
    ∀ key, there key → skiplistHash key = skiplistHash k → key = k

/-- Sub-keys one after another; `there before` are the keys in the container after the
sub-keys `before`. -/
def ClearRun (there : List RStr → CStr → Prop) (args : List RStr) : Prop :=
  ∀ before h after, args = before ++ h :: after → ClearAt (there before) h

/-- A range that is a number and nothing behind it, as `5..`, or nothing at all, as `..`. -/
def HalfOpen (idx : RStr) : Prop :=
  splitDots idx = [] ∨ ∃ first, splitDots idx = [first] ∧ isI first

/-- The range makes sense: it is not half open, and a list under the key is asked for
positions that are `int`s. -/
def RangeAnswers (v : Option Stored) (idx : RStr) (reached : Int → Int → Prop) : Prop :=
  ¬ HalfOpen idx ∧ ∀ low high rest elems, splitDots idx = low :: high :: rest →
    isI low → isI high → Stored.asList v = some elems →
    KeyEffect.counted elems (toI low) ≤ KeyEffect.counted elems (toI high) →
    reached (KeyEffect.counted elems (toI low)) (KeyEffect.counted elems (toI high))

/-- An index that is an `int` and in the list, if there is one. -/
def IndexAnswers (v : Option Stored) (i : Int) : Prop :=
  ∀ elems, Stored.asList v = some elems → 0 ≤ i ∧ i < elems.length ∧ i < 2 ^ 31

/-- Where a command on a key that holds `v` answers, by the arguments after the key. -/
def Cmd.Answerable (v : Option Stored) (args : List RStr) : Cmd → Prop
  | .get => ∀ c, v ≠ some (.container c)
  | .set => ∀ data ∈ args.head?, 0 ∉ data
  | .lPush => ∀ data ∈ args.head?, 0 ∉ data
  | .mAdd => ∀ hkey data rest, args = hkey :: data :: rest → 0 ∉ data ∧
      ClearAt (fun key => key ∈ ((Stored.asMap v).getD []).map SkiplistNode.key) hkey
  | .mRef => ∀ nodes, Stored.asMap v = some nodes →
      ClearRun (fun _ key => key ∈ nodes.map SkiplistNode.key) args
  | .sInclude => ∀ nodes, Stored.asSet v = some nodes →
      ClearRun (fun _ key => key ∈ nodes.map SkiplistNode.key) args
  | .mDel => ∀ nodes, Stored.asMap v = some nodes →
      ClearRun (fun before key => key ∈ nodes.map SkiplistNode.key ∧ key.toR ∉ before) args
  | .sDel => ∀ nodes, Stored.asSet v = some nodes →
      ClearRun (fun before key => key ∈ nodes.map SkiplistNode.key ∧ key.toR ∉ before) args
  | .sAdd => ClearRun (fun before key =>
      key ∈ ((Stored.asSet v).getD []).map SkiplistNode.key ∨ key.toR ∈ before) args
  | .lPop => ∀ idx ∈ args.head?, if isI idx then IndexAnswers v (toI idx)
      else RangeAnswers v idx fun low _ => -2 ^ 31 ≤ low ∧ low < 2 ^ 31
  | .lRef => ∀ idx ∈ args.head?, if isI idx then IndexAnswers v (toI idx)
      else RangeAnswers v idx fun low high => -2 ^ 31 ≤ low ∧ high < 2 ^ 31
  | .lSet => ∀ idx data rest, args = idx :: data :: rest → isI idx →
      ∀ elems, Stored.asList v = some elems →
      -2 ^ 31 ≤ toI idx ∧ toI idx < 2 ^ 31 ∧ (0 ≤ toI idx ∧ toI idx < elems.length → 0 ∉ data)
  | _ => True

/-! ## Sub-keys -/

theorem clearAt_iff {keys : List CStr} {there : CStr → Prop} (same : ∀ key, there key ↔ key ∈ keys)
    (k : CStr) : ClearAt there k.toR ↔ collides keys k = false := by
  have clear : collides keys k = false ↔ skiplistHash k < skiplistMaxSize ∧
      ∀ key, there key → skiplistHash key = skiplistHash k → key = k := by
    simp [collides, same]
  rw [clear, ClearAt]
  constructor
  · intro found
    obtain ⟨k', text, rest⟩ := found
    obtain rfl := CStr.toR_injective text
    exact rest
  · intro rest
    exact ⟨k, rfl, rest⟩

/-- What a sub-key does to a loop: it raises, it collides, or it is clear. -/
theorem subKey_cases {keys : List CStr} {there : CStr → Prop} (same : ∀ key, there key ↔ key ∈ keys)
    (h : RStr) :
    (∃ e, stringValueCStr h = .error e ∧ ¬ ClearAt there h) ∨
    ∃ k : CStr, h = k.toR ∧ stringValueCStr h = .ok k ∧
      (collides keys k = true ∧ ¬ ClearAt there h ∨ collides keys k = false ∧ ClearAt there h) := by
  cases known : stringValueCStr h with
  | error e =>
      refine Or.inl ⟨e, rfl, ?_⟩
      intro found
      obtain ⟨k, rfl, _⟩ := found
      rw [stringValueCStr_toR] at known
      cases known
  | ok k =>
      obtain rfl := toR_of_stringValueCStr known
      refine Or.inr ⟨k, rfl, rfl, ?_⟩
      rw [clearAt_iff same]
      cases collides keys k with
      | true => exact Or.inl ⟨rfl, Bool.noConfusion⟩
      | false => exact Or.inr ⟨rfl, rfl⟩

theorem mem_toR_cons {k key : CStr} {before : List RStr} :
    key.toR ∈ k.toR :: before ↔ key = k ∨ key.toR ∈ before := by
  rw [List.mem_cons, CStr.toR_injective.eq_iff]

theorem clearRun_nil (there : List RStr → CStr → Prop) : ClearRun there [] := by
  intro before h after same
  exact absurd same.symm (by simp)

theorem clearRun_cons {there : List RStr → CStr → Prop} {h : RStr} {rest : List RStr} :
    ClearRun there (h :: rest) ↔
      ClearAt (there []) h ∧ ClearRun (fun before => there (h :: before)) rest := by
  constructor
  · intro run
    refine ⟨run [] h rest rfl, ?_⟩
    intro before h' after same
    exact run (h :: before) h' after (by rw [same, List.cons_append])
  · intro both before h' after same
    cases before with
    | nil =>
        obtain ⟨rfl, rfl⟩ := List.cons.inj same
        exact both.1
    | cons b before =>
        obtain ⟨rfl, later⟩ := List.cons.inj same
        exact both.2 before h' after later

theorem ClearRun.congr {there there' : List RStr → CStr → Prop}
    (same : ∀ before key, there before key ↔ there' before key) (args : List RStr) :
    ClearRun there args ↔ ClearRun there' args := by
  rw [show there = there' from funext fun before => funext fun key => propext (same before key)]

/-! ## Effects that reply -/

/-- The effect replies. -/
def KeyEffect.Answered (e : KeyEffect) : Prop := ∃ reply a, e = some (.ok reply, a) ∧ reply.Marked

namespace KeyEffect

variable {v : Option Stored} {c : Container}

theorem answered_replies {r : Reply} (marked : r.Marked) (v : Option Stored) :
    Answered (replies v r) :=
  ⟨r, _, rfl, marked⟩

theorem answered_stores {r : Reply} (marked : r.Marked) (c : Container) : Answered (stores c r) :=
  ⟨r, _, rfl, marked⟩

theorem answered_deletes {r : Reply} (marked : r.Marked) : Answered (deletes r) :=
  ⟨r, _, rfl, marked⟩

theorem answered_leaves {r : Reply} (marked : r.Marked) (c : Container) :
    Answered (leaves c r) := by
  unfold leaves
  split
  · exact answered_replies marked _
  · exact answered_deletes marked

theorem not_answered_raises (e : Raise) : ¬ Answered (raises v e) := by
  intro answered
  obtain ⟨reply, a, same, _⟩ := answered
  cases same

theorem not_answered_none : ¬ Answered none := by
  intro answered
  obtain ⟨reply, a, same, _⟩ := answered
  cases same

/-- The texts of the replies, and what stands in front of data. -/
def replyTexts : List String :=
  ["+", "%", "&", "-", "-nil", "-OK",
    "-Syntax error: SINCLUDE <key> <set-key1> <set-key2> ...", "-Syntax error: SCEAR <key>",
    "-Syntax error: SDEL <key> <set-key1> <set-key2> ...",
    "-Syntax error: SADD <key> <set-key1> <set-key2> ...",
    "-Syntax error: MDEL <key> <hkey1> <hkey2> ...",
    "-Syntax error: MREF <key> <hkey1> <hkey2> ...",
    "-Syntax error: MCLEAR <key>", "-Syntax error: MADD <key> <map-key> <data>",
    "-Syntax error: MSIZE <key>", "-Syntax error: LPUSH <key> <data>",
    "-Syntax error: LCLEAR <key>", "-Syntax error: LPOP <key> <idx | range>",
    "-LPOP range invalid: ", "-Syntax error: LREF <key> <idx | range>",
    "-LREF range invalid: ", "-Syntax error: LSIZE <key>",
    "-Syntax error: LSET <key> <idx> <data>", "-Syntax `SET <key> \"<data>\"'",
    "-Incorrect syntax: GET <key>", "-Incorrect syntax: DELETE <key>"]

theorem marked_replyTexts : ∀ s ∈ replyTexts, Marked (lit s) := by decide +kernel

theorem marked_fixed {s : String} (known : s ∈ replyTexts) : (text s).Marked :=
  marked_replyTexts s known

theorem marked_nil : (text "-nil").Marked := marked_fixed (by simp [replyTexts])

theorem marked_ok : (text "-OK").Marked := marked_fixed (by simp [replyTexts])

theorem marked_front {s : String} (known : s ∈ replyTexts) (rest : RStr) :
    Reply.Marked (.text (lit s ++ rest)) :=
  (marked_replyTexts s known).append rest

theorem marked_plus (data : RStr) : Reply.Marked (.text (lit "+" ++ data)) :=
  marked_front (by simp [replyTexts]) data

theorem marked_count (n : Nat) : Reply.Marked (.text (lit "%" ++ natToS n)) :=
  marked_front (by simp [replyTexts]) (natToS n)

theorem marked_size (n : Int) : Reply.Marked (.text (lit "%" ++ intToS n)) :=
  marked_front (by simp [replyTexts]) (intToS n)

theorem marked_lPop (idx : RStr) : Reply.Marked (.text (lit "-LPOP range invalid: " ++ idx)) :=
  marked_front (by simp [replyTexts]) idx

theorem marked_lRef (idx : RStr) : Reply.Marked (.text (lit "-LREF range invalid: " ++ idx)) :=
  marked_front (by simp [replyTexts]) idx

/-! ## Loops over sub-keys -/

section Loops

variable {β : Type} {args : List RStr}

theorem answers_ok_iff (nodes : Skiplist β) (word : Option (SkiplistNode β) → RStr) :
    (∃ rv, answers collides nodes word args = some (.ok rv)) ↔
      ClearRun (fun _ key => key ∈ nodes.map SkiplistNode.key) args := by
  induction args with
  | nil => exact iff_of_true ⟨[], rfl⟩ (clearRun_nil _)
  | cons h rest ih =>
      rw [clearRun_cons, ← ih, answers]
      rcases subKey_cases (fun key => Iff.rfl) h with
        ⟨e, raised, unclear⟩ | ⟨k, _, known, ⟨crashes, unclear⟩ | ⟨passes, clear⟩⟩
      · rw [raised]
        exact iff_of_false (by simp) fun both => unclear both.1
      · rw [known]
        dsimp only
        rw [if_pos crashes]
        exact iff_of_false (by simp) fun both => unclear both.1
      · rw [known, and_iff_right clear]
        dsimp only
        rw [passes, if_neg Bool.false_ne_true]
        constructor
        · intro found
          obtain ⟨rv, same⟩ := found
          obtain ⟨later, ran, mapped⟩ := Option.map_eq_some_iff.mp same
          cases later with
          | error e => cases mapped
          | ok rv' => exact ⟨rv', ran⟩
        · intro found
          obtain ⟨rv, ran⟩ := found
          rw [ran]
          exact ⟨_, rfl⟩

theorem answers_marked {nodes : Skiplist β} {word : Option (SkiplistNode β) → RStr}
    (marked : ∀ found, Marked (word found)) {rv : List RStr}
    (ran : answers collides nodes word args = some (.ok rv)) : ∀ s ∈ rv, Marked s := by
  induction args generalizing rv with
  | nil =>
      cases ran
      exact fun s member => absurd member List.not_mem_nil
  | cons h rest ih =>
      rw [answers] at ran
      split at ran
      · cases ran
      · split at ran
        · cases ran
        · obtain ⟨later, found, mapped⟩ := Option.map_eq_some_iff.mp ran
          cases later with
          | error e => cases mapped
          | ok rv' =>
              cases mapped
              exact List.forall_mem_cons.mpr ⟨marked _, ih found⟩

/-- SINCLUDE and MREF answer as long as no sub-key collides. -/
theorem answered_answers {nodes : Skiplist β} {word : Option (SkiplistNode β) → RStr}
    (marked : ∀ found, Marked (word found)) :
    Answered (answered v (answers collides nodes word args)) ↔
      ClearRun (fun _ key => key ∈ nodes.map SkiplistNode.key) args := by
  rw [← answers_ok_iff nodes word]
  cases ran : answers collides nodes word args with
  | none =>
      refine iff_of_false not_answered_none ?_
      intro found
      obtain ⟨rv, same⟩ := found
      cases same
  | some out =>
      cases out with
      | error e =>
          refine iff_of_false (not_answered_raises e) ?_
          intro found
          obtain ⟨rv, same⟩ := found
          cases same
      | ok rv =>
          have lines : Reply.Marked (.lines rv) := answers_marked marked ran
          exact iff_of_true (answered_replies lines v) ⟨rv, rfl⟩

theorem mem_keys_filter (nodes : Skiplist β) (k key : CStr) :
    key ∈ (nodes.filter fun node => node.key ≠ k).map SkiplistNode.key ↔
      key ∈ nodes.map SkiplistNode.key ∧ key ≠ k := by
  simp only [List.mem_map, List.mem_filter, decide_eq_true_iff]
  constructor
  · intro found
    obtain ⟨node, ⟨member, other⟩, rfl⟩ := found
    exact ⟨⟨node, member, rfl⟩, other⟩
  · intro found
    obtain ⟨⟨node, member, rfl⟩, other⟩ := found
    exact ⟨node, ⟨member, other⟩, rfl⟩

theorem removeAll_ok_iff (nodes : Skiplist β) (rv : Nat) :
    (∃ rv' left, removeAll collides nodes rv args = some (.ok rv', left)) ↔
      ClearRun (fun before key => key ∈ nodes.map SkiplistNode.key ∧ key.toR ∉ before) args := by
  induction args generalizing nodes rv with
  | nil => exact iff_of_true ⟨rv, nodes, rfl⟩ (clearRun_nil _)
  | cons h rest ih =>
      rw [clearRun_cons, removeAll]
      rcases subKey_cases (fun key => and_iff_left List.not_mem_nil) h with
        ⟨e, raised, unclear⟩ | ⟨k, text, known, ⟨crashes, unclear⟩ | ⟨passes, clear⟩⟩
      · rw [raised]
        exact iff_of_false (by simp) fun both => unclear both.1
      · rw [known]
        dsimp only
        rw [if_pos crashes]
        exact iff_of_false (by simp) fun both => unclear both.1
      · rw [known, and_iff_right clear]
        dsimp only
        rw [passes, if_neg Bool.false_ne_true]
        subst text
        split
        · rw [ih]
          refine ClearRun.congr (fun before key => ?_) rest
          rw [mem_keys_filter, mem_toR_cons, not_or, and_assoc]
        · rename_i absent
          have missing : ∀ node ∈ nodes, node.key ≠ k := by simpa using absent
          rw [ih]
          refine ClearRun.congr (fun before key => ?_) rest
          rw [mem_toR_cons, not_or]
          refine and_congr_right fun member => (and_iff_right ?_).symm
          obtain ⟨node, inside, rfl⟩ := List.mem_map.mp member
          exact missing node inside

/-- SDEL and MDEL answer as long as no sub-key collides with what is left. -/
theorem answered_removed (of : Skiplist β → Container) (nodes : Skiplist β) :
    Answered (removed of (removeAll collides nodes 0 args)) ↔
      ClearRun (fun before key => key ∈ nodes.map SkiplistNode.key ∧ key.toR ∉ before) args := by
  rw [← removeAll_ok_iff nodes 0]
  cases ran : removeAll collides nodes 0 args with
  | none =>
      refine iff_of_false not_answered_none ?_
      intro found
      obtain ⟨rv, left, same⟩ := found
      cases same
  | some out =>
      obtain ⟨result, left⟩ := out
      cases result with
      | error e =>
          refine iff_of_false (not_answered_raises e) ?_
          intro found
          obtain ⟨rv, left, same⟩ := found
          cases same
      | ok rv => exact iff_of_true (answered_leaves (marked_count rv) _) ⟨rv, left, rfl⟩

theorem addAll_ok_iff (nodes : Skiplist Unit) (rv : Nat) :
    (∃ rv' left, addAll collides nodes rv args = some (.ok rv', left)) ↔
      ClearRun (fun before key => key ∈ nodes.map SkiplistNode.key ∨ key.toR ∈ before) args := by
  induction args generalizing nodes rv with
  | nil => exact iff_of_true ⟨rv, nodes, rfl⟩ (clearRun_nil _)
  | cons h rest ih =>
      rw [clearRun_cons, addAll]
      rcases subKey_cases (fun key => or_iff_left List.not_mem_nil) h with
        ⟨e, raised, unclear⟩ | ⟨k, text, known, ⟨crashes, unclear⟩ | ⟨passes, clear⟩⟩
      · rw [raised]
        exact iff_of_false (by simp) fun both => unclear both.1
      · rw [known]
        dsimp only
        rw [if_pos crashes]
        exact iff_of_false (by simp) fun both => unclear both.1
      · rw [known, and_iff_right clear]
        dsimp only
        rw [passes, if_neg Bool.false_ne_true]
        subst text
        split
        · rename_i present
          obtain ⟨node, found⟩ := Option.isSome_iff_exists.mp present
          have member : k ∈ nodes.map SkiplistNode.key := by
            have same : node.key = k := by simpa using List.find?_some found
            exact same ▸ List.mem_map_of_mem (List.mem_of_find?_eq_some found)
          rw [ih]
          refine ClearRun.congr (fun before key => ?_) rest
          rw [mem_toR_cons, ← or_assoc]
          refine or_congr_left ⟨Or.inl, ?_⟩
          intro either
          exact either.elim id fun same => same ▸ member
        · rename_i absent
          rw [ih]
          refine ClearRun.congr (fun before key => ?_) rest
          have inserted := (perm_insert (by simpa using absent) ()).map SkiplistNode.key
          rw [inserted.mem_iff, List.map_cons, List.mem_cons, mem_toR_cons, or_left_comm, or_assoc]

/-- SADD answers as long as no sub-key collides with what is there by then. -/
theorem answered_added (nodes : Skiplist Unit) :
    Answered (added (addAll collides nodes 0 args)) ↔
      ClearRun (fun before key => key ∈ nodes.map SkiplistNode.key ∨ key.toR ∈ before) args := by
  rw [← addAll_ok_iff nodes 0]
  cases ran : addAll collides nodes 0 args with
  | none => exact iff_of_false not_answered_none (by simp)
  | some out =>
      obtain ⟨result, left⟩ := out
      cases result with
      | error e => exact iff_of_false (not_answered_raises e) (by simp)
      | ok rv => exact iff_of_true (answered_stores (marked_count rv) _) ⟨rv, left, rfl⟩

end Loops

/-! ## Sets and hashmaps -/

section Commands

variable (v : Option Stored) (args : List RStr)

theorem answered_clear (kind : Kind) : Answered (clear kind v) := by
  unfold clear
  split
  · split
    · exact answered_deletes marked_ok
    · exact answered_replies marked_nil _
  · exact answered_replies marked_nil _

theorem answered_sInclude : Answered (sInclude collides v args) ↔
    Cmd.Answerable v args .sInclude := by
  have words : ∀ found : Option (SkiplistNode Unit),
      Marked (lit "&" ++ lit (if found.isSome then "true" else "false")) := fun found =>
    marked_front (by simp [replyTexts]) _
  cases args with
  | nil =>
      exact iff_of_true (answered_replies (marked_fixed (by simp [replyTexts])) v)
        fun nodes _ => clearRun_nil _
  | cons hkey rest =>
      dsimp only [Cmd.Answerable]
      rw [sInclude]
      cases Stored.asSet v with
      | none => exact iff_of_true (answered_replies marked_nil v) (by simp)
      | some nodes =>
          simp only [Option.some.injEq, forall_eq']
          exact answered_answers words

theorem answered_mRef : Answered (mRef collides v args) ↔ Cmd.Answerable v args .mRef := by
  dsimp only [Cmd.Answerable]
  rw [mRef]
  cases Stored.asMap v with
  | none => exact iff_of_true (answered_replies marked_nil v) (by simp)
  | some nodes =>
      simp only [Option.some.injEq, forall_eq']
      refine answered_answers ?_
      intro found
      cases found with
      | none => exact marked_front (s := "-") (by simp [replyTexts]) (lit "nil")
      | some node => exact marked_plus _

theorem answered_sDel : Answered (sDel collides v args) ↔ Cmd.Answerable v args .sDel := by
  cases args with
  | nil =>
      exact iff_of_true (answered_replies (marked_fixed (by simp [replyTexts])) v)
        fun nodes _ => clearRun_nil _
  | cons hkey rest =>
      dsimp only [Cmd.Answerable]
      rw [sDel]
      cases Stored.asSet v with
      | none => exact iff_of_true (answered_replies marked_nil v) (by simp)
      | some nodes =>
          simp only [Option.some.injEq, forall_eq']
          exact answered_removed _ nodes

theorem answered_mDel : Answered (mDel collides v args) ↔ Cmd.Answerable v args .mDel := by
  dsimp only [Cmd.Answerable]
  rw [mDel]
  cases Stored.asMap v with
  | none => exact iff_of_true (answered_replies marked_nil v) (by simp)
  | some nodes =>
      simp only [Option.some.injEq, forall_eq']
      exact answered_removed _ nodes

theorem answered_sAdd : Answered (sAdd collides v args) ↔ Cmd.Answerable v args .sAdd := by
  cases args with
  | nil =>
      exact iff_of_true (answered_replies (marked_fixed (by simp [replyTexts])) v)
        (clearRun_nil _)
  | cons hkey rest => exact answered_added _

theorem answered_mAdd : Answered (mAdd collides v args) ↔ Cmd.Answerable v args .mAdd := by
  have syntax_ : Answered (replies v (text "-Syntax error: MADD <key> <map-key> <data>")) :=
    answered_replies (marked_fixed (by simp [replyTexts])) v
  rcases args with _ | ⟨hkey, _ | ⟨data, rest⟩⟩
  · exact iff_of_true syntax_ (by simp [Cmd.Answerable])
  · exact iff_of_true syntax_ (by simp [Cmd.Answerable])
  · have one : Cmd.Answerable v (hkey :: data :: rest) .mAdd ↔ 0 ∉ data ∧
        ClearAt (fun key => key ∈ ((Stored.asMap v).getD []).map SkiplistNode.key) hkey := by
      simp [Cmd.Answerable]
    rw [one, mAdd]
    rcases subKey_cases (fun key => Iff.rfl) hkey with
      ⟨e, raised, unclear⟩ | ⟨k, _, known, decided⟩
    · rw [raised]
      exact iff_of_false (not_answered_raises e) fun both => unclear both.2
    · rw [known]
      cases stored : stringValueCStr data with
      | error e =>
          exact iff_of_false (not_answered_raises e)
            fun both => both.1 (mem_of_raises stored)
      | ok d =>
          dsimp only
          rcases decided with ⟨crashes, unclear⟩ | ⟨passes, clear⟩
          · rw [if_pos crashes]
            exact iff_of_false not_answered_none fun both => unclear both.2
          · rw [passes, if_neg Bool.false_ne_true]
            exact iff_of_true (answered_stores marked_ok _) ⟨not_mem_of_ok stored, clear⟩

theorem answered_mSize : Answered (mSize v) := by
  unfold mSize
  split
  · exact answered_replies (marked_size _) v
  · exact answered_replies marked_nil v

/-! ## Lists -/

theorem answered_lSize : Answered (lSize v) := by
  unfold lSize
  split
  · exact answered_replies (marked_size _) v
  · exact answered_replies marked_nil v

theorem answered_lPush : Answered (lPush v args) ↔ Cmd.Answerable v args .lPush := by
  cases args with
  | nil =>
      exact iff_of_true (answered_replies (marked_fixed (by simp [replyTexts])) v)
        (by simp [Cmd.Answerable])
  | cons data rest =>
      have one : Cmd.Answerable v (data :: rest) .lPush ↔ 0 ∉ data := by simp [Cmd.Answerable]
      rw [one, lPush]
      cases stored : stringValueCStr data with
      | error e => exact iff_of_false (not_answered_raises e) (not_not.mpr (mem_of_raises stored))
      | ok d => exact iff_of_true (answered_stores marked_ok _) (not_mem_of_ok stored)

theorem answered_set : Answered (set v args) ↔ Cmd.Answerable v args .set := by
  cases args with
  | nil =>
      exact iff_of_true (answered_replies (marked_fixed (by simp [replyTexts])) v)
        (by simp [Cmd.Answerable])
  | cons data rest =>
      have one : Cmd.Answerable v (data :: rest) .set ↔ 0 ∉ data := by simp [Cmd.Answerable]
      rw [one, set]
      cases stored : stringValueCStr data with
      | error e => exact iff_of_false (not_answered_raises e) (not_not.mpr (mem_of_raises stored))
      | ok d => exact iff_of_true ⟨_, _, rfl, marked_ok⟩ (not_mem_of_ok stored)

theorem answered_get : Answered (get v) ↔ Cmd.Answerable v args .get := by
  dsimp only [Cmd.Answerable]
  rcases v with _ | s | c
  · exact iff_of_true (answered_replies marked_nil none) (by simp)
  · exact iff_of_true (answered_replies (marked_plus _) _) (by simp)
  · exact iff_of_false (not_answered_raises _) fun all => all c rfl

/-- How the text of a range is taken apart. -/
theorem rangeOf_cases (idx : RStr) :
    (HalfOpen idx ∧ rangeOf idx = .error .noMethodError) ∨
    (¬ HalfOpen idx ∧ rangeOf idx = .ok none ∧
      ∀ low high rest, splitDots idx = low :: high :: rest → ¬ (isI low ∧ isI high)) ∨
    ∃ low high rest, splitDots idx = low :: high :: rest ∧ isI low ∧ isI high ∧ ¬ HalfOpen idx ∧
      rangeOf idx = .ok (some (toI low, toI high)) := by
  unfold HalfOpen rangeOf
  rcases splitDots idx with _ | ⟨first, _ | ⟨second, rest⟩⟩
  · exact Or.inl ⟨Or.inl rfl, rfl⟩
  · dsimp only
    by_cases number : isI first
    · exact Or.inl ⟨Or.inr ⟨first, rfl, number⟩, if_pos number⟩
    · refine Or.inr (Or.inl ⟨?_, if_neg number, by simp⟩)
      simp [number]
  · right
    dsimp only
    by_cases both : isI first ∧ isI second
    · refine Or.inr ⟨first, second, rest, rfl, both.1, both.2, by simp, ?_⟩
      exact if_pos (by simp [both.1, both.2])
    · refine Or.inl ⟨by simp, if_neg (by simpa using both), ?_⟩
      intro low high rest' same
      cases same
      exact both

theorem rangeAnswers_of_invalid {idx : RStr} {reached : Int → Int → Prop} (closed : ¬ HalfOpen idx)
    (invalid : ∀ low high rest, splitDots idx = low :: high :: rest → ¬ (isI low ∧ isI high)) :
    RangeAnswers v idx reached := by
  refine ⟨closed, ?_⟩
  intro low high rest elems parts isLow isHigh
  exact absurd ⟨isLow, isHigh⟩ (invalid low high rest parts)

theorem rangeAnswers_iff {idx low high : RStr} {rest : List RStr} {reached : Int → Int → Prop}
    (parts : splitDots idx = low :: high :: rest) (isLow : isI low) (isHigh : isI high)
    (closed : ¬ HalfOpen idx) :
    RangeAnswers v idx reached ↔ ∀ elems, Stored.asList v = some elems →
      counted elems (toI low) ≤ counted elems (toI high) →
      reached (counted elems (toI low)) (counted elems (toI high)) := by
  rw [RangeAnswers, and_iff_right closed]
  constructor
  · intro all elems isList
    exact all low high rest elems parts isLow isHigh isList
  · intro all low' high' rest' elems parts' _ _ isList
    obtain ⟨rfl, later⟩ := List.cons.inj (parts.symm.trans parts')
    obtain ⟨rfl, _⟩ := List.cons.inj later
    exact all elems isList

theorem popRange_marked (elems : List CStr) (pos : Int) (count : Nat) :
    Reply.Marked (.lines (popRange elems pos count).1) := by
  induction count generalizing elems with
  | zero => exact fun s member => absurd member List.not_mem_nil
  | succ count ih =>
      rw [popRange]
      split
      · exact List.forall_mem_cons.mpr ⟨marked_nil, ih elems⟩
      · exact List.forall_mem_cons.mpr ⟨marked_plus _, ih _⟩

theorem shownAt_marked (elems : List CStr) (i : Int) : Marked (shownAt elems i) := by
  unfold shownAt
  split
  · exact marked_plus _
  · exact marked_nil

/-- An index is found, or it raises in one of two ways. -/
theorem index_cases (elems : List CStr) (i : Int) :
    ((0 ≤ i ∧ i < elems.length ∧ i < 2 ^ 31) ∧ num2int i = .ok i ∧
        ∃ hit, listRef elems i = some hit) ∨
      (¬ (0 ≤ i ∧ i < elems.length ∧ i < 2 ^ 31) ∧
        (num2int i = .error .rangeError ∨ num2int i = .ok i ∧ listRef elems i = none)) := by
  rcases num2int_bounds i with ⟨bounds, inRange⟩ | ⟨unbounded, outside⟩
  · cases found : listRef elems i with
    | none =>
        refine Or.inr ⟨?_, Or.inr ⟨inRange, rfl⟩⟩
        intro inside
        exact listRef_eq_none found ⟨inside.1, inside.2.1⟩
    | some hit =>
        obtain ⟨nonneg, below, _⟩ := listRef_eq_some found
        exact Or.inl ⟨⟨nonneg, below, bounds.2⟩, inRange, hit, rfl⟩
  · refine Or.inr ⟨?_, Or.inl outside⟩
    intro inside
    exact unbounded ⟨(by decide : (-2 ^ 31 : Int) ≤ 0).trans inside.1, inside.2.2⟩

theorem answered_lRefIndex (i : Int) : Answered (lRefIndex v i) ↔ IndexAnswers v i := by
  unfold IndexAnswers
  rw [lRefIndex]
  cases Stored.asList v with
  | none => exact iff_of_true (answered_replies marked_nil v) (by simp)
  | some elems =>
      simp only [Option.some.injEq, forall_eq']
      rcases index_cases elems i with
        ⟨inside, inRange, hit, found⟩ | ⟨beyond, outside | ⟨inRange, missing⟩⟩
      · rw [inRange]
        dsimp only
        rw [found]
        exact iff_of_true (answered_replies (marked_plus _) v) inside
      · rw [outside]
        exact iff_of_false (not_answered_raises _) beyond
      · rw [inRange]
        dsimp only
        rw [missing]
        exact iff_of_false (not_answered_raises _) beyond

theorem answered_lPopIndex (i : Int) : Answered (lPopIndex v i) ↔ IndexAnswers v i := by
  unfold IndexAnswers
  rw [lPopIndex]
  cases Stored.asList v with
  | none => exact iff_of_true (answered_replies marked_nil v) (by simp)
  | some elems =>
      simp only [Option.some.injEq, forall_eq']
      rcases index_cases elems i with
        ⟨inside, inRange, hit, found⟩ | ⟨beyond, outside | ⟨inRange, missing⟩⟩
      · rw [inRange]
        dsimp only
        rw [found]
        exact iff_of_true (answered_leaves (marked_plus _) _) inside
      · rw [outside]
        exact iff_of_false (not_answered_raises _) beyond
      · rw [inRange]
        dsimp only
        rw [missing]
        exact iff_of_false (not_answered_raises _) beyond

theorem answered_lPopRange (idx : RStr) (low high : Int) :
    Answered (lPopRange v idx low high) ↔ ∀ elems, Stored.asList v = some elems →
      counted elems low ≤ counted elems high →
      -2 ^ 31 ≤ counted elems low ∧ counted elems low < 2 ^ 31 := by
  rw [lPopRange]
  cases Stored.asList v with
  | none => exact iff_of_true (answered_replies marked_nil v) (by simp)
  | some elems =>
      simp only [Option.some.injEq, forall_eq']
      by_cases range : counted elems low ≤ counted elems high
      · rw [if_pos range, imp_iff_right range]
        rcases num2int_bounds (counted elems low) with ⟨bounds, inRange⟩ | ⟨unbounded, outside⟩
        · rw [inRange]
          exact iff_of_true (answered_leaves (popRange_marked _ _ _) _) bounds
        · rw [outside]
          exact iff_of_false (not_answered_raises _) unbounded
      · rw [if_neg range]
        exact iff_of_true (answered_replies (marked_lPop idx) v) fun some => absurd some range

theorem answered_lRefRange (idx : RStr) (low high : Int) :
    Answered (lRefRange v idx low high) ↔ ∀ elems, Stored.asList v = some elems →
      counted elems low ≤ counted elems high →
      -2 ^ 31 ≤ counted elems low ∧ counted elems high < 2 ^ 31 := by
  cases isList : Stored.asList v with
  | none =>
      rw [lRefRange, isList]
      exact iff_of_true (answered_replies marked_nil v) (by simp)
  | some elems =>
      simp only [Option.some.injEq, forall_eq']
      obtain rfl := Stored.asList_eq_some.mp isList
      rcases range_cases elems idx low high with
        ⟨empty, shows, _⟩ | ⟨range, outside, shows⟩ | ⟨range, first, last, shows, _⟩
      · rw [shows]
        exact iff_of_true (answered_replies (marked_lRef idx) _) fun some =>
          absurd some (not_le.mpr empty)
      · rw [shows, imp_iff_right range]
        refine iff_of_false (not_answered_raises _) fun inside => ?_
        rcases outside with below | above
        · exact absurd inside.1 (not_le.mpr below)
        · exact absurd inside.2 (not_lt.mpr above)
      · rw [shows]
        refine iff_of_true (answered_replies ?_ _) fun _ => ⟨first, last⟩
        intro s member
        obtain ⟨i, _, rfl⟩ := List.mem_map.mp member
        exact shownAt_marked _ _

/-- The text of a range or an index, for LPOP and LREF. -/
theorem answered_lPop : Answered (lPop v args) ↔ Cmd.Answerable v args .lPop := by
  cases args with
  | nil =>
      exact iff_of_true (answered_replies (marked_fixed (by simp [replyTexts])) v)
        (by simp [Cmd.Answerable])
  | cons idx rest =>
      have one : Cmd.Answerable v (idx :: rest) .lPop ↔ if isI idx then IndexAnswers v (toI idx)
          else RangeAnswers v idx fun low _ => -2 ^ 31 ≤ low ∧ low < 2 ^ 31 := by
        simp only [Cmd.Answerable, List.head?_cons, Option.mem_some_iff, forall_eq']
      rw [one, lPop]
      by_cases number : isI idx
      · rw [if_pos number, if_pos number]
        exact answered_lPopIndex v _
      · rw [if_neg number, if_neg number]
        rcases rangeOf_cases idx with ⟨halfOpen, raised⟩ | ⟨closed, read, invalid⟩ |
          ⟨low, high, more, parts, isLow, isHigh, closed, read⟩
        · rw [raised]
          exact iff_of_false (not_answered_raises _) fun both => both.1 halfOpen
        · rw [read]
          exact iff_of_true (answered_replies (marked_lPop idx) v)
            (rangeAnswers_of_invalid v closed invalid)
        · rw [read, rangeAnswers_iff v parts isLow isHigh closed]
          exact answered_lPopRange v idx _ _

theorem answered_lRef : Answered (lRef v args) ↔ Cmd.Answerable v args .lRef := by
  cases args with
  | nil =>
      exact iff_of_true (answered_replies (marked_fixed (by simp [replyTexts])) v)
        (by simp [Cmd.Answerable])
  | cons idx rest =>
      have one : Cmd.Answerable v (idx :: rest) .lRef ↔ if isI idx then IndexAnswers v (toI idx)
          else RangeAnswers v idx fun low high => -2 ^ 31 ≤ low ∧ high < 2 ^ 31 := by
        simp only [Cmd.Answerable, List.head?_cons, Option.mem_some_iff, forall_eq']
      rw [one, lRef]
      by_cases number : isI idx
      · rw [if_pos number, if_pos number]
        exact answered_lRefIndex v _
      · rw [if_neg number, if_neg number]
        rcases rangeOf_cases idx with ⟨halfOpen, raised⟩ | ⟨closed, read, invalid⟩ |
          ⟨low, high, more, parts, isLow, isHigh, closed, read⟩
        · rw [raised]
          exact iff_of_false (not_answered_raises _) fun both => both.1 halfOpen
        · rw [read]
          exact iff_of_true (answered_replies (marked_lRef idx) v)
            (rangeAnswers_of_invalid v closed invalid)
        · rw [read, rangeAnswers_iff v parts isLow isHigh closed]
          exact answered_lRefRange v idx _ _

theorem answered_lSet : Answered (lSet v args) ↔ Cmd.Answerable v args .lSet := by
  have misused : Answered (replies v (text "-Syntax error: LSET <key> <idx> <data>")) :=
    answered_replies (marked_fixed (by simp [replyTexts])) v
  rcases args with _ | ⟨idx, _ | ⟨data, rest⟩⟩
  · exact iff_of_true misused (by simp [Cmd.Answerable])
  · exact iff_of_true misused (by simp [Cmd.Answerable])
  · have one : Cmd.Answerable v (idx :: data :: rest) .lSet ↔ (isI idx →
        ∀ elems, Stored.asList v = some elems → -2 ^ 31 ≤ toI idx ∧ toI idx < 2 ^ 31 ∧
          (0 ≤ toI idx ∧ toI idx < elems.length → 0 ∉ data)) := by
      simp [Cmd.Answerable]
    rw [one, lSet]
    by_cases number : isI idx
    · rw [if_pos number, imp_iff_right number]
      cases Stored.asList v with
      | none => exact iff_of_true (answered_replies marked_nil v) (by simp)
      | some elems =>
          simp only [Option.some.injEq, forall_eq']
          rcases num2int_bounds (toI idx) with ⟨bounds, inRange⟩ | ⟨unbounded, outside⟩
          · rw [inRange, ← and_assoc, and_iff_right bounds]
            dsimp only
            cases found : listRef elems (toI idx) with
            | none =>
                refine iff_of_true (answered_stores marked_ok _) fun inside => ?_
                exact absurd inside (listRef_eq_none found)
            | some hit =>
                obtain ⟨nonneg, below, _⟩ := listRef_eq_some found
                rw [imp_iff_right ⟨nonneg, below⟩]
                dsimp only
                cases stored : stringValueCStr data with
                | error e =>
                    exact iff_of_false (not_answered_raises e) (not_not.mpr (mem_of_raises stored))
                | ok d => exact iff_of_true (answered_stores marked_ok _) (not_mem_of_ok stored)
          · rw [outside]
            exact iff_of_false (not_answered_raises _) fun inside =>
              unbounded ⟨inside.1, inside.2.1⟩
    · rw [if_neg number]
      exact iff_of_true misused fun isNumber => absurd isNumber number

/-- Which effects reply. -/
theorem answered_iff (cmd : Cmd) :
    Answered (cmd.effect collides v args) ↔ cmd.Answerable v args := by
  cases cmd with
  | get => exact answered_get v args
  | set => exact answered_set v args
  | delete => exact iff_of_true (answered_deletes marked_ok) trivial
  | mAdd => exact answered_mAdd v args
  | mRef => exact answered_mRef v args
  | mClear => exact iff_of_true (answered_clear v .hashmap) trivial
  | mDel => exact answered_mDel v args
  | mSize => exact iff_of_true (answered_mSize v) trivial
  | sAdd => exact answered_sAdd v args
  | sDel => exact answered_sDel v args
  | sClear => exact iff_of_true (answered_clear v .set) trivial
  | sInclude => exact answered_sInclude v args
  | lClear => exact iff_of_true (answered_clear v .list) trivial
  | lPush => exact answered_lPush v args
  | lPop => exact answered_lPop v args
  | lSet => exact answered_lSet v args
  | lRef => exact answered_lRef v args
  | lSize => exact iff_of_true (answered_lSize v) trivial

end Commands

end KeyEffect

/-! ## Commands on the node -/

/-- A command with an effect answers exactly if the effect does. -/
theorem Node.Proper.answers_iff_effect {n : Node} {k : CStr} (proper : n.Proper)
    (owned : n.shard.includes k.toR = .ok true) (cmd : Cmd) (args : List RStr) :
    n.Answers cmd (k.toR :: args) ↔ (cmd.effect collides (n.content k) args).Answered := by
  constructor
  · intro answers
    obtain ⟨reply, n', ran, marked⟩ := answers
    obtain ⟨a, effect, _⟩ := proper.effect_of_run owned ran
    exact ⟨reply, a, effect, marked⟩
  · intro answered
    obtain ⟨reply, a, effect, marked⟩ := answered
    obtain ⟨n', ran, _⟩ := proper.run_of_effect owned effect
    exact ⟨reply, n', ran, marked⟩

/-- On an engine that has served requests on its keys a command answers exactly where
`Cmd.Answerable` says so. -/
theorem answers_of_reach (shard : KeyShard) (persistLevel : Nat) {n : Node}
    (run : Reach Node.serve (fun n r => r.Stays n) (Node.empty shard persistLevel true) n)
    {k : CStr} (owned : n.shard.includes k.toR = .ok true) (cmd : Cmd) (args : List RStr) :
    n.Answers cmd (k.toR :: args) ↔ cmd.Answerable (n.content k) args := by
  have proper := proper_of_reach shard persistLevel run
  rw [proper.answers_iff_effect owned, KeyEffect.answered_iff]

/-- Without arguments a command replies with its syntax. -/
theorem Node.answers_bare (n : Node) (cmd : Cmd) : n.Answers cmd [] := by
  cases cmd <;> exact ⟨_, n, rfl, KeyEffect.marked_fixed (by simp [KeyEffect.replyTexts])⟩

/-- A storage command on a key of its node answers exactly where `Cmd.Answerable` says so. -/
theorem answers_iff {n : Node} (proper : n.Proper) (cmd : Cmd) (argv : List RStr)
    (owned : ∀ key ∈ argv.head?, n.shard.includes key = .ok true) :
    n.Answers cmd argv ↔
      ∀ (k : CStr) args, argv = k.toR :: args → cmd.Answerable (n.content k) args := by
  cases argv with
  | nil => exact iff_of_true (n.answers_bare cmd) (by simp)
  | cons key args =>
      have included := owned key rfl
      obtain ⟨k, known⟩ := KeyShard.includes_nulFree included
      obtain rfl := toR_of_stringValueCStr known
      rw [proper.answers_iff_effect included, KeyEffect.answered_iff]
      constructor
      · intro answerable k' args' same
        obtain ⟨text, rfl⟩ := List.cons.inj same
        rwa [← CStr.toR_injective text]
      · intro all
        exact all k args rfl

/-- `GET k` of a key that is not there. -/
theorem answers_iff_get : nodeOfK.Answers .get [keyK.toR] := by
  refine (answers_iff proper_nodeOfK .get [keyK.toR] ?_).mpr ?_
  · intro key isHead
    cases isHead
    decide +kernel
  · intro k args _ c held
    cases held

/-- `LREF k 5..` raises, whatever the key holds. -/
theorem lRef_halfOpen :
    nodeOfK.Proper ∧ nodeOfK.shard.includes keyK.toR = .ok true ∧
      (Cmd.exec .lRef [keyK.toR, lit "5.."]).run Node.call nodeOfK =
        some (.error .noMethodError, nodeOfK) ∧
      ¬ nodeOfK.Answers .lRef [keyK.toR, lit "5.."] := by
  have raised : (Cmd.exec .lRef [keyK.toR, lit "5.."]).run Node.call nodeOfK =
      some (.error .noMethodError, nodeOfK) := rfl
  refine ⟨proper_nodeOfK, by decide +kernel, raised, ?_⟩
  intro answers
  obtain ⟨reply, n', ran, _⟩ := answers
  rw [raised] at ran
  cases ran

end XFireDB
