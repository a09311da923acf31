import XFireDB.RequestRuns

/-!
# The keys of a node

A node tracks in its shard the keys that its database holds, and drops containers that
have become empty.  A NUL in an argument breaks this: the command raises halfway.
-/

namespace XFireDB

open Lib Node

/-- The tracked keys are the keys of the database, and no key holds an empty container. -/
structure Node.Kept (n : Node) : Prop where
  keys : ∀ key, key ∈ n.shard.keys ↔ ∃ k : CStr, key = k.toR ∧ n.db k ≠ none
  full : ∀ k, Stored.Full (n.content k)

/-- An argument with a NUL comes only where raising on it leaves the key in order.

* SET: the key is free.
* MADD, LPUSH: the key holds a hashmap or list already.
* SADD: it holds a set already, or something, and the first member has no NUL.
* MDEL, SDEL: something is left after the sub-keys before the NUL. -/
def Cmd.Tidy (v : Option Stored) (args : List RStr) : Cmd → Prop
  | .set => ∀ data ∈ args.head?, 0 ∈ data → v = none
  | .mAdd => ∀ hkey data rest, args = hkey :: data :: rest → (0 ∈ hkey ∨ 0 ∈ data) →
      Stored.asMap v ≠ none
  | .lPush => ∀ data ∈ args.head?, 0 ∈ data → Stored.asList v ≠ none
  | .sAdd => (∃ h ∈ args, 0 ∈ h) →
      Stored.asSet v ≠ none ∨ v ≠ none ∧ ∃ h ∈ args.head?, 0 ∉ h
  | .mDel => (∃ h ∈ args, 0 ∈ h) → ∀ nodes, Stored.asMap v = some nodes →
      ∃ node ∈ nodes, node.key.toR ∉ args.takeWhile (0 ∉ ·)
  | .sDel => (∃ h ∈ args, 0 ∈ h) → ∀ nodes, Stored.asSet v = some nodes →
      ∃ node ∈ nodes, node.key.toR ∉ args.takeWhile (0 ∉ ·)
  | _ => True

/-- The request is tidy on a key of the node that is open to clients. -/
def Request.Tidy (n : Node) (r : Request) : Prop :=
  ∀ k args, r.On n k args → r.cmd.Tidy (n.content k) args

/-- Without a NUL in its arguments a command is tidy. -/
theorem tidy_of_nulFree (v : Option Stored) {args : List RStr} (nulFree : ∀ a ∈ args, 0 ∉ a)
    (cmd : Cmd) : cmd.Tidy v args := by
  have none : ¬ ∃ h ∈ args, 0 ∈ h := fun found => by
    obtain ⟨h, member, nul⟩ := found
    exact nulFree h member nul
  cases cmd with
  | set => exact fun data first nul => absurd nul (nulFree data (List.mem_of_mem_head? first))
  | lPush => exact fun data first nul => absurd nul (nulFree data (List.mem_of_mem_head? first))
  | mAdd =>
      intro hkey data rest shape nul
      subst shape
      have first := nulFree hkey (by simp)
      have second := nulFree data (by simp)
      exact absurd nul (not_or.mpr ⟨first, second⟩)
  | sAdd => exact fun nul => absurd nul none
  | mDel => exact fun nul => absurd nul none
  | sDel => exact fun nul => absurd nul none
  | _ => trivial

/-! ## Effects that keep a key in order -/

/-- After a command on a key that held `v`, the key is tracked as it was before: exactly
if it holds something. -/
structure After.Fits (v : Option Stored) (a : After) : Prop where
  full : Stored.Full a.value
  tracked : match a.track with
    | none => a.value = none ↔ v = none
    | some true => a.value ≠ none
    | some false => a.value = none

def KeyEffect.Fits (v : Option Stored) (e : KeyEffect) : Prop := ∀ r a, e = some (r, a) → a.Fits v

namespace KeyEffect

variable {v : Option Stored} {c : Container} {crash : List CStr → CStr → Bool}

theorem full_container (nonempty : ¬ c.IsEmpty) : Stored.Full (some (.container c)) := by
  intro c' same
  cases same
  exact nonempty

theorem fits_same (full : Stored.Full v) (r : Except Raise Reply) :
    Fits v (some (r, ⟨v, none⟩)) := by
  intro r a same
  cases same
  exact ⟨full, Iff.rfl⟩

theorem fits_deletes (r : Reply) : Fits v (deletes r) := by
  intro r a same
  cases same
  exact ⟨nofun, rfl⟩

theorem fits_stores (nonempty : ¬ c.IsEmpty) (r : Reply) : Fits v (stores c r) := by
  intro r a same
  cases same
  exact ⟨full_container nonempty, nofun⟩

/-- A container is left under a key that held something. -/
theorem fits_left (nonempty : ¬ c.IsEmpty) (held : v ≠ none) (r : Except Raise Reply) :
    Fits v (some (r, ⟨some (.container c), none⟩)) := by
  intro r a same
  cases same
  exact ⟨full_container nonempty, iff_of_false nofun held⟩

theorem fits_leaves (c : Container) (held : v ≠ none) (r : Reply) : Fits v (leaves c r) := by
  rw [leaves]
  split
  · rename_i some_
    refine fits_left ?_ held _
    intro empty
    exact absurd (Container.reported_of_isEmpty empty) some_.ne'
  · exact fits_deletes r

/-! ## Loops -/

section Loops

variable {β : Type} {nodes left : Skiplist β} {rv : Nat} {args : List RStr} {r : Except Raise Nat}

/-- Removing raises at a NUL. -/
theorem removeAll_raises_iff (ran : removeAll crash nodes rv args = some (r, left)) :
    (∃ e, r = .error e) ↔ ∃ h ∈ args, 0 ∈ h := by
  induction args generalizing nodes rv with
  | nil =>
      cases ran
      simp
  | cons h rest ih =>
      rw [removeAll] at ran
      split at ran
      · rename_i e raised
        cases ran
        exact iff_of_true ⟨e, rfl⟩ ⟨h, List.mem_cons_self, mem_of_raises raised⟩
      · rename_i k known
        rw [List.exists_mem_cons_iff, or_iff_right (not_mem_of_ok known)]
        split at ran
        · cases ran
        · split at ran
          · exact ih ran
          · exact ih ran

/-- A removal that raises has taken the sub-keys before the NUL. -/
theorem removeAll_error {e : Raise} (ran : removeAll crash nodes rv args = some (.error e, left))
    (node : SkiplistNode β) :
    node ∈ left ↔ node ∈ nodes ∧ node.key.toR ∉ args.takeWhile (0 ∉ ·) := by
  induction args generalizing nodes rv with
  | nil => cases ran
  | cons h rest ih =>
      rw [removeAll] at ran
      split at ran
      · rename_i raised
        cases ran
        rw [List.takeWhile_cons_of_neg (by simpa using mem_of_raises raised)]
        exact (and_iff_left List.not_mem_nil).symm
      · rename_i k known
        have text := toR_of_stringValueCStr known
        have sameKey : node.key.toR = h ↔ node.key = k := by
          rw [← text]
          exact CStr.toR_injective.eq_iff
        rw [List.takeWhile_cons_of_pos (by simpa using not_mem_of_ok known), List.mem_cons, not_or,
          sameKey]
        split at ran
        · cases ran
        · split at ran
          · rw [ih ran, List.mem_filter, decide_eq_true_iff, and_assoc]
          · rename_i absent
            have others : ∀ node ∈ nodes, node.key ≠ k := by simpa using absent
            rw [ih ran]
            exact and_congr_right fun inside => (and_iff_right (others node inside)).symm

end Loops

section Added

variable {nodes left : Skiplist Unit} {rv : Nat} {args : List RStr} {r : Except Raise Nat}

/-- Members are only added, and the first one is there in the end unless it has a NUL. -/
theorem addAll_ne_nil (ran : addAll crash nodes rv args = some (r, left))
    (some_ : nodes ≠ [] ∨ ∃ h ∈ args.head?, 0 ∉ h) : left ≠ [] := by
  induction args generalizing nodes rv with
  | nil =>
      cases ran
      exact some_.resolve_right (by simp)
  | cons h rest ih =>
      rw [addAll] at ran
      split at ran
      · rename_i raised
        cases ran
        exact some_.resolve_right (by simpa using mem_of_raises raised)
      · split at ran
        · cases ran
        · split at ran
          · rename_i k known uncrashed present
            refine ih ran (Or.inl ?_)
            intro same
            obtain rfl := same
            cases present
          · rename_i absent
            exact ih ran (Or.inl (Skiplist.insert_ne_nil _ _ _))

/-- Adding raises at a NUL. -/
theorem addAll_raises_iff (ran : addAll crash nodes rv args = some (r, left)) :
    (∃ e, r = .error e) ↔ ∃ h ∈ args, 0 ∈ h := by
  induction args generalizing nodes rv with
  | nil =>
      cases ran
      simp
  | cons h rest ih =>
      rw [addAll] at ran
      split at ran
      · rename_i e raised
        cases ran
        exact iff_of_true ⟨e, rfl⟩ ⟨h, List.mem_cons_self, mem_of_raises raised⟩
      · rename_i k known
        rw [List.exists_mem_cons_iff, or_iff_right (not_mem_of_ok known)]
        split at ran
        · cases ran
        · split at ran
          · exact ih ran
          · exact ih ran

end Added

theorem putMap_ne_nil (nodes : Skiplist CStr) (h d : CStr) : putMap nodes h d ≠ [] := by
  rw [putMap]
  split
  · rename_i present
    intro empty
    have keys := map_key_setValue h d nodes
    rw [empty, List.map_nil, eq_comm, List.map_eq_nil_iff] at keys
    rw [keys] at present
    cases present
  · exact Skiplist.insert_ne_nil _ _ _

/-! ## Commands -/

section Commands

variable {args : List RStr}

theorem fits_removed {β : Type} {of : Skiplist β → Container} {nodes : Skiplist β}
    (emptyOf : ∀ left, (of left).IsEmpty → left = []) (held : v ≠ none)
    (keeps : (∃ h ∈ args, 0 ∈ h) → ∃ node ∈ nodes, node.key.toR ∉ args.takeWhile (0 ∉ ·)) :
    Fits v (removed of (removeAll crash nodes 0 args)) := by
  cases ran : removeAll crash nodes 0 args with
  | none => nofun
  | some out =>
      obtain ⟨result, left⟩ := out
      cases result with
      | ok rv => exact fits_leaves (of left) held _
      | error e =>
          obtain ⟨node, inside, notTaken⟩ := keeps ((removeAll_raises_iff ran).mp ⟨e, rfl⟩)
          refine fits_left ?_ held _
          intro empty
          have member := (removeAll_error ran node).mpr ⟨inside, notTaken⟩
          rw [emptyOf left empty] at member
          cases member

theorem fits_added {nodes : Skiplist Unit} (some_ : args ≠ []) (tidy : (∃ h ∈ args, 0 ∈ h) →
      v ≠ none ∧ (nodes ≠ [] ∨ ∃ h ∈ args.head?, 0 ∉ h)) :
    Fits v (added (addAll crash nodes 0 args)) := by
  cases ran : addAll crash nodes 0 args with
  | none => nofun
  | some out =>
      obtain ⟨result, left⟩ := out
      have raises := addAll_raises_iff ran
      cases result with
      | ok rv =>
          have proper : ¬ ∃ h ∈ args, 0 ∈ h := by
            rw [← raises]
            nofun
          push Not at proper
          have first := List.head?_eq_some_head some_
          have nonempty : ¬ (Container.ofSet left).IsEmpty :=
            addAll_ne_nil ran (Or.inr ⟨_, first, proper _ (List.head_mem some_)⟩)
          exact fits_stores nonempty _
      | error e =>
          obtain ⟨held, some_⟩ := tidy (raises.mp ⟨e, rfl⟩)
          have nonempty : ¬ (Container.ofSet left).IsEmpty := addAll_ne_nil ran some_
          exact fits_left nonempty held _

theorem fits_answered (full : Stored.Full v)
    (x : Option (Except Raise (List RStr))) : Fits v (answered v x) := by
  unfold answered
  split
  · nofun
  · exact fits_same full _
  · exact fits_same full _

variable (full : Stored.Full v)

include full

theorem fits_clear (kind : Kind) : Fits v (clear kind v) := by
  unfold clear
  split
  · split
    · exact fits_deletes _
    · exact fits_same full _
  · exact fits_same full _

theorem fits_sInclude (args : List RStr) : Fits v (sInclude crash v args) := by
  unfold sInclude
  split
  · split
    · exact fits_answered full _
    · exact fits_same full _
  · exact fits_same full _

theorem fits_mRef (args : List RStr) : Fits v (mRef crash v args) := by
  unfold mRef
  split
  · exact fits_answered full _
  · exact fits_same full _

theorem fits_sDel (tidy : Cmd.Tidy v args .sDel) : Fits v (sDel crash v args) := by
  unfold sDel
  split
  · split
    · rename_i nodes found
      obtain ⟨num, rfl⟩ := Stored.asSet_eq_some.mp found
      exact fits_removed (fun _ empty => empty) nofun fun nul => tidy nul nodes found
    · exact fits_same full _
  · exact fits_same full _

theorem fits_mDel (tidy : Cmd.Tidy v args .mDel) : Fits v (mDel crash v args) := by
  unfold mDel
  split
  · rename_i nodes found
    obtain ⟨num, rfl⟩ := Stored.asMap_eq_some.mp found
    exact fits_removed (fun _ empty => empty) nofun fun nul => tidy nul nodes found
  · exact fits_same full _

theorem fits_sAdd (tidy : Cmd.Tidy v args .sAdd) : Fits v (sAdd crash v args) := by
  unfold sAdd
  split
  · cases found : Stored.asSet v with
    | none =>
        refine fits_added (List.cons_ne_nil _ _) ?_
        intro nul
        obtain ⟨held, first⟩ := (tidy nul).resolve_left (not_not.mpr found)
        exact ⟨held, Or.inr first⟩
    | some nodes =>
        obtain ⟨num, rfl⟩ := Stored.asSet_eq_some.mp found
        refine fits_added (List.cons_ne_nil _ _) ?_
        intro _
        exact ⟨nofun, Or.inl (full _ rfl)⟩
  · exact fits_same full _

/-- A container that a raising command leaves was there before. -/
theorem fits_mAdd (tidy : Cmd.Tidy v args .mAdd) : Fits v (mAdd crash v args) := by
  unfold mAdd
  split
  · rename_i hkey data rest
    have raising : (0 ∈ hkey ∨ 0 ∈ data) → ∀ e,
        Fits v (raises (some (.container (.ofMap ((Stored.asMap v).getD [])))) e) := by
      intro nul e
      obtain ⟨nodes, found⟩ := Option.ne_none_iff_exists'.mp (tidy hkey data rest rfl nul)
      rw [found]
      obtain ⟨num, rfl⟩ := Stored.asMap_eq_some.mp found
      have nonempty : ¬ (Container.ofMap nodes).IsEmpty := full (.hashmap nodes num) rfl
      exact fits_left nonempty (Option.some_ne_none _) _
    dsimp only
    split
    · rename_i e raised
      exact raising (Or.inl (mem_of_raises raised)) e
    · rename_i e raised _
      exact raising (Or.inr (mem_of_raises raised)) e
    · rename_i h d _ _
      split
      · nofun
      · have nonempty : ¬ (Container.ofMap (putMap ((Stored.asMap v).getD []) h d)).IsEmpty :=
          putMap_ne_nil _ h d
        exact fits_stores nonempty _
  · exact fits_same full _

theorem fits_mSize : Fits v (mSize v) := by
  unfold mSize
  split
  · exact fits_same full _
  · exact fits_same full _

theorem fits_lPush (tidy : Cmd.Tidy v args .lPush) : Fits v (lPush v args) := by
  unfold lPush
  split
  · rename_i data rest
    dsimp only
    split
    · rename_i e raised
      obtain ⟨elems, found⟩ := Option.ne_none_iff_exists'.mp (tidy data rfl (mem_of_raises raised))
      rw [found]
      obtain rfl := Stored.asList_eq_some.mp found
      exact fits_left (full _ rfl) (Option.some_ne_none _) _
    · exact fits_stores (by simp [Container.IsEmpty]) _
  · exact fits_same full _

theorem fits_lPopIndex (i : Int) : Fits v (lPopIndex v i) := by
  unfold lPopIndex
  split
  · rename_i elems found
    obtain rfl := Stored.asList_eq_some.mp found
    split
    · exact fits_same full _
    · split
      · exact fits_same full _
      · exact fits_leaves (.list _) (Option.some_ne_none _) _
  · exact fits_same full _

theorem fits_lPopRange (idx : RStr) (low high : Int) : Fits v (lPopRange v idx low high) := by
  unfold lPopRange
  split
  · rename_i elems found
    obtain rfl := Stored.asList_eq_some.mp found
    dsimp only
    split
    · split
      · exact fits_same full _
      · exact fits_leaves (.list _) (Option.some_ne_none _) _
    · exact fits_same full _
  · exact fits_same full _

theorem fits_lPop (args : List RStr) : Fits v (lPop v args) := by
  unfold lPop
  split
  · split
    · exact fits_lPopIndex full _
    · split
      · exact fits_same full _
      · exact fits_same full _
      · exact fits_lPopRange full _ _ _
  · exact fits_same full _

theorem fits_lRefIndex (i : Int) : Fits v (lRefIndex v i) := by
  unfold lRefIndex
  split
  · split
    · exact fits_same full _
    · split
      · exact fits_same full _
      · exact fits_same full _
  · exact fits_same full _

theorem fits_lRefRange (idx : RStr) (low high : Int) : Fits v (lRefRange v idx low high) := by
  unfold lRefRange
  split
  · dsimp only
    split
    · split
      · exact fits_same full _
      · exact fits_same full _
    · exact fits_same full _
  · exact fits_same full _

theorem fits_lRef (args : List RStr) : Fits v (lRef v args) := by
  unfold lRef
  split
  · split
    · exact fits_lRefIndex full _
    · split
      · exact fits_same full _
      · exact fits_same full _
      · exact fits_lRefRange full _ _ _
  · exact fits_same full _

theorem fits_lSize : Fits v (lSize v) := by
  unfold lSize
  split
  · exact fits_same full _
  · exact fits_same full _

theorem fits_lSet (args : List RStr) : Fits v (lSet v args) := by
  unfold lSet
  split
  · split
    · split
      · rename_i elems found
        obtain rfl := Stored.asList_eq_some.mp found
        split
        · exact fits_same full _
        · split
          · exact fits_stores (full _ rfl) _
          · split
            · exact fits_same full _
            · have nonempty : ¬ (Container.list elems).IsEmpty := full _ rfl
              exact fits_stores (by simpa [Container.IsEmpty] using nonempty) _
      · exact fits_same full _
    · exact fits_same full _
  · exact fits_same full _

theorem fits_set (tidy : Cmd.Tidy v args .set) : Fits v (set v args) := by
  unfold set
  split
  · rename_i data rest
    split
    · rename_i e raised
      obtain rfl := tidy data rfl (mem_of_raises raised)
      exact fits_same full _
    · intro r a same
      cases same
      exact ⟨nofun, nofun⟩
  · exact fits_same full _

theorem fits_get : Fits v (get v) := by
  unfold get
  split
  · exact fits_same full _
  · exact fits_same full _
  · exact fits_same full _

/-- A tidy command keeps its key in order. -/
theorem fits_effect (cmd : Cmd) (tidy : cmd.Tidy v args) : Fits v (cmd.effect crash v args) := by
  cases cmd with
  | get => exact fits_get full
  | set => exact fits_set full tidy
  | delete => exact fits_deletes _
  | mAdd => exact fits_mAdd full tidy
  | mRef => exact fits_mRef full args
  | mClear => exact fits_clear full .hashmap
  | mDel => exact fits_mDel full tidy
  | mSize => exact fits_mSize full
  | sAdd => exact fits_sAdd full tidy
  | sDel => exact fits_sDel full tidy
  | sClear => exact fits_clear full .set
  | sInclude => exact fits_sInclude full args
  | lClear => exact fits_clear full .list
  | lPush => exact fits_lPush full tidy
  | lPop => exact fits_lPop full args
  | lSet => exact fits_lSet full args
  | lRef => exact fits_lRef full args
  | lSize => exact fits_lSize full

end Commands

/-! ## Nothing crashes -/

theorem answers_never {β : Type} (nodes : Skiplist β) (word : Option (SkiplistNode β) → RStr)
    (args : List RStr) : (answers never nodes word args).isSome := by
  induction args with
  | nil => rfl
  | cons h rest ih =>
      rw [answers]
      split
      · rfl
      · rw [never, if_neg Bool.false_ne_true, Option.isSome_map]
        exact ih

theorem removeAll_never {β : Type} (nodes : Skiplist β) (rv : Nat) (args : List RStr) :
    (removeAll never nodes rv args).isSome := by
  induction args generalizing nodes rv with
  | nil => rfl
  | cons h rest ih =>
      rw [removeAll]
      split
      · rfl
      · rw [never, if_neg Bool.false_ne_true]
        split
        · exact ih _ _
        · exact ih _ _

theorem addAll_never (nodes : Skiplist Unit) (rv : Nat) (args : List RStr) :
    (addAll never nodes rv args).isSome := by
  induction args generalizing nodes rv with
  | nil => rfl
  | cons h rest ih =>
      rw [addAll]
      split
      · rfl
      · rw [never, if_neg Bool.false_ne_true]
        split
        · exact ih _ _
        · exact ih _ _

theorem answered_isSome {x : Option (Except Raise (List RStr))} (some_ : x.isSome) :
    (answered v x).isSome := by
  unfold answered
  split
  · cases some_
  · rfl
  · rfl

theorem leaves_isSome (c : Container) (r : Reply) : (leaves c r).isSome := by
  unfold leaves
  split
  · rfl
  · rfl

theorem removed_isSome {β : Type} (of : Skiplist β → Container)
    {x : Option (Except Raise Nat × Skiplist β)} (some_ : x.isSome) : (removed of x).isSome := by
  unfold removed
  split
  · cases some_
  · exact leaves_isSome _ _
  · rfl

theorem added_isSome {x : Option (Except Raise Nat × Skiplist Unit)} (some_ : x.isSome) :
    (added x).isSome := by
  unfold added
  split
  · cases some_
  · rfl
  · rfl

/-- On exact containers every command comes to an end. -/
theorem effect_never (v : Option Stored) (args : List RStr) (cmd : Cmd) :
    (cmd.effect never v args).isSome := by
  cases cmd with
  | mRef =>
      dsimp only [Cmd.effect, mRef]
      split
      · exact answered_isSome (answers_never _ _ _)
      · rfl
  | sInclude =>
      dsimp only [Cmd.effect, sInclude]
      split
      · split
        · exact answered_isSome (answers_never _ _ _)
        · rfl
      · rfl
  | mDel =>
      dsimp only [Cmd.effect, mDel]
      split
      · exact removed_isSome _ (removeAll_never _ _ _)
      · rfl
  | sDel =>
      dsimp only [Cmd.effect, sDel]
      split
      · split
        · exact removed_isSome _ (removeAll_never _ _ _)
        · rfl
      · rfl
  | sAdd =>
      dsimp only [Cmd.effect, sAdd]
      split
      · exact added_isSome (addAll_never _ _ _)
      · rfl
  | mAdd =>
      dsimp only [Cmd.effect, mAdd]
      split
      · split
        · rfl
        · rfl
        · rw [never, if_neg Bool.false_ne_true]
          rfl
      · rfl
  | _ =>
    simp only [Cmd.effect, get, set, clear, mSize, lPush, lPop, lPopIndex, lPopRange, lRef,
      lRefIndex, lRefRange, lSize, lSet]
    (repeat' split) <;> first | rfl | exact leaves_isSome _ _

/-! ## Untidy commands -/

/-- A raise in a removing loop leaves something only of what the loop has not come to. -/
theorem keeps_of_fits {β : Type} {of : Skiplist β → Container} {nodes : Skiplist β}
    {args : List RStr} (ofEmpty : (of []).IsEmpty)
    (fits : ∀ r a, removed of (removeAll never nodes 0 args) = some (r, a) → a.Fits v)
    (nul : ∃ h ∈ args, 0 ∈ h) :
    ∃ node ∈ nodes, node.key.toR ∉ args.takeWhile (0 ∉ ·) := by
  obtain ⟨⟨r, left⟩, ran⟩ := Option.isSome_iff_exists.mp (removeAll_never nodes 0 args)
  obtain ⟨e, rfl⟩ := (removeAll_raises_iff ran).mpr nul
  rw [ran] at fits
  have nonempty : left ≠ [] := by
    intro same
    obtain rfl := same
    exact (fits _ _ rfl).full _ rfl ofEmpty
  obtain ⟨node, member⟩ := List.exists_mem_of_ne_nil left nonempty
  exact ⟨node, (removeAll_error ran node).mp member⟩

/-- A command that keeps its key in order is tidy. -/
theorem tidy_of_fits (cmd : Cmd) {args : List RStr}
    (fits : ∀ r a, cmd.effect never v args = some (r, a) → a.Fits v) : cmd.Tidy v args := by
  cases cmd with
  | set =>
      intro data first nul
      cases args with
      | nil => cases first
      | cons data' rest =>
          obtain rfl := Option.some.inj first
          have raised : stringValueCStr data' = .error .argumentError := dif_pos nul
          rw [Cmd.effect, set, raised] at fits
          exact (fits _ _ rfl).tracked.mp rfl
  | lPush =>
      intro data first nul nothing
      cases args with
      | nil => cases first
      | cons data' rest =>
          obtain rfl := Option.some.inj first
          have raised : stringValueCStr data' = .error .argumentError := dif_pos nul
          rw [Cmd.effect, lPush, raised, nothing] at fits
          exact (fits _ _ rfl).full _ rfl rfl
  | mAdd =>
      intro hkey data rest shape nul nothing
      have raised : ∃ e, mAdd never v args = raises (some (.container (.ofMap []))) e := by
        rw [shape, mAdd, nothing]
        dsimp only [Option.getD_none]
        split
        · exact ⟨_, rfl⟩
        · exact ⟨_, rfl⟩
        · rename_i known known'
          exact absurd nul (not_or.mpr ⟨not_mem_of_ok known, not_mem_of_ok known'⟩)
      obtain ⟨e, raised⟩ := raised
      rw [Cmd.effect, raised] at fits
      exact (fits _ _ rfl).full _ rfl rfl
  | sAdd =>
      intro nul
      cases args with
      | nil => exact absurd nul (by simp)
      | cons h rest =>
          obtain ⟨⟨r, left⟩, ran⟩ :=
            Option.isSome_iff_exists.mp (addAll_never ((Stored.asSet v).getD []) 0 (h :: rest))
          obtain ⟨e, rfl⟩ := (addAll_raises_iff ran).mpr nul
          rw [Cmd.effect, sAdd, ran] at fits
          have after := fits _ _ rfl
          cases found : Stored.asSet v with
          | some nodes => exact Or.inl (Option.some_ne_none nodes)
          | none =>
              refine Or.inr ⟨fun nothing =>
                absurd (after.tracked.mpr nothing) (Option.some_ne_none _), h, rfl, ?_⟩
              -- with a NUL in front nothing is added to the new set
              intro first
              have raised : stringValueCStr h = .error .argumentError := dif_pos first
              rw [found, Option.getD_none, addAll, raised] at ran
              cases ran
              exact after.full _ rfl rfl
  | mDel =>
      intro nul nodes found
      have empty : (Container.ofMap []).IsEmpty := rfl
      rw [Cmd.effect, mDel, found] at fits
      exact keeps_of_fits empty fits nul
  | sDel =>
      intro nul nodes found
      cases args with
      | nil => exact absurd nul (by simp)
      | cons h rest =>
          have empty : (Container.ofSet []).IsEmpty := rfl
          rw [Cmd.effect, sDel, found] at fits
          exact keeps_of_fits empty fits nul
  | _ => trivial

end KeyEffect

/-! ## Requests -/

/-- Between two requests. -/
structure Node.InOrder (n : Node) : Prop extends Node.Exact n where
  kept : n.Kept

variable {n t : Node} {k : CStr} {a : After} {crash : List CStr → CStr → Bool}

theorem Node.inOrder_empty (shard : KeyShard) (untracked : shard.keys = []) (persistLevel : Nat) :
    (Node.empty shard persistLevel true).InOrder where
  toExact := (Node.proper_empty shard persistLevel).toExact
  kept := by
    refine ⟨?_, nofun⟩
    intro key
    have nothing : (Node.empty shard persistLevel true).shard.keys = [] := untracked
    rw [nothing]
    exact iff_of_false List.not_mem_nil fun ⟨k, _, held⟩ => held rfl

theorem Node.Kept.tracked (kept : n.Kept) (wf : n.Wf) (k : CStr) :
    k.toR ∈ n.shard.keys ↔ n.content k ≠ none := by
  have same : n.db k ≠ none ↔ n.content k ≠ none := not_iff_not.mpr (wf.db_eq_none k)
  rw [kept.keys, ← same]
  constructor
  · intro found
    obtain ⟨k', same, held⟩ := found
    rw [CStr.toR_injective same]
    exact held
  · intro held
    exact ⟨k, rfl, held⟩

/-- What a command does to its key is all it does. -/
theorem Node.InOrder.leaves (inOrder : n.InOrder) (leaves : n.Leaves k t a)
    (exact : Stored.Exact a.value) (fits : a.Fits (n.content k)) : t.InOrder := by
  have tracked := inOrder.kept.tracked inOrder.wf
  -- the tracked keys are those with a content
  have tracked' : ∀ k' : CStr, k'.toR ∈ t.shard.keys ↔ t.content k' ≠ none := by
    intro k'
    have fits := fits.tracked
    rw [leaves.keys, After.Tracks]
    rcases eq_or_ne k' k with rfl | other
    · rw [leaves.here]
      cases track : a.track with
      | none =>
          rw [track] at fits
          rw [tracked, not_iff_not]
          exact fits.symm
      | some add =>
          rw [track] at fits
          cases add with
          | true => exact iff_of_true (Or.inr rfl) fits
          | false => exact iff_of_false (fun both => both.2 rfl) (not_not.mpr fits)
    · have otherText : k'.toR ≠ k.toR := fun same => other (CStr.toR_injective same)
      rw [leaves.frame other, ← tracked]
      cases a.track with
      | none => exact Iff.rfl
      | some add =>
          cases add with
          | true => exact or_iff_left otherText
          | false => exact and_iff_left otherText
  have text : ∀ key ∈ n.shard.keys, ∃ k' : CStr, key = k'.toR := by
    intro key member
    obtain ⟨k', same, _⟩ := (inOrder.kept.keys key).mp member
    exact ⟨k', same⟩
  have text' : ∀ key ∈ t.shard.keys, ∃ k' : CStr, key = k'.toR := by
    intro key member
    rw [leaves.keys, After.Tracks] at member
    split at member
    · exact text key member
    · rcases member with old | same
      · exact text key old
      · exact ⟨k, same⟩
    · exact text key member.1
  refine ⟨inOrder.toExact.leaves leaves exact, ?_, ?_⟩
  · intro key
    constructor
    · intro member
      obtain ⟨k', rfl⟩ := text' key member
      exact ⟨k', rfl, fun nothing => (tracked' k').mp member ((leaves.wf.db_eq_none k').mp nothing)⟩
    · intro found
      obtain ⟨k', rfl, held⟩ := found
      exact (tracked' k').mpr fun nothing => held ((leaves.wf.db_eq_none k').mpr nothing)
  · intro k'
    rcases eq_or_ne k' k with rfl | other
    · rw [leaves.here]
      exact fits.full
    · rw [leaves.frame other]
      exact inOrder.kept.full k'

/-- A key that is in order after a command was left so by it. -/
theorem Node.InOrder.fits_of_leaves (inOrder : n.InOrder) (leaves : n.Leaves k t a)
    (kept : t.Kept) : a.Fits (n.content k) := by
  have before := inOrder.kept.tracked inOrder.wf k
  have after := kept.tracked leaves.wf k
  rw [leaves.keys, After.Tracks, leaves.here] at after
  refine ⟨?_, ?_⟩
  · rw [← leaves.here]
    exact kept.full k
  · cases track : a.track with
    | none =>
        rw [track] at after
        exact not_iff_not.mp (after.symm.trans before)
    | some add =>
        rw [track] at after
        cases add with
        | true => exact after.mp (Or.inr rfl)
        | false => exact not_not.mp fun held => (after.mpr held).2 rfl

/-- A tidy request leaves the node in order. -/
theorem Node.InOrder.script (inOrder : n.InOrder) {r : Request} (stays : r.Stays n)
    (tidy : r.Tidy n)
    {out : Except Raise Reply} (ran : r.script.run (callWith crash) n = some (out, t)) :
    t.InOrder := by
  rcases inOrder.toExact.script_cases crash stays with ⟨_, out', refused⟩ | ⟨k, args, on, has⟩
  · rw [refused] at ran
    cases ran
    exact inOrder
  · rw [HasEffect, ran] at has
    obtain ⟨after, effect, leaves⟩ := has.of_left
    have exact := KeyEffect.exact_effect (inOrder.stored k) r.cmd args out after effect
    have fits := KeyEffect.fits_effect (inOrder.kept.full k) r.cmd (tidy k args on) out after effect
    exact inOrder.leaves leaves exact fits

/-- On exact containers a request ends, and in order exactly if it is tidy. -/
theorem Node.InOrder.serveWith (inOrder : n.InOrder) {r : Request} (stays : r.Stays n) :
    ∃ t, n.serveWith never r = some t ∧ (t.Kept ↔ r.Tidy n) := by
  rcases inOrder.toExact.script_cases never stays with ⟨off, out, refused⟩ | ⟨k, args, on, has⟩
  · refine ⟨n, ?_, iff_of_true inOrder.kept fun k args on => absurd on (off k args)⟩
    rw [Node.serveWith, refused]
    rfl
  · have ends := KeyEffect.effect_never (n.content k) args r.cmd
    obtain ⟨⟨result, after⟩, effect⟩ := Option.isSome_iff_exists.mp ends
    rw [HasEffect, effect] at has
    obtain ⟨t, ran, leaves⟩ := has.of_right
    refine ⟨t, ?_, ?_, fun tidy => (inOrder.script stays tidy ran).kept⟩
    · rw [Node.serveWith, ran]
      rfl
    · intro kept k' args' on'
      have argv := on'.1
      rw [on.1] at argv
      obtain rfl := CStr.toR_injective (List.head_eq_of_cons_eq argv)
      obtain rfl := List.tail_eq_of_cons_eq argv
      refine KeyEffect.tidy_of_fits r.cmd ?_
      intro result' after' effect'
      rw [effect] at effect'
      cases effect'
      exact inOrder.fits_of_leaves leaves kept

/-! ## Runs -/

/-- After every run of tidy requests from an empty database the tracked keys are the keys of
the database, and no container is empty.  The next request ends, and keeps this exactly if it
is tidy. -/
theorem keys_kept (shard : KeyShard) (untracked : shard.keys = []) (persistLevel : Nat) {n : Node}
    (run : Reach (Node.serveWith never) (fun n r => r.Stays n ∧ r.Tidy n)
      (Node.empty shard persistLevel true) n) :
    n.Kept ∧ ∀ r : Request, r.Stays n → ∃ t, n.serveWith never r = some t ∧
      (t.Kept ↔ r.Tidy n) := by
  have inOrder : n.InOrder := by
    refine run.invariant (Node.inOrder_empty shard untracked persistLevel) ?_
    intro m r m' inOrder guard served
    obtain ⟨⟨out, t⟩, ran, rfl⟩ := Option.map_eq_some_iff.mp served
    exact inOrder.script guard.1 guard.2 ran
  exact ⟨inOrder.kept, fun r stays => inOrder.serveWith stays⟩

/-- The same for the engine, where it does not crash. -/
theorem engine_keys_kept (shard : KeyShard) (untracked : shard.keys = [])
    (persistLevel : Nat) {n : Node}
    (run : Reach Node.serve (fun n r => r.Stays n ∧ r.Tidy n)
      (Node.empty shard persistLevel true) n) : n.Kept := by
  have both : n.InOrder ∧ n.Ordered := by
    refine run.invariant (I := fun n => n.InOrder ∧ n.Ordered)
      ⟨Node.inOrder_empty shard untracked persistLevel, nofun⟩ ?_
    intro m r m' found guard served
    obtain ⟨inOrder, ordered⟩ := found
    obtain ⟨⟨out, t⟩, ran, rfl⟩ := Option.map_eq_some_iff.mp served
    refine ⟨?_, ordered.run ran⟩
    rw [ordered.run_eq] at ran
    exact inOrder.script guard.1 guard.2 ran
  exact both.1.kept

/-- On an engine that has served tidy requests, GET replies `-nil` to exactly the keys that
the shard does not track. -/
theorem get_nil_iff_untracked (shard : KeyShard) (untracked : shard.keys = []) (persistLevel : Nat)
    {n : Node}
    (run : Reach Node.serve (fun n r => r.Stays n ∧ r.Tidy n)
      (Node.empty shard persistLevel true) n)
    {k : CStr} (owned : n.shard.includes k.toR = .ok true) :
    (∃ n', (Cmd.exec .get [k.toR]).run Node.call n = some (.ok (Command.text "-nil"), n')) ↔
      k.toR ∉ n.shard.keys := by
  have proper := proper_of_reach shard persistLevel (run.mono fun _ _ guard => guard.1)
  have kept := engine_keys_kept shard untracked persistLevel run
  have tracked : k.toR ∉ n.shard.keys ↔ n.content k = none := by
    rw [kept.keys, ← proper.wf.db_eq_none]
    constructor
    · intro free
      by_contra held
      exact free ⟨k, rfl, held⟩
    · intro free found
      obtain ⟨k', same, held⟩ := found
      rw [← CStr.toR_injective same] at held
      exact held free
  rw [tracked]
  constructor
  · intro found
    obtain ⟨n', ran⟩ := found
    obtain ⟨a, effect, -, -⟩ := proper.effect_of_run owned ran
    change KeyEffect.get (n.content k) = _ at effect
    rcases stored : n.content k with - | ⟨s | c⟩
    · rfl
    · rw [stored] at effect
      cases effect
    · rw [stored] at effect
      cases effect
  · intro missing
    have effect : Cmd.effect collides (n.content k) [] .get =
        KeyEffect.replies none (Command.text "-nil") := by
      rw [missing]
      rfl
    obtain ⟨n', ran, -, -⟩ := proper.run_of_effect owned effect
    exact ⟨n', ran⟩

/-- A list is made, and becomes empty. -/
def pushAndPop : List Request :=
  [⟨.lPush, [lit "k", lit "a"]⟩, ⟨.lPop, [lit "k", lit "0"]⟩]

/-- A request on a key of the node, without a NUL in the other arguments. -/
def nulFreeHere (n : Node) (r : Request) : Bool :=
  decide (∀ key ∈ r.argv.head?, n.shard.includes key = .ok true) &&
    decide (∀ arg ∈ r.argv.tail, 0 ∉ arg)

theorem tidy_of_nulFreeHere (n : Node) (r : Request) (here : nulFreeHere n r = true) :
    r.Stays n ∧ r.Tidy n := by
  rw [nulFreeHere, Bool.and_eq_true, decide_eq_true_iff, decide_eq_true_iff] at here
  obtain ⟨owned, nulFree⟩ := here
  constructor
  · intro key first away
    rw [owned key first] at away
    cases away
  · intro k args found
    obtain ⟨argv, -, -⟩ := found
    rw [argv, List.tail_cons] at nulFree
    exact tidy_of_nulFree _ nulFree r.cmd

theorem keys_kept_pushAndPop :
    ∃ m n, nodeOfK.serveWith never ⟨.lPush, [lit "k", lit "a"]⟩ = some m ∧
      m.content keyK = some (.container (.list [⟨lit "a", by decide⟩])) ∧
      runEvents (Node.serveWith never) nodeOfK pushAndPop = some n ∧ n.content keyK = none ∧
      n.Kept ∧ ∀ r : Request, r.Stays n → ∃ t, n.serveWith never r = some t ∧
        (t.Kept ↔ r.Tidy n) := by
  refine ⟨_, _, rfl, rfl, rfl, rfl, ?_⟩
  exact keys_kept shardOfK rfl 0
    (Reach.of_guardedEvents nulFreeHere tidy_of_nulFreeHere pushAndPop (by decide +kernel) rfl)

/-- After `nulOverString` the key is gone, and the shard still tracks it when GET replies. -/
theorem nulOverString_not_kept :
    ∃ n n', runEvents (Node.serveWith never) nodeOfK nulOverString = some n ∧
      (Request.script ⟨.get, [lit "k"]⟩).run (Node.callWith never) n =
        some (.ok (Command.text "-nil"), n') ∧
      lit "k" ∈ n'.shard.keys ∧ n'.db keyK = none ∧ ¬ n'.Kept := by
  refine ⟨_, _, rfl, rfl, by decide +kernel, rfl, ?_⟩
  intro kept
  obtain ⟨k, same, held⟩ := (kept.keys (lit "k")).mp (by decide +kernel)
  obtain rfl : k = keyK := CStr.toR_injective (same.symm.trans (by decide +kernel))
  exact held rfl

end XFireDB
