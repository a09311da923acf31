import XFireDB.Forwarding
import XFireDB.RestartReplies

/-!
# A cluster is one store

The nodes of a cluster divide the slots and with them the keys.  Whatever node each
request of a list is sent to, its client hears what a single node that owns every
slot would have replied: `heard_of_cluster`.
-/

namespace XFireDB

open Lib Command

/-! ## Lines that stay whole -/

theorem uncut_of_digits {w : RStr} (digits : ∀ b ∈ w, isDigit b = true) : Uncut w := by
  constructor
  · intro member
    exact absurd (digits 10 member) (by decide)
  · intro last
    exact absurd (digits 13 (List.mem_of_getLast? last)) (by decide)

theorem uncut_natToS (m : Nat) : Uncut (natToS m) :=
  uncut_of_digits fun _ member => isDigit_of_mem_natToS member

/-- A line with a prefix that stays whole itself. -/
theorem Uncut.append {front v : RStr} (uncut' : Uncut front) (uncut : Uncut v) :
    Uncut (front ++ v) := by
  constructor
  · intro member
    exact (List.mem_append.mp member).elim uncut'.1 uncut.1
  · rcases eq_or_ne v [] with rfl | nonempty
    · rw [List.append_nil]
      exact uncut'.2
    · rw [List.getLast?_append_of_ne_nil _ nonempty]
      exact uncut.2

theorem uncut_plus {v : RStr} (uncut : Uncut v) : Uncut (lit "+" ++ v) :=
  Uncut.append (by decide) uncut

theorem uncut_percent (m : Nat) : Uncut (lit "%" ++ natToS m) :=
  Uncut.append (by decide) (uncut_natToS m)

theorem uncut_size (i : Int) : Uncut (lit "%" ++ intToS i) := by
  cases i with
  | ofNat m => exact uncut_percent m
  | negSucc m =>
      have negative : Uncut (lit "-" ++ natToS (m + 1)) :=
        Uncut.append (by decide) (uncut_natToS (m + 1))
      exact Uncut.append (by decide) negative

theorem Bare.uncut {w : RStr} (bare : Bare w) : Uncut w := ⟨bare.oneLine, bare.last⟩

/-- The strings that can be told of a value. -/
def Stored.Uncut : Option Stored → Prop
  | some (.string s) => XFireDB.Uncut s.toR
  | some (.container (.list elems)) => ∀ d ∈ elems, XFireDB.Uncut d.toR
  | some (.container (.hashmap nodes _)) => ∀ node ∈ nodes, XFireDB.Uncut node.value.toR
  | _ => True

/-- The arguments that can be told of later, or at once. -/
def Cmd.Uncut : Cmd → List RStr → Prop
  | .set, data :: _ => XFireDB.Uncut data
  | .lPush, data :: _ => XFireDB.Uncut data
  | .mAdd, _ :: data :: _ => XFireDB.Uncut data
  | .lSet, _ :: data :: _ => XFireDB.Uncut data
  | .lPop, idx :: _ => XFireDB.Uncut idx
  | .lRef, idx :: _ => XFireDB.Uncut idx
  | _, _ => True

namespace KeyEffect

/-- What is told and what is left stay whole. -/
def Uncut (e : KeyEffect) : Prop :=
  ∀ r a, e = some (r, a) → Stored.Uncut a.value ∧ ∀ reply, r = .ok reply → reply.Uncut

variable {v : Option Stored} {c : Container} {r : Reply} {crash : List CStr → CStr → Bool}
  {args : List RStr}

theorem uncut_some {x : Except Raise Reply} {a : After} (stored : Stored.Uncut a.value)
    (told : ∀ reply, x = .ok reply → reply.Uncut) : KeyEffect.Uncut (some (x, a)) := by
  intro x' a' same
  cases same
  exact ⟨stored, told⟩

theorem uncut_replies (stored : Stored.Uncut v) (told : r.Uncut) : KeyEffect.Uncut (replies v r) :=
  uncut_some stored fun _ same => Except.ok.inj same ▸ told

theorem uncut_raises (stored : Stored.Uncut v) (e : Raise) : KeyEffect.Uncut (raises v e) :=
  uncut_some stored nofun

theorem uncut_stores (stored : Stored.Uncut (some (.container c))) (told : r.Uncut) :
    KeyEffect.Uncut (stores c r) :=
  uncut_some stored fun _ same => Except.ok.inj same ▸ told

theorem uncut_deletes (told : r.Uncut) : KeyEffect.Uncut (deletes r) :=
  uncut_some trivial fun _ same => Except.ok.inj same ▸ told

theorem uncut_leaves (stored : Stored.Uncut (some (.container c))) (told : r.Uncut) :
    KeyEffect.Uncut (leaves c r) := by
  unfold leaves
  split
  · exact uncut_replies stored told
  · exact uncut_deletes told

theorem uncut_text {w : RStr} (uncut : XFireDB.Uncut w) : (Reply.text w).Uncut := by
  intro w' member
  rwa [List.mem_singleton.mp member]

theorem uncut_answered (stored : Stored.Uncut v) {x : Option (Except Raise (List RStr))}
    (told : ∀ rv, x = some (.ok rv) → ∀ w ∈ rv, XFireDB.Uncut w) :
    KeyEffect.Uncut (answered v x) := by
  unfold answered
  split
  · nofun
  · exact uncut_replies stored (told _ rfl)
  · exact uncut_raises stored _

/-! ### Loops -/

section Loops

variable {β : Type} {nodes left : Skiplist β}

theorem uncut_answers {word : Option (SkiplistNode β) → RStr} (absent : XFireDB.Uncut (word none))
    (present : ∀ node ∈ nodes, XFireDB.Uncut (word (some node))) {rv : List RStr}
    (ran : answers crash nodes word args = some (.ok rv)) : ∀ w ∈ rv, XFireDB.Uncut w := by
  induction args generalizing rv with
  | nil =>
      cases ran
      exact nofun
  | cons h rest ih =>
      rw [answers] at ran
      split at ran
      · cases ran
      · rename_i k _
        split at ran
        · cases ran
        · obtain ⟨later, ranLater, same⟩ := Option.map_eq_some_iff.mp ran
          cases later with
          | error e => cases same
          | ok rest' =>
              cases same
              intro w member
              rcases List.mem_cons.mp member with rfl | inRest
              · cases found : nodes.find? fun node => node.key = k with
                | none => exact absent
                | some node => exact present node (List.mem_of_find?_eq_some found)
              · exact ih ranLater w inRest

theorem mem_of_removeAll {rv : Nat} {r : Except Raise Nat}
    (ran : removeAll crash nodes rv args = some (r, left)) : ∀ node ∈ left, node ∈ nodes := by
  induction args generalizing nodes rv with
  | nil =>
      cases ran
      exact fun _ member => member
  | cons h rest ih =>
      rw [removeAll] at ran
      split at ran
      · cases ran
        exact fun _ member => member
      · split at ran
        · cases ran
        · split at ran
          · intro node member
            exact List.mem_of_mem_filter (ih ran node member)
          · exact ih ran

theorem uncut_removed {of : Skiplist β → Container}
    (stored : ∀ left : Skiplist β, (∀ node ∈ left, node ∈ nodes) →
      Stored.Uncut (some (.container (of left)))) :
    KeyEffect.Uncut (removed of (removeAll crash nodes 0 args)) := by
  cases ran : removeAll crash nodes 0 args with
  | none => nofun
  | some out =>
      obtain ⟨result, left⟩ := out
      have kept := stored left (mem_of_removeAll ran)
      cases result with
      | ok rv => exact uncut_leaves kept (uncut_text (uncut_percent rv))
      | error e => exact uncut_raises kept e

end Loops

theorem uncut_added (x : Option (Except Raise Nat × Skiplist Unit)) :
    KeyEffect.Uncut (added x) := by
  match x with
  | none => nofun
  | some (.ok rv, nodes) => exact uncut_stores trivial (uncut_text (uncut_percent rv))
  | some (.error e, nodes) => exact uncut_raises (v := some (.container (.ofSet nodes))) trivial e

theorem mem_of_listRef {elems : List CStr} {i : Int} {pos : Nat} {d : CStr}
    (found : Node.listRef elems i = some (pos, d)) : d ∈ elems := by
  unfold Node.listRef at found
  split at found
  · obtain ⟨data, here, same⟩ := Option.map_eq_some_iff.mp found
    cases same
    exact List.mem_of_getElem? here
  · cases found

theorem uncut_popRange {elems : List CStr} (stored : ∀ d ∈ elems, XFireDB.Uncut d.toR) (pos : Int)
    (count : Nat) : (∀ w ∈ (popRange elems pos count).1, XFireDB.Uncut w) ∧
      ∀ d ∈ (popRange elems pos count).2, XFireDB.Uncut d.toR := by
  induction count generalizing elems with
  | zero => exact ⟨nofun, stored⟩
  | succ count ih =>
      rw [popRange]
      split
      · obtain ⟨told, left⟩ := ih stored
        refine ⟨?_, left⟩
        intro w member
        rcases List.mem_cons.mp member with rfl | later
        · decide
        · exact told w later
      · rename_i i data found
        obtain ⟨told, left⟩ := ih fun d member => stored d (List.mem_of_mem_eraseIdx member)
        refine ⟨?_, left⟩
        intro w member
        rcases List.mem_cons.mp member with rfl | later
        · exact uncut_plus (stored data (mem_of_listRef found))
        · exact told w later

theorem uncut_refRange {elems : List CStr} (stored : ∀ d ∈ elems, XFireDB.Uncut d.toR) {pos : Int}
    {count : Nat} {rv : List RStr} (ran : refRange elems pos count = .ok rv) :
    ∀ w ∈ rv, XFireDB.Uncut w := by
  induction count generalizing pos rv with
  | zero =>
      cases ran
      exact nofun
  | succ count ih =>
      rw [refRange] at ran
      split at ran
      · cases ran
      · rename_i i _
        cases ranLater : refRange elems (pos + 1) count with
        | error e =>
            rw [ranLater] at ran
            cases ran
        | ok later =>
            rw [ranLater] at ran
            cases ran
            intro w member
            rcases List.mem_cons.mp member with rfl | inLater
            · split
              · rename_i pos' data found
                exact uncut_plus (stored data (mem_of_listRef found))
              · decide
            · exact ih ranLater w inLater

/-! ### Commands -/

section Commands

variable (stored : Stored.Uncut v)

include stored

theorem uncut_asList {elems : List CStr} (found : Stored.asList v = some elems) :
    ∀ d ∈ elems, XFireDB.Uncut d.toR := by
  obtain rfl := Stored.asList_eq_some.mp found
  exact stored

theorem uncut_asMap {nodes : Skiplist CStr} (found : Stored.asMap v = some nodes) :
    ∀ node ∈ nodes, XFireDB.Uncut node.value.toR := by
  obtain ⟨num, rfl⟩ := Stored.asMap_eq_some.mp found
  exact stored

theorem uncut_getD_asList : ∀ d ∈ (Stored.asList v).getD [], XFireDB.Uncut d.toR := by
  cases found : Stored.asList v with
  | none => exact nofun
  | some elems => exact uncut_asList stored found

theorem uncut_getD_asMap : ∀ node ∈ (Stored.asMap v).getD [], XFireDB.Uncut node.value.toR := by
  cases found : Stored.asMap v with
  | none => exact nofun
  | some nodes => exact uncut_asMap stored found

omit stored in
theorem uncut_of_stringValueCStr {data : RStr} {d : CStr} (known : stringValueCStr data = .ok d)
    (uncut : XFireDB.Uncut data) : XFireDB.Uncut d.toR := by
  rwa [toR_of_stringValueCStr known]

omit stored in
theorem mem_of_mem_insertWith {β : Type} {hash : CStr → Nat} {key : CStr} {value : β}
    {node : SkiplistNode β} {l : Skiplist β}
    (member : node ∈ Skiplist.insertWith hash key value l) :
    node = ⟨key, value⟩ ∨ node ∈ l := by
  induction l with
  | nil => exact Or.inl (List.mem_singleton.mp member)
  | cons m rest ih =>
      rw [Skiplist.insertWith] at member
      split at member
      · rcases List.mem_cons.mp member with rfl | later
        · exact Or.inr List.mem_cons_self
        · exact (ih later).imp_right (List.mem_cons_of_mem m)
      · split at member
        · exact Or.inr member
        · exact List.mem_cons.mp member

omit stored in
theorem uncut_putMap {nodes : Skiplist CStr} (each : ∀ node ∈ nodes, XFireDB.Uncut node.value.toR)
    (h : CStr) {d : CStr} (uncut : XFireDB.Uncut d.toR) :
    ∀ node ∈ putMap nodes h d, XFireDB.Uncut node.value.toR := by
  intro node member
  rw [putMap] at member
  split at member
  · obtain ⟨before, isBefore, rfl⟩ := List.mem_map.mp member
    split
    · exact uncut
    · exact each before isBefore
  · rcases mem_of_mem_insertWith member with rfl | old
    · exact uncut
    · exact each node old

theorem uncut_mAdd (uncut : Cmd.Uncut .mAdd args) : KeyEffect.Uncut (mAdd crash v args) := by
  have each := uncut_getD_asMap stored
  unfold mAdd
  split
  · rename_i hkey data _
    dsimp only
    split
    · exact uncut_raises (v := some (.container (.ofMap ((Stored.asMap v).getD [])))) each _
    · exact uncut_raises (v := some (.container (.ofMap ((Stored.asMap v).getD [])))) each _
    · rename_i h d _ known
      split
      · nofun
      · exact uncut_stores (uncut_putMap each h (uncut_of_stringValueCStr known uncut)) (by decide)
  · exact uncut_replies stored (by decide)

theorem uncut_mRef (args : List RStr) : KeyEffect.Uncut (mRef crash v args) := by
  unfold mRef
  split
  · rename_i nodes found
    apply uncut_answered stored
    intro rv ran
    apply uncut_answers ?_ ?_ ran
    · decide
    · intro node member
      exact uncut_plus (uncut_asMap stored found node member)
  · exact uncut_replies stored (by decide)

theorem uncut_sInclude (args : List RStr) : KeyEffect.Uncut (sInclude crash v args) := by
  unfold sInclude
  split
  · split
    · apply uncut_answered stored
      intro rv ran
      apply uncut_answers ?_ ?_ ran
      · decide
      · intro node member
        exact (by decide : XFireDB.Uncut (lit "&" ++ lit "true"))
    · exact uncut_replies stored (by decide)
  · exact uncut_replies stored (by decide)

theorem uncut_lPush (uncut : Cmd.Uncut .lPush args) : KeyEffect.Uncut (lPush v args) := by
  have each := uncut_getD_asList stored
  unfold lPush
  split
  · rename_i data _
    dsimp only
    split
    · exact uncut_raises (v := some (.container (.list ((Stored.asList v).getD [])))) each _
    · rename_i d known
      apply uncut_stores ?_ (by decide)
      intro d' member
      rcases List.mem_append.mp member with old | new
      · exact each d' old
      · rw [List.mem_singleton.mp new]
        exact uncut_of_stringValueCStr known uncut
  · exact uncut_replies stored (by decide)

theorem uncut_lSet (uncut : Cmd.Uncut .lSet args) : KeyEffect.Uncut (lSet v args) := by
  unfold lSet
  split
  · rename_i idx data _
    split
    · split
      · rename_i elems found
        have each := uncut_asList stored found
        split
        · exact uncut_raises stored _
        · split
          · exact uncut_stores each (by decide)
          · split
            · exact uncut_raises stored _
            · rename_i d known
              apply uncut_stores ?_ (by decide)
              intro d' member
              rcases List.mem_or_eq_of_mem_set member with old | rfl
              · exact each d' old
              · exact uncut_of_stringValueCStr known uncut
      · exact uncut_replies stored (by decide)
    · exact uncut_replies stored (by decide)
  · exact uncut_replies stored (by decide)

theorem uncut_lPop (uncut : Cmd.Uncut .lPop args) : KeyEffect.Uncut (lPop v args) := by
  unfold lPop
  split
  · rename_i idx _
    have invalid : (Reply.text (lit "-LPOP range invalid: " ++ idx)).Uncut :=
      uncut_text (XFireDB.Uncut.append (by decide) uncut)
    split
    · unfold lPopIndex
      split
      · rename_i elems found
        have each := uncut_asList stored found
        split
        · exact uncut_raises stored _
        · split
          · exact uncut_raises stored _
          · rename_i pos data here
            apply uncut_leaves
            · intro d member
              exact each d (List.mem_of_mem_eraseIdx member)
            · exact uncut_text (uncut_plus (each data (mem_of_listRef here)))
      · exact uncut_replies stored (by decide)
    · split
      · exact uncut_raises stored _
      · exact uncut_replies stored invalid
      · rename_i low high _
        unfold lPopRange
        split
        · rename_i elems found
          have each := uncut_asList stored found
          dsimp only
          split
          · split
            · exact uncut_raises stored _
            · obtain ⟨told, left⟩ := uncut_popRange each (counted elems low)
                (counted elems high - counted elems low + 1).toNat
              exact uncut_leaves left told
          · exact uncut_replies stored invalid
        · exact uncut_replies stored (by decide)
  · exact uncut_replies stored (by decide)

theorem uncut_lRef (uncut : Cmd.Uncut .lRef args) : KeyEffect.Uncut (lRef v args) := by
  unfold lRef
  split
  · rename_i idx _
    have invalid : (Reply.text (lit "-LREF range invalid: " ++ idx)).Uncut :=
      uncut_text (XFireDB.Uncut.append (by decide) uncut)
    split
    · unfold lRefIndex
      split
      · rename_i elems found
        split
        · exact uncut_raises stored _
        · split
          · exact uncut_raises stored _
          · rename_i pos data here
            exact uncut_replies stored
              (uncut_text (uncut_plus (uncut_asList stored found data (mem_of_listRef here))))
      · exact uncut_replies stored (by decide)
    · split
      · exact uncut_raises stored _
      · exact uncut_replies stored invalid
      · unfold lRefRange
        split
        · rename_i elems found
          dsimp only
          split
          · split
            · exact uncut_raises stored _
            · rename_i rv ran
              exact uncut_replies stored (uncut_refRange (uncut_asList stored found) ran)
          · exact uncut_replies stored invalid
        · exact uncut_replies stored (by decide)
  · exact uncut_replies stored (by decide)

theorem uncut_set (uncut : Cmd.Uncut .set args) : KeyEffect.Uncut (set v args) := by
  unfold set
  split
  · split
    · exact uncut_raises (v := none) trivial _
    · rename_i d known
      have whole : Stored.Uncut (some (.string d)) := uncut_of_stringValueCStr known uncut
      apply uncut_some (a := ⟨some (.string d), some true⟩) whole
      intro reply same
      obtain rfl := Except.ok.inj same
      decide
  · exact uncut_replies stored (by decide)

/-- A command on a value that stays whole leaves one, and its reply stays whole. -/
theorem uncut_effect (cmd : Cmd) (uncut : cmd.Uncut args) :
    KeyEffect.Uncut (cmd.effect crash v args) := by
  cases cmd with
  | mAdd => exact uncut_mAdd stored uncut
  | mRef => exact uncut_mRef stored args
  | sInclude => exact uncut_sInclude stored args
  | lPush => exact uncut_lPush stored uncut
  | lSet => exact uncut_lSet stored uncut
  | lPop => exact uncut_lPop stored uncut
  | lRef => exact uncut_lRef stored uncut
  | set => exact uncut_set stored uncut
  | sAdd =>
      cases args with
      | nil => exact uncut_replies stored (by decide)
      | cons hkey rest => exact uncut_added _
  | mDel =>
      dsimp only [Cmd.effect, mDel]
      split
      · rename_i nodes found
        apply uncut_removed
        intro left inside node member
        exact uncut_asMap stored found node (inside node member)
      · exact uncut_replies stored (by decide)
  | sDel =>
      dsimp only [Cmd.effect]
      unfold sDel
      split
      · split
        · exact uncut_removed fun _ _ => trivial
        · exact uncut_replies stored (by decide)
      · exact uncut_replies stored (by decide)
  | delete => exact uncut_deletes (by decide)
  | get =>
      match v with
      | none => exact uncut_replies stored (by decide)
      | some (.string s) => exact uncut_replies stored (uncut_text (uncut_plus stored))
      | some (.container _) => exact uncut_raises stored _
  | mSize =>
      dsimp only [Cmd.effect, mSize]
      split
      · exact uncut_replies stored (uncut_text (uncut_size _))
      · exact uncut_replies stored (by decide)
  | lSize =>
      dsimp only [Cmd.effect, lSize]
      split
      · exact uncut_replies stored (uncut_text (uncut_size _))
      · exact uncut_replies stored (by decide)
  | _ =>
      -- LCLEAR, MCLEAR and SCLEAR
      dsimp only [Cmd.effect, clear]
      split
      · split
        · exact uncut_deletes (by decide)
        · exact uncut_replies stored (by decide)
      · exact uncut_replies stored (by decide)

end Commands

end KeyEffect

/-! ## Exceptions -/

/-- The last rescue clause of a worker takes the exception. -/
def Raise.QueryFails (e : Raise) : Prop := e ≠ .noReply ∧ e.rescued = lit "Query failed"

namespace KeyEffect

/-- No exception but such as the last rescue clause takes. -/
def Fails (e : KeyEffect) : Prop := ∀ raise a, e = some (.error raise, a) → raise.QueryFails

variable {v : Option Stored} {c : Container} {r : Reply} {crash : List CStr → CStr → Bool}
  {args : List RStr}

theorem fails_argumentError : Raise.argumentError.QueryFails := ⟨nofun, rfl⟩

theorem fails_typeError : Raise.typeError.QueryFails := ⟨nofun, rfl⟩

theorem fails_of_stringValueCStr {s : RStr} {e : Raise} (raised : stringValueCStr s = .error e) :
    e.QueryFails := by
  unfold stringValueCStr at raised
  split at raised
  · cases raised
    exact fails_argumentError
  · cases raised

theorem fails_of_num2int {i : Int} {e : Raise} (raised : Node.num2int i = .error e) :
    e.QueryFails := by
  unfold Node.num2int at raised
  split at raised
  · cases raised
  · cases raised
    exact ⟨nofun, rfl⟩

theorem fails_of_rangeOf {idx : RStr} {e : Raise} (raised : rangeOf idx = .error e) :
    e.QueryFails := by
  unfold rangeOf at raised
  split at raised
  · cases raised
    exact ⟨nofun, rfl⟩
  · split at raised
    · cases raised
      exact ⟨nofun, rfl⟩
    · cases raised
  · split at raised <;> cases raised

theorem fails_none : Fails none := nofun

theorem fails_ok (a : After) : Fails (some (.ok r, a)) := nofun

theorem fails_error {e : Raise} {a : After} (fails : e.QueryFails) :
    Fails (some (.error e, a)) := by
  intro raise a' same
  cases same
  exact fails

theorem fails_leaves : Fails (leaves c r) := by
  unfold leaves
  split
  · exact fails_ok _
  · exact fails_ok _

/-! ### Loops -/

section Loops

variable {β : Type} {nodes left : Skiplist β} {e : Raise}

theorem fails_answers {word : Option (SkiplistNode β) → RStr}
    (raised : answers crash nodes word args = some (.error e)) : e.QueryFails := by
  induction args with
  | nil => cases raised
  | cons h rest ih =>
      rw [answers] at raised
      split at raised
      · rename_i unread
        cases raised
        exact fails_of_stringValueCStr unread
      · split at raised
        · cases raised
        · cases later : answers crash nodes word rest with
          | none =>
              rw [later] at raised
              cases raised
          | some result =>
              rw [later] at raised
              cases result with
              | ok rv => cases raised
              | error e' =>
                  cases raised
                  exact ih later

theorem fails_removeAll {rv : Nat}
    (raised : removeAll crash nodes rv args = some (.error e, left)) :
    e.QueryFails := by
  induction args generalizing nodes rv with
  | nil => cases raised
  | cons h rest ih =>
      rw [removeAll] at raised
      split at raised
      · rename_i unread
        cases raised
        exact fails_of_stringValueCStr unread
      · split at raised
        · cases raised
        · split at raised
          · exact ih raised
          · exact ih raised

theorem fails_addAll {nodes left : Skiplist Unit} {rv : Nat}
    (raised : addAll crash nodes rv args = some (.error e, left)) : e.QueryFails := by
  induction args generalizing nodes rv with
  | nil => cases raised
  | cons h rest ih =>
      rw [addAll] at raised
      split at raised
      · rename_i unread
        cases raised
        exact fails_of_stringValueCStr unread
      · split at raised
        · cases raised
        · split at raised
          · exact ih raised
          · exact ih raised

theorem fails_refRange {elems : List CStr} {pos : Int} {count : Nat}
    (raised : refRange elems pos count = .error e) : e.QueryFails := by
  induction count generalizing pos with
  | zero => cases raised
  | succ count ih =>
      rw [refRange] at raised
      split at raised
      · rename_i outside
        cases raised
        exact fails_of_num2int outside
      · cases later : refRange elems (pos + 1) count with
        | ok rv =>
            rw [later] at raised
            cases raised
        | error e' =>
            rw [later] at raised
            cases raised
            exact ih later

theorem fails_answered {x : Option (Except Raise (List RStr))}
    (fails : ∀ e, x = some (.error e) → e.QueryFails) : Fails (answered v x) := by
  unfold answered
  split
  · exact fails_none
  · exact fails_ok _
  · exact fails_error (fails _ rfl)

theorem fails_removed {of : Skiplist β → Container} {x : Option (Except Raise Nat × Skiplist β)}
    (fails : ∀ e left, x = some (.error e, left) → e.QueryFails) : Fails (removed of x) := by
  unfold removed
  split
  · exact fails_none
  · exact fails_leaves
  · exact fails_error (fails _ _ rfl)

theorem fails_added {x : Option (Except Raise Nat × Skiplist Unit)}
    (fails : ∀ e left, x = some (.error e, left) → e.QueryFails) : Fails (added x) := by
  unfold added
  split
  · exact fails_none
  · exact fails_ok _
  · exact fails_error (fails _ _ rfl)

end Loops

/-- A command raises nothing that a client could tell from a failed query. -/
theorem fails_effect (cmd : Cmd) : Fails (cmd.effect crash v args) := by
  cases cmd with
  | mRef =>
      dsimp only [Cmd.effect, mRef]
      split
      · exact fails_answered fun _ => fails_answers
      · exact fails_ok _
  | sInclude =>
      dsimp only [Cmd.effect]
      unfold sInclude
      split
      · split
        · exact fails_answered fun _ => fails_answers
        · exact fails_ok _
      · exact fails_ok _
  | mDel =>
      dsimp only [Cmd.effect, mDel]
      split
      · exact fails_removed fun _ _ => fails_removeAll
      · exact fails_ok _
  | sDel =>
      dsimp only [Cmd.effect]
      unfold sDel
      split
      · split
        · exact fails_removed fun _ _ => fails_removeAll
        · exact fails_ok _
      · exact fails_ok _
  | sAdd =>
      dsimp only [Cmd.effect]
      unfold sAdd
      split
      · exact fails_added fun _ _ => fails_addAll
      · exact fails_ok _
  | _ =>
      -- no loops over sub-keys
      simp only [Cmd.effect, get, set, clear, mAdd, mSize, lPush, lSize, lSet, lPop, lPopIndex,
        lPopRange, lRef, lRefIndex, lRefRange]
      (repeat' split) <;> first
        | exact fails_ok _
        | exact fails_leaves
        | exact fails_none
        | exact fails_error (fails_of_stringValueCStr ‹_›)
        | exact fails_error (fails_of_num2int ‹_›)
        | exact fails_error (fails_of_rangeOf ‹_›)
        | exact fails_error (fails_refRange ‹_›)
        | exact fails_error fails_typeError

end KeyEffect

/-! ## The single node -/

theorem After.Tracks.old_or_key {a : After} {keys : List RStr} {k : CStr} {key : RStr}
    (tracks : a.Tracks keys k key) : key ∈ keys ∨ key = k.toR := by
  unfold After.Tracks at tracks
  split at tracks
  · exact Or.inl tracks
  · exact tracks
  · exact Or.inl tracks.1

/-- The shard of a node that owns every slot. -/
def wholeShard : KeyShard := ⟨allSlots, [], nodup_allSlots, List.nodup_nil⟩

/-- The key can be asked for, and the arguments survive as words and as lines. -/
def Request.Plain (r : Request) : Prop :=
  ∀ key args, r.argv = key :: args →
    (∃ asked : AskedKey, asked.bytes = key) ∧ r.cmd.Carries args ∧ r.cmd.Uncut args

/-- A request to a node, as its client hears of it.  `none` is a crash. -/
def Node.hear {ι : Type} (n : Node) (request : ι × Request) : Option (Option RStr × Node) :=
  (n.answer request.2).map fun out => (heard out.1, out.2)

/-- What a client of the cluster hears for what a client of the single node hears: where a
command raises, the text of the exception may be missing. -/
def HeardAs (bytes single : Option RStr) : Prop :=
  bytes = single ∨ (bytes = none ∧ single = some (Reply.text (lit "Query failed")).written)

instance (bytes single : Option RStr) : Decidable (HeardAs bytes single) :=
  inferInstanceAs (Decidable (_ ∨ _))

theorem heardAs_passedBack {reply : Except Raise Reply}
    (fails : ∀ e, reply = .error e → e.QueryFails) :
    HeardAs (heard (passedBack reply)) (heard reply) := by
  cases reply with
  | ok reply => exact Or.inl rfl
  | error e =>
      obtain ⟨replied, rescued⟩ := fails e rfl
      refine Or.inr ⟨rfl, ?_⟩
      cases e <;> simp_all [heard]

namespace Cluster

variable {ι : Type} {c : Cluster ι} {n : Node}

/-- The nodes of the cluster divide the slots and what the single node holds. -/
structure Divides (c : Cluster ι) (n : Node) : Prop where
  proper : ∀ i, (c.node i).Proper
  one : n.Proper
  whole : n.shard.slots = allSlots
  known : ∀ e i, i ∈ c.table e
  owner : ∀ slot ∈ allSlots, ∃ i, slot ∈ (c.node i).shard.slots ∧
    ∀ j, slot ∈ (c.node j).shard.slots → j = i
  tracked : ∀ i, ∀ key ∈ (c.node i).shard.keys, (c.node i).shard.includes key = .ok true
  home : ∀ i k, slotOf k ∈ (c.node i).shard.slots → (c.node i).content k = n.content k
  away : ∀ i k, slotOf k ∉ (c.node i).shard.slots → (c.node i).content k = none
  uncut : ∀ k, Stored.Uncut (n.content k)

theorem Divides.includes (divides : c.Divides n) (k : CStr) :
    n.shard.includes k.toR = .ok true := by
  rw [KeyShard.includes, keyToSlot_toR, divides.whole]
  exact congrArg Except.ok (decide_eq_true (keyToSlot_mem_allSlots (keyToSlot_toR k)))

/-- Every key has its owner. -/
theorem Divides.sole (divides : c.Divides n) (key : AskedKey) : ∃ o, ∀ e, c.SoleOwner e o key := by
  obtain ⟨o, owns, alone⟩ := divides.owner key.slot (keyToSlot_mem_allSlots key.keyToSlot_eq)
  exact ⟨o, fun e => ⟨divides.known e o, owns, alone⟩⟩

variable [DecidableEq ι]

/-- A request to a node of the cluster, as its client hears of it. -/
def hear (fuel : Nat) (c : Cluster ι) (request : ι × Request) : Option (Option RStr × Cluster ι) :=
  told (serve fuel request.1 c request.2)

/-- A command on a key leaves the cluster and the single node with the same. -/
theorem Divides.leaves (divides : c.Divides n) {o : ι} {k : CStr} {a : After} {t n' : Node}
    (owns : slotOf k ∈ (c.node o).shard.slots) (left : (c.node o).Leaves k t a) (proper : t.Proper)
    (left' : n.Leaves k n' a) (proper' : n'.Proper) (uncut : Stored.Uncut a.value) :
    Divides { c with node := Function.update c.node o t } n' := by
  have slots : ∀ i, (Function.update c.node o t i).shard.slots = (c.node i).shard.slots := by
    intro i
    rcases eq_or_ne i o with rfl | other
    · rw [Function.update_self, left.slots]
    · rw [Function.update_of_ne other]
  have sole : ∀ i, i ≠ o → slotOf k ∉ (c.node i).shard.slots := by
    intro i other owns'
    obtain ⟨j, _, alone⟩ := divides.owner (slotOf k) (keyToSlot_mem_allSlots (keyToSlot_toR k))
    exact other ((alone i owns').trans (alone o owns).symm)
  constructor
  case proper =>
    intro i
    dsimp only
    rcases eq_or_ne i o with rfl | other
    · rwa [Function.update_self]
    · rw [Function.update_of_ne other]
      exact divides.proper i
  case one => exact proper'
  case whole => rw [left'.slots, divides.whole]
  case known => exact divides.known
  case owner =>
    intro slot member
    simp only [slots]
    exact divides.owner slot member
  case tracked =>
    intro i key
    dsimp only
    rcases eq_or_ne i o with rfl | other
    · rw [Function.update_self, left.includes, left.keys]
      intro tracks
      rcases tracks.old_or_key with old | rfl
      · exact divides.tracked i key old
      · rw [KeyShard.includes, keyToSlot_toR]
        exact congrArg Except.ok (decide_eq_true owns)
    · rw [Function.update_of_ne other]
      exact divides.tracked i key
  case home =>
    intro i k' owns'
    dsimp only at owns' ⊢
    rw [slots] at owns'
    rcases eq_or_ne k' k with rfl | otherKey
    · obtain rfl : i = o := by
        by_contra other
        exact sole i other owns'
      rw [Function.update_self, left.here, left'.here]
    · rw [left'.frame otherKey]
      rcases eq_or_ne i o with rfl | other
      · rw [Function.update_self, left.frame otherKey]
        exact divides.home i k' owns'
      · rw [Function.update_of_ne other]
        exact divides.home i k' owns'
  case away =>
    intro i k' not
    dsimp only at not ⊢
    rw [slots] at not
    rcases eq_or_ne i o with rfl | other
    · have otherKey : k' ≠ k := fun same => not (same ▸ owns)
      rw [Function.update_self, left.frame otherKey]
      exact divides.away i k' not
    · rw [Function.update_of_ne other]
      exact divides.away i k' not
  case uncut =>
    intro k'
    rcases eq_or_ne k' k with rfl | otherKey
    · rw [left'.here]
      exact uncut
    · rw [left'.frame otherKey]
      exact divides.uncut k'

/-- A command with the effect `e` on `k` was executed at its owner `o` and at the single
node. -/
def Executed (c : Cluster ι) (n : Node) (o : ι) (k : CStr) (e : KeyEffect)
    (out : Option RStr × Cluster ι) (out' : Option RStr × Node) : Prop :=
  ∃ reply a t, e = some (reply, a) ∧ HeardAs out.1 out'.1 ∧
    out.2 = { c with node := Function.update c.node o t } ∧
    (c.node o).Leaves k t a ∧ t.Proper ∧ n.Leaves k out'.2 a ∧ out'.2.Proper

/-- What any node tells of a request is what the owner of its key makes of it. -/
theorem Divides.told_at_owner (divides : c.Divides n) {e o : ι} {key : AskedKey}
    (sole : c.SoleOwner e o key) {cmd : Cmd} {args : List RStr}
    (allowed : ¬ refused ⟨cmd, key.bytes :: args⟩) (carries : cmd.Carries args)
    (uncut : cmd.Uncut args) (fuel : Nat) :
    told (serve (fuel + 1) e c ⟨cmd, key.bytes :: args⟩) =
      told ((serve 0 o c ⟨cmd, key.bytes :: args⟩).map fun out =>
        (if e = o then out.1 else passedBack out.1, out.2)) := by
  have home : (c.node o).shard.includes key.cstr.toR = .ok true :=
    (includes_asked c key o).trans (congrArg Except.ok (decide_eq_true sole.owns))
  have whole : KeyEffect.Uncut (cmd.effect collides (n.content key.cstr) args) :=
    KeyEffect.uncut_effect (divides.uncut key.cstr) cmd uncut
  apply told_anywhere sole allowed carries
  · intro reply t ran
    obtain ⟨a, effect, _⟩ := (divides.proper o).effect_of_run home ran
    rw [divides.home o key.cstr sole.owns] at effect
    exact (whole _ _ effect).2 reply rfl
  · intro other _
    have notHere : slotOf key.cstr ∉ (c.node e).shard.slots := fun owns =>
      other (sole.alone e owns)
    constructor
    · exact ((divides.proper e).wf.db_eq_none key.cstr).mpr (divides.away e key.cstr notHere)
    · intro member
      have included := (includes_asked c key e).symm.trans (divides.tracked e _ member)
      exact notHere (of_decide_eq_true (Except.ok.inj included))

/-- A request changes nothing, or it is a command on a key at its owner. -/
theorem Divides.hear_cases (divides : c.Divides n) (e : ι) {r : Request}
    (plain : r.Plain) (fuel : Nat) :
    (∃ bytes, hear (fuel + 1) c (e, r) = some (bytes, c) ∧ Node.hear n (e, r) = some (bytes, n)) ∨
    ∃ k args o, r.argv = CStr.toR k :: args ∧ Bare k.toR ∧ slotOf k ∈ (c.node o).shard.slots ∧
      Option.Rel (Executed c n o k (r.cmd.effect collides (n.content k) args))
        (hear (fuel + 1) c (e, r)) (Node.hear n (e, r)) := by
  obtain ⟨cmd, argv⟩ := r
  cases argv with
  | nil =>
      obtain ⟨reply, same⟩ := Cmd.exec_of_query_none (show cmd.query [] = none by cases cmd <;> rfl)
      have script : (Request.mk cmd []).script = pure reply := same
      refine Or.inl ⟨heard (.ok reply), ?_, ?_⟩
      · rw [hear, serve, script]
        rfl
      · rw [Node.hear, Node.answer, script]
        rfl
  | cons key args =>
      obtain ⟨⟨asked, rfl⟩, carries, uncutArgs⟩ := plain _ _ rfl
      by_cases isRefused : refused ⟨cmd, asked.bytes :: args⟩
      · obtain ⟨message, raises⟩ := script_of_refused isRefused
        refine Or.inl ⟨heard (.error (.illegalKey message)), ?_, ?_⟩
        · rw [hear, serve, raises]
          rfl
        · rw [Node.hear, Node.answer, raises]
          rfl
      · obtain ⟨o, sole⟩ := divides.sole asked
        have owns : slotOf asked.cstr ∈ (c.node o).shard.slots := (sole e).owns
        have home : (c.node o).shard.includes asked.cstr.toR = .ok true :=
          (includes_asked c asked o).trans (congrArg Except.ok (decide_eq_true (sole e).owns))
        have proper := divides.proper o
        have same := divides.home o asked.cstr owns
        have alike := divides.told_at_owner (sole e) isRefused carries uncutArgs fuel
        have atHome := exec_atHome c home (forward 0) cmd args
        refine Or.inr ⟨asked.cstr, args, o, rfl, asked.bare, owns, ?_⟩
        rw [hear]
        dsimp only
        rw [alike, serve, Node.hear, Node.answer]
        dsimp only
        rw [script_of_not_refused isRefused]
        dsimp only
        rw [show asked.bytes = asked.cstr.toR from rfl, atHome]
        cases effect : cmd.effect collides (n.content asked.cstr) args with
        | none =>
            have crash := proper.hasEffect home cmd args
            have crash' := divides.one.hasEffect (divides.includes asked.cstr) cmd args
            rw [same, effect] at crash
            rw [effect] at crash'
            rw [crash.none_right, crash'.none_right]
            exact .none
        | some out =>
            obtain ⟨reply, a⟩ := out
            obtain ⟨n', ran', left', proper'⟩ :=
              divides.one.run_of_effect (divides.includes asked.cstr) effect
            rw [← same] at effect
            obtain ⟨t, ran, left, properLeft⟩ := proper.run_of_effect home effect
            rw [ran, ran']
            refine .some ⟨reply, a, t, rfl, ?_, rfl, left, properLeft, left', proper'⟩
            have fails : ∀ e, reply = .error e → e.QueryFails := by
              intro raise same
              obtain rfl := same
              exact KeyEffect.fails_effect cmd raise a effect
            show HeardAs (heard (if e = o then reply else passedBack reply)) (heard reply)
            split
            · exact Or.inl rfl
            · exact heardAs_passedBack fails

/-- Each request is heard alike in the cluster and at the single node. -/
theorem hear_simulates (fuel : Nat) :
    Simulates HeardAs (Divides (ι := ι)) (fun request => request.2.Plain)
      (hear (fuel + 1)) Node.hear := by
  intro c n request divides plain
  obtain ⟨e, r⟩ := request
  rcases divides.hear_cases e plain fuel with ⟨out, here, there⟩ | ⟨k, args, o, argv, _, owns, both⟩
  · rw [here, there]
    exact .some ⟨Or.inl rfl, divides⟩
  · obtain ⟨_, _, uncutArgs⟩ := plain _ _ argv
    have whole := @KeyEffect.uncut_effect (n.content k) collides args
      (divides.uncut k) r.cmd uncutArgs
    apply optionRel_imp both
    intro out out' executed
    obtain ⟨reply, a, t, effect, alike, after, left, proper, left', proper'⟩ := executed
    refine ⟨alike, ?_⟩
    rw [after]
    exact divides.leaves owns left proper left' proper' (whole _ _ effect).1

omit [DecidableEq ι] in
theorem divides_empty {shard : ι → KeyShard} {level : ι → Nat} {level' : Nat}
    (empty : ∀ i, c.node i = Node.empty (shard i) (level i) true)
    (untracked : ∀ i, (shard i).keys = []) (known : ∀ e i, i ∈ c.table e)
    (owner : ∀ slot ∈ allSlots, ∃ i, slot ∈ (shard i).slots ∧ ∀ j, slot ∈ (shard j).slots → j = i) :
    c.Divides (Node.empty wholeShard level' true) := by
  have slots : ∀ i, (c.node i).shard = shard i := by
    intro i
    rw [empty]
    rfl
  have nothing : ∀ i k, (c.node i).content k = none := by
    intro i k
    rw [empty]
    rfl
  constructor
  case proper =>
    intro i
    rw [empty]
    exact Node.proper_empty _ _
  case one => exact Node.proper_empty _ _
  case whole => rfl
  case known => exact known
  case owner =>
    simp only [slots]
    exact owner
  case tracked =>
    intro i key member
    rw [slots, untracked] at member
    cases member
  case home => exact fun i k _ => nothing i k
  case away => exact fun i k _ => nothing i k
  case uncut => exact fun _ => trivial

/-- In a cluster that starts empty, with every slot at one node and every node in every
table, each client hears what one node with all the slots would have told it, whatever
node each request is sent to; but it may wait for ever where that node says that the query
has failed. -/
theorem heard_of_cluster {shard : ι → KeyShard} {level : ι → Nat} (level' : Nat)
    (empty : ∀ i, c.node i = Node.empty (shard i) (level i) true)
    (untracked : ∀ i, (shard i).keys = []) (known : ∀ e i, i ∈ c.table e)
    (owner : ∀ slot ∈ allSlots, ∃ i, slot ∈ (shard i).slots ∧ ∀ j, slot ∈ (shard j).slots → j = i)
    {requests : List (ι × Request)} (plain : ∀ request ∈ requests, request.2.Plain) (fuel : Nat) :
    Option.Rel (List.Forall₂ HeardAs) ((replies (hear (fuel + 1)) c requests).map Prod.fst)
      ((replies Node.hear (Node.empty wholeShard level' true) requests).map Prod.fst) := by
  have divides : c.Divides (Node.empty wholeShard level' true) :=
    divides_empty empty untracked known owner
  exact map_fst_related ((hear_simulates fuel).replies divides plain)

theorem plain_set_a : (Request.mk .set [lit "a", lit "b"]).Plain := by
  intro key args argv
  cases argv
  exact ⟨⟨keyA, rfl⟩, ⟨by simp [Quotable, lit], by decide⟩, (by decide : XFireDB.Uncut (lit "b"))⟩

theorem plain_get_a : (Request.mk .get [lit "a"]).Plain := by
  intro key args argv
  cases argv
  exact ⟨⟨keyA, rfl⟩, trivial, trivial⟩

/-- SET at the node that owns nothing, then GET at the one that owns all. -/
theorem heard_of_cluster_set :
    Option.Rel (List.Forall₂ HeardAs)
      ((replies (hear 1) pairOfNodes
        [(false, ⟨.set, [lit "a", lit "b"]⟩), (true, ⟨.get, [lit "a"]⟩)]).map Prod.fst)
      ((replies Node.hear (Node.empty wholeShard 0 true)
        [(false, ⟨.set, [lit "a", lit "b"]⟩), (true, ⟨.get, [lit "a"]⟩)]).map Prod.fst) := by
  apply @heard_of_cluster Bool pairOfNodes _ (fun i => (pairOfNodes.node i).shard) fun _ => 0
  case empty =>
    intro i
    cases i <;> rfl
  case untracked =>
    intro i
    cases i <;> rfl
  case known =>
    intro e i
    exact (by decide : ∀ i, i ∈ [false, true]) i
  case owner =>
    intro slot member
    refine ⟨true, member, ?_⟩
    intro i owns
    cases i with
    | true => rfl
    | false => cases owns
  case plain =>
    intro request member
    rcases List.mem_cons.mp member with rfl | later
    · exact plain_set_a
    · rw [List.mem_singleton.mp later]
      exact plain_get_a

end Cluster

end XFireDB
