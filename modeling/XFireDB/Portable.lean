import XFireDB.OneStore
import XFireDB.MigrateData
import XFireDB.KeysKept

/-!
# Values that can be moved

What a value is made of was there before or came with a command: `made_effect`.  So a
value keeps to what the texts of a migration carry, `Stored.Portable`, where every
command that wrote to it could have been forwarded.
-/

namespace XFireDB

open Lib Command

/-! ## What values are made of -/

/-- The field names are `N`, and the rest of what a client can write is `D`. -/
def Stored.Made (N D : RStr → Prop) : Option Stored → Prop
  | none => True
  | some (.string s) => D s.toR
  | some (.container (.list elems)) => ∀ d ∈ elems, D d.toR
  | some (.container (.hashmap nodes _)) => ∀ node ∈ nodes, N node.key.toR ∧ D node.value.toR
  | some (.container (.set nodes _)) => ∀ node ∈ nodes, D node.key.toR

/-- The arguments that the command can write are `N` and `D`. -/
def Cmd.Gives (N D : RStr → Prop) : Cmd → List RStr → Prop
  | .set, data :: _ => D data
  | .lPush, data :: _ => D data
  | .mAdd, hkey :: data :: _ => N hkey ∧ D data
  | .lSet, _ :: data :: _ => D data
  | .sAdd, args => ∀ h ∈ args, D h
  | _, _ => True

namespace KeyEffect

variable {N D : RStr → Prop} {v : Option Stored} {c : Container} {crash : List CStr → CStr → Bool}
  {args : List RStr}

/-- What is left is made of `N` and `D`. -/
def Makes (N D : RStr → Prop) (e : KeyEffect) : Prop :=
  ∀ r a, e = some (r, a) → Stored.Made N D a.value

theorem makes_some {x : Except Raise Reply} {a : After}
    (made : Stored.Made N D a.value) : Makes N D (some (x, a)) := by
  intro x' a' same
  cases same
  exact made

theorem makes_none : Makes N D none := by
  intro r a same
  cases same

section Loops

variable {β : Type} {nodes left : Skiplist β}

theorem makes_leaves (made : Stored.Made N D (some (.container c)))
    (r : Reply) : Makes N D (leaves c r) := by
  unfold leaves
  split
  · exact makes_some made
  · exact makes_some trivial

theorem makes_answered (made : Stored.Made N D v)
    (x : Option (Except Raise (List RStr))) : Makes N D (answered v x) := by
  unfold answered
  split
  · exact makes_none
  · exact makes_some made
  · exact makes_some made

theorem makes_removed {of : Skiplist β → Container}
    (made : ∀ left : Skiplist β, (∀ node ∈ left, node ∈ nodes) →
      Stored.Made N D (some (.container (of left)))) :
    Makes N D (removed of (removeAll crash nodes 0 args)) := by
  cases ran : removeAll crash nodes 0 args with
  | none => exact makes_none
  | some out =>
      obtain ⟨result, left⟩ := out
      have kept := made left (mem_of_removeAll ran)
      cases result with
      | ok rv => exact makes_leaves kept _
      | error e => exact makes_some kept

theorem mem_of_addAll {nodes left : Skiplist Unit} {rv : Nat} {r : Except Raise Nat}
    (ran : addAll crash nodes rv args = some (r, left)) :
    ∀ node ∈ left, node ∈ nodes ∨ node.key.toR ∈ args := by
  induction args generalizing nodes rv with
  | nil =>
      cases ran
      exact fun _ member => Or.inl member
  | cons h rest ih =>
      intro node member
      rw [addAll] at ran
      split at ran
      · cases ran
        exact Or.inl member
      · rename_i k known
        split at ran
        · cases ran
        · split at ran
          · exact (ih ran node member).imp_right (List.mem_cons_of_mem h)
          · rcases ih ran node member with new | later
            · rcases mem_of_mem_insertWith new with rfl | old
              · rw [toR_of_stringValueCStr known]
                exact Or.inr List.mem_cons_self
              · exact Or.inl old
            · exact Or.inr (List.mem_cons_of_mem h later)

theorem mem_of_popRange {elems : List CStr} (pos : Int) (count : Nat) :
    ∀ d ∈ (popRange elems pos count).2, d ∈ elems := by
  induction count generalizing elems with
  | zero => exact fun _ member => member
  | succ count ih =>
      rw [popRange]
      split
      · exact ih
      · exact fun d member => List.mem_of_mem_eraseIdx (ih d member)

end Loops

section Commands

variable (made : Stored.Made N D v)

include made

theorem made_asList {elems : List CStr} (found : Stored.asList v = some elems) :
    ∀ d ∈ elems, D d.toR := by
  obtain rfl := Stored.asList_eq_some.mp found
  exact made

theorem made_asMap {nodes : Skiplist CStr} (found : Stored.asMap v = some nodes) :
    ∀ node ∈ nodes, N node.key.toR ∧ D node.value.toR := by
  obtain ⟨num, rfl⟩ := Stored.asMap_eq_some.mp found
  exact made

theorem made_asSet {nodes : Skiplist Unit} (found : Stored.asSet v = some nodes) :
    ∀ node ∈ nodes, D node.key.toR := by
  obtain ⟨num, rfl⟩ := Stored.asSet_eq_some.mp found
  exact made

theorem makes_mAdd (gives : Cmd.Gives N D .mAdd args) : Makes N D (mAdd crash v args) := by
  have each : ∀ node ∈ (Stored.asMap v).getD [], N node.key.toR ∧ D node.value.toR := by
    cases found : Stored.asMap v with
    | none => exact fun node member => absurd member List.not_mem_nil
    | some nodes => exact made_asMap made found
  unfold mAdd
  split
  · rename_i hkey data _
    dsimp only
    split
    · exact makes_some each
    · exact makes_some each
    · rename_i h d known known'
      split
      · exact makes_none
      · apply makes_some
        intro node member
        rw [← toR_of_stringValueCStr known, ← toR_of_stringValueCStr known'] at gives
        rw [putMap] at member
        split at member
        · obtain ⟨before, isBefore, rfl⟩ := List.mem_map.mp member
          obtain ⟨name, data⟩ := each before isBefore
          split
          · exact ⟨name, gives.2⟩
          · exact ⟨name, data⟩
        · rcases mem_of_mem_insertWith member with rfl | old
          · exact gives
          · exact each node old
  · exact makes_some made

theorem makes_sAdd (gives : Cmd.Gives N D .sAdd args) : Makes N D (sAdd crash v args) := by
  have each : ∀ node ∈ (Stored.asSet v).getD [], D node.key.toR := by
    cases found : Stored.asSet v with
    | none => exact fun node member => absurd member List.not_mem_nil
    | some nodes => exact made_asSet made found
  unfold sAdd
  split
  · rename_i hkey rest
    cases ran : addAll crash ((Stored.asSet v).getD []) 0 (hkey :: rest) with
    | none => exact makes_none
    | some out =>
        obtain ⟨result, left⟩ := out
        have whole : ∀ node ∈ left, D node.key.toR := by
          intro node member
          rcases mem_of_addAll ran node member with old | new
          · exact each node old
          · exact gives _ new
        cases result with
        | ok rv => exact makes_some whole
        | error e => exact makes_some whole
  · exact makes_some made

theorem makes_lPush (gives : Cmd.Gives N D .lPush args) : Makes N D (lPush v args) := by
  have each : ∀ d ∈ (Stored.asList v).getD [], D d.toR := by
    cases found : Stored.asList v with
    | none => exact fun d member => absurd member List.not_mem_nil
    | some elems => exact made_asList made found
  unfold lPush
  split
  · rename_i data _
    dsimp only
    split
    · exact makes_some each
    · rename_i d known
      apply makes_some
      intro d' member
      rcases List.mem_append.mp member with old | new
      · exact each d' old
      · rw [List.mem_singleton.mp new, toR_of_stringValueCStr known]
        exact gives
  · exact makes_some made

theorem makes_lSet (gives : Cmd.Gives N D .lSet args) : Makes N D (lSet v args) := by
  unfold lSet
  split
  · split
    · split
      · rename_i elems found
        have each := made_asList made found
        split
        · exact makes_some made
        · split
          · exact makes_some each
          · split
            · exact makes_some made
            · rename_i d known
              apply makes_some
              intro d' member
              rcases List.mem_or_eq_of_mem_set member with old | rfl
              · exact each d' old
              · rw [toR_of_stringValueCStr known]
                exact gives
      · exact makes_some made
    · exact makes_some made
  · exact makes_some made

theorem makes_lPop (args : List RStr) : Makes N D (lPop v args) := by
  unfold lPop
  split
  · split
    · unfold lPopIndex
      split
      · rename_i elems found
        split
        · exact makes_some made
        · split
          · exact makes_some made
          · apply makes_leaves
            intro d member
            exact made_asList made found d (List.mem_of_mem_eraseIdx member)
      · exact makes_some made
    · split
      · exact makes_some made
      · exact makes_some made
      · unfold lPopRange
        split
        · rename_i elems found
          dsimp only
          split
          · split
            · exact makes_some made
            · apply makes_leaves
              intro d member
              exact made_asList made found d (mem_of_popRange _ _ d member)
          · exact makes_some made
        · exact makes_some made
  · exact makes_some made

theorem makes_lRef (args : List RStr) : Makes N D (lRef v args) := by
  unfold lRef
  split
  · split
    · unfold lRefIndex
      repeat' split
      all_goals exact makes_some made
    · split
      · exact makes_some made
      · exact makes_some made
      · unfold lRefRange
        split
        · dsimp only
          repeat' split
          all_goals exact makes_some made
        · exact makes_some made
  · exact makes_some made

theorem makes_set (gives : Cmd.Gives N D .set args) : Makes N D (set v args) := by
  unfold set
  split
  · split
    · exact makes_some trivial
    · rename_i d known
      apply makes_some
      rw [← toR_of_stringValueCStr known] at gives
      exact gives
  · exact makes_some made

/-- What a value is made of was there before or came with the command. -/
theorem makes_effect (cmd : Cmd) (gives : cmd.Gives N D args) :
    Makes N D (cmd.effect crash v args) := by
  cases cmd with
  | mAdd => exact makes_mAdd made gives
  | sAdd => exact makes_sAdd made gives
  | lPush => exact makes_lPush made gives
  | lSet => exact makes_lSet made gives
  | set => exact makes_set made gives
  | lPop => exact makes_lPop made args
  | lRef => exact makes_lRef made args
  | delete => exact makes_some trivial
  | mDel =>
      dsimp only [Cmd.effect, mDel]
      split
      · rename_i nodes found
        apply makes_removed
        intro left inside node member
        exact made_asMap made found node (inside node member)
      · exact makes_some made
  | sDel =>
      dsimp only [Cmd.effect]
      unfold sDel
      split
      · split
        · rename_i nodes found
          apply makes_removed
          intro left inside node member
          exact made_asSet made found node (inside node member)
        · exact makes_some made
      · exact makes_some made
  | mRef =>
      dsimp only [Cmd.effect, mRef]
      split
      · exact makes_answered made _
      · exact makes_some made
  | sInclude =>
      dsimp only [Cmd.effect]
      unfold sInclude
      split
      · split
        · exact makes_answered made _
        · exact makes_some made
      · exact makes_some made
  | get =>
      dsimp only [Cmd.effect, get]
      split
      · exact makes_some made
      · exact makes_some made
      · exact makes_some made
  | mSize =>
      dsimp only [Cmd.effect, mSize]
      split
      · exact makes_some made
      · exact makes_some made
  | lSize =>
      dsimp only [Cmd.effect, lSize]
      split
      · exact makes_some made
      · exact makes_some made
  | _ =>
      -- LCLEAR, MCLEAR and SCLEAR
      dsimp only [Cmd.effect, clear]
      split
      · split
        · exact makes_some trivial
        · exact makes_some made
      · exact makes_some made

end Commands

end KeyEffect

/-! ## Texts that carry a value -/

/-- Field names that are words, and data that can be enclosed in quotes. -/
abbrev Stored.Portable : Option Stored → Prop := Stored.Made Bare Encloses

/-- What a query text carries can be moved later. -/
theorem Cmd.Carries.gives {cmd : Cmd} {args : List RStr} (carries : cmd.Carries args) :
    cmd.Gives Bare Encloses args := by
  cases cmd with
  | set => cases args <;> exact carries
  | lPush => cases args <;> exact carries
  | sAdd => exact carries
  | mAdd =>
      rcases args with _ | ⟨hkey, _ | ⟨data, rest⟩⟩
      · trivial
      · trivial
      · exact carries
  | lSet =>
      rcases args with _ | ⟨idx, _ | ⟨data, rest⟩⟩
      · trivial
      · trivial
      · exact carries.2
  | _ => trivial

/-- A text with one quoted argument. -/
theorem parse_quoted {name key d : RStr} (plain : PlainWord name) (oneLine : 10 ∉ name)
    (bare : Bare key) (encloses : Encloses d) :
    parseXql (wireLine (name ++ lit " " ++ key ++ lit " " ++ quote d)) =
      some ⟨upcase name, [key, d]⟩ := by
  have shape : name ++ lit " " ++ key ++ lit " " ++ quote d =
      name ++ 32 :: (key ++ 32 :: quote d) := by
    simp [lit]
  rw [shape]
  exact (Tail.one encloses.isArgument).parse plain oneLine bare

/-- A portable value is read at the destination as it was meant. -/
theorem carried_of_portable {key : RStr} {v : Stored} (bare : Bare key)
    (portable : Stored.Portable (some v)) (whole : ∀ c, v = .container c → c.Whole) :
    Carried key v := by
  cases v with
  | string s =>
      exact @parse_quoted (lit "SET") key s.toR (by decide +kernel)
        (by decide) bare portable
  | container c =>
      refine ⟨?_, whole c rfl⟩
      cases c with
      | list elems =>
          simp only [Deployment.texts, meant, List.map_map]
          apply List.map_congr_left
          intro d member
          exact @parse_quoted (lit "LPUSH") key d.toR (by decide +kernel) (by decide) bare
            (portable d member)
      | set nodes num =>
          simp only [Deployment.texts, meant, List.map_map]
          apply List.map_congr_left
          intro node member
          exact @parse_quoted (lit "SADD") key node.key.toR (by decide +kernel) (by decide) bare
            (portable node member)
      | hashmap nodes num =>
          simp only [Deployment.texts, meant, List.map_map]
          apply List.map_congr_left
          intro node member
          obtain ⟨name, data⟩ := portable node member
          have tail := Tail.two name.isArgument data.isArgument
          have shape : lit "MADD " ++ key ++ lit " " ++ node.key.toR ++ lit " " ++
            quote node.value.toR =
              lit "MADD" ++ 32 :: (key ++ (32 :: node.key.toR ++ 32 :: quote node.value.toR)) := by
            simp [lit]
          show parseXql (wireLine (lit "MADD " ++ key ++ lit " " ++ node.key.toR ++ lit " " ++
            quote node.value.toR)) = some ⟨lit "MADD", [key, node.key.toR, node.value.toR]⟩
          rw [shape]
          exact tail.parse (by decide +kernel) (by decide) bare

/-! ## Nodes that are fed and that shed -/

namespace Node

variable {n t : Node}

/-- A proper node with its keys in order. -/
structure Settled (n : Node) : Prop where
  proper : n.Proper
  kept : n.Kept

theorem Settled.inOrder (settled : n.Settled) : n.InOrder := ⟨settled.proper.toExact, settled.kept⟩

/-- A command without a NUL in its arguments leaves a settled node. -/
theorem Settled.leaves (settled : n.Settled) {k : CStr} {cmd : Cmd} {args : List RStr}
    (nulFree : ∀ a ∈ args, 0 ∉ a) {r : Except Raise Reply} {a : After}
    (effect : cmd.effect collides (n.content k) args = some (r, a)) (leaves : n.Leaves k t a)
    (proper : t.Proper) : t.Settled := by
  have exact := KeyEffect.exact_effect (settled.proper.stored k) cmd args r a effect
  have fits := KeyEffect.fits_effect (settled.kept.full k) cmd
    (tidy_of_nulFree _ nulFree cmd) r a effect
  exact ⟨proper, (settled.inOrder.leaves leaves exact fits).kept⟩

theorem Fed.settled (fed : n.Fed t) (settled : n.Settled) :
    t.Settled ∧ t.shard.slots = n.shard.slots := by
  obtain ⟨cmd, k, args, r, isLocal, ran⟩ := fed
  obtain ⟨a, effect, leaves, proper⟩ := settled.proper.effect_of_run isLocal ran
  refine ⟨settled.leaves ?_ effect leaves proper, leaves.slots⟩
  intro arg member
  obtain ⟨d, _, rfl⟩ := List.mem_map.mp member
  exact d.nulFree

theorem Shed.ordered (shed : n.Shed t) (ordered : n.Ordered) : t.Ordered ∧ t.shard = n.shard := by
  obtain ⟨k, deleted⟩ := shed
  have same := rbDbDelete_shard n k.toR
  rw [deleted] at same
  have handled : Node.callWith collides n (.dbDelete k.toR) = some (.ok (), t) :=
    congrArg some deleted
  exact ⟨ordered.call handled, same⟩

end Node

end XFireDB
