import XFireDB.Portable
import XFireDB.Handover

/-!
# A cluster is one store while its slots move

Between two requests a node may hand slots, with the keys in them, to another one.  Every
such run of `LocalNode#migrate` ends well, and the clients hear what a single node that
owns every slot would have replied: `heard_of_moving`.  After any such history each key
is at the one node that owns its slot: `atHome_of_moving`.
-/

namespace XFireDB

open Lib Slots Relation

/-! ## Lists grow by one -/

/-- How many entries a list has. -/
def Stored.entries (v : Option Stored) : Nat := ((asList v).getD []).length

namespace KeyEffect

open Stored

/-- A list has at most one entry more than `v`. -/
def Grows (v : Option Stored) (e : KeyEffect) : Prop :=
  ∀ r a, e = some (r, a) → entries a.value ≤ entries v + 1

variable {v : Option Stored} {r : Reply} {crash : List CStr → CStr → Bool} {args : List RStr}

theorem grows_none : Grows v none := nofun

theorem grows_some {x : Except Raise Reply} {a : After} (least : entries a.value ≤ entries v + 1) :
    Grows v (some (x, a)) := by
  intro x' a' same
  cases same
  exact least

theorem grows_same (x : Except Raise Reply) (tracks : Option Bool) :
    Grows v (some (x, ⟨v, tracks⟩)) :=
  grows_some (Nat.le_succ _)

theorem grows_no_list {x : Except Raise Reply} {a : After} (noList : asList a.value = none) :
    Grows v (some (x, a)) := by
  apply grows_some
  rw [entries, noList]
  exact Nat.zero_le _

theorem grows_leaves {c : Container} (least : entries (some (.container c)) ≤ entries v + 1) :
    Grows v (leaves c r) := by
  unfold leaves
  split
  · exact grows_some least
  · exact grows_no_list rfl

theorem grows_stores_list {elems : List CStr} (least : elems.length ≤ entries v + 1) :
    Grows v (stores (.list elems) r) := grows_some least

theorem entries_of_asList {elems : List CStr} (found : asList v = some elems) :
    entries v = elems.length := by
  rw [entries, found, Option.getD_some]

theorem length_popRange (elems : List CStr) (pos : Int) (count : Nat) :
    (popRange elems pos count).2.length ≤ elems.length := by
  induction count generalizing elems with
  | zero => exact le_rfl
  | succ count ih =>
      rw [popRange]
      split
      · exact ih elems
      · exact (ih _).trans (List.length_eraseIdx_le ..)

theorem grows_answered (x : Option (Except Raise (List RStr))) : Grows v (answered v x) := by
  unfold answered
  split
  · exact grows_none
  · exact grows_same _ _
  · exact grows_same _ _

theorem grows_removed {β : Type} {of : Skiplist β → Container}
    (noList : ∀ left, asList (some (.container (of left))) = none)
    (x : Option (Except Raise Nat × Skiplist β)) : Grows v (removed of x) := by
  unfold removed
  split
  · exact grows_none
  · refine grows_leaves ?_
    rw [entries, noList]
    exact Nat.zero_le _
  · exact grows_no_list (noList _)

theorem grows_added (x : Option (Except Raise Nat × Skiplist Unit)) : Grows v (added x) := by
  unfold added
  split
  · exact grows_none
  · exact grows_no_list rfl
  · exact grows_no_list rfl

theorem grows_lPush : Grows v (lPush v args) := by
  unfold lPush
  split
  · dsimp only
    split
    · exact grows_some (Nat.le_succ _)
    · exact grows_stores_list (by rw [List.length_append, entries]; exact le_rfl)
  · exact grows_same _ _

theorem grows_lSet : Grows v (lSet v args) := by
  unfold lSet
  split
  · split
    · split
      · rename_i elems found
        have size := entries_of_asList found
        split
        · exact grows_same _ _
        · split
          · exact grows_stores_list (by omega)
          · split
            · exact grows_same _ _
            · exact grows_stores_list (by rw [List.length_set]; omega)
      · exact grows_same _ _
    · exact grows_same _ _
  · exact grows_same _ _

theorem grows_lPopIndex (i : Int) : Grows v (lPopIndex v i) := by
  unfold lPopIndex
  split
  · rename_i elems found
    have size := entries_of_asList found
    split
    · exact grows_same _ _
    · split
      · exact grows_same _ _
      · rename_i pos data _
        have shorter := List.length_eraseIdx_le elems pos
        apply grows_leaves
        show (elems.eraseIdx pos).length ≤ _
        omega
  · exact grows_same _ _

theorem grows_lPopRange (idx : RStr) (low high : Int) : Grows v (lPopRange v idx low high) := by
  unfold lPopRange
  split
  · rename_i elems found
    have size := entries_of_asList found
    dsimp only
    split
    · split
      · exact grows_same _ _
      · have shorter := length_popRange elems (counted elems low)
          (counted elems high - counted elems low + 1).toNat
        apply grows_leaves
        show (popRange elems _ _).2.length ≤ _
        omega
    · exact grows_same _ _
  · exact grows_same _ _

/-- A command appends at most one entry. -/
theorem grows_effect (cmd : Cmd) : Grows v (cmd.effect crash v args) := by
  cases cmd with
  | mRef =>
      dsimp only [Cmd.effect, mRef]
      split
      · exact grows_answered _
      · exact grows_same _ _
  | sInclude =>
      dsimp only [Cmd.effect]
      unfold sInclude
      split
      · split
        · exact grows_answered _
        · exact grows_same _ _
      · exact grows_same _ _
  | mDel =>
      dsimp only [Cmd.effect, mDel]
      split
      · exact grows_removed (fun _ => rfl) _
      · exact grows_same _ _
  | sDel =>
      dsimp only [Cmd.effect]
      unfold sDel
      split
      · split
        · exact grows_removed (fun _ => rfl) _
        · exact grows_same _ _
      · exact grows_same _ _
  | sAdd =>
      dsimp only [Cmd.effect]
      unfold sAdd
      split
      · exact grows_added _
      · exact grows_same _ _
  | lPush => exact grows_lPush
  | lSet => exact grows_lSet
  | lPop =>
      dsimp only [Cmd.effect]
      unfold lPop
      split
      · split
        · exact grows_lPopIndex _
        · split
          · exact grows_same _ _
          · exact grows_same _ _
          · exact grows_lPopRange _ _ _
      · exact grows_same _ _
  | _ =>
      -- nothing is appended to a list
      simp only [Cmd.effect, get, set, clear, mAdd, mSize, lSize, lRef, lRefIndex, lRefRange]
      (repeat' split) <;> first
        | exact grows_same _ _
        | exact grows_none
        | exact grows_no_list rfl

end KeyEffect

/-! ## Nodes between the steps -/

namespace Node

variable {n t : Node}

/-- No list is too long for its counter, even after `left` more commands. -/
def Short (left : Nat) (n : Node) : Prop := ∀ k, Stored.entries (n.content k) + left < 2 ^ 31

theorem Short.mono {left less : Nat} (short : n.Short left) (fewer : less ≤ left) : n.Short less :=
  fun k => lt_of_le_of_lt (Nat.add_le_add_left fewer _) (short k)

theorem Short.leaves {left : Nat} (short : n.Short (left + 1)) {cmd : Cmd}
    {args : List RStr} {k : CStr} {r : Except Raise Reply} {a : After}
    (effect : cmd.effect collides (n.content k) args = some (r, a))
    (leaves : n.Leaves k t a) : t.Short left := by
  intro k'
  have before := short k'
  rcases eq_or_ne k' k with rfl | other
  · have grown := KeyEffect.grows_effect cmd r a effect
    rw [leaves.here]
    omega
  · rw [leaves.frame other]
    omega

theorem kept_of_tracked (wf : n.Wf) (texts : ∀ key ∈ n.shard.keys, ∃ k : CStr, key = k.toR)
    (tracked : ∀ k : CStr, k.toR ∈ n.shard.keys ↔ n.content k ≠ none)
    (full : ∀ k, Stored.Full (n.content k)) : n.Kept where
  keys := by
    intro key
    constructor
    · intro member
      obtain ⟨k, rfl⟩ := texts key member
      exact ⟨k, rfl, fun nothing => (tracked k).mp member ((wf.db_eq_none k).mp nothing)⟩
    · intro held
      obtain ⟨k, rfl, held⟩ := held
      exact (tracked k).mpr fun nothing => held ((wf.db_eq_none k).mpr nothing)
  full := full

/-- Only the slots are others. -/
theorem Settled.with_shard (settled : n.Settled) {shard : KeyShard}
    (keys : shard.keys = n.shard.keys) :
    Settled { n with shard } where
  proper := ⟨⟨⟨settled.proper.wf.held, settled.proper.wf.allocated⟩, settled.proper.stored⟩,
    settled.proper.ordered⟩
  kept := by
    refine ⟨?_, settled.kept.full⟩
    intro key
    show key ∈ shard.keys ↔ _
    rw [keys]
    exact settled.kept.keys key

/-- A settled node is settled after it was fed, and has its slots. -/
theorem settled_of_fed (fed : ReflTransGen Fed n t) (settled : n.Settled) :
    t.Settled ∧ t.shard.slots = n.shard.slots := by
  induction fed with
  | refl => exact ⟨settled, rfl⟩
  | tail _ step ih =>
      obtain ⟨settled', slots⟩ := step.settled ih.1
      exact ⟨settled', slots.trans ih.2⟩

theorem ordered_of_shed (shed : ReflTransGen Shed n t) (ordered : n.Ordered) :
    t.Ordered ∧ t.shard = n.shard := by
  induction shed with
  | refl => exact ⟨ordered, rfl⟩
  | tail _ step ih =>
      obtain ⟨ordered', shard⟩ := step.ordered ih.1
      exact ⟨ordered', shard.trans ih.2⟩

/-- A container of a settled node can be rebuilt element by element. -/
theorem Settled.whole (settled : n.Settled) {k : CStr} {c : Container}
    (short : Stored.entries (n.content k) < 2 ^ 31) (held : n.content k = some (.container c)) :
    c.Whole := by
  have full := settled.kept.full k c held
  have exact := settled.proper.stored k c held
  have ordered : c.Ordered := by
    rcases settled.proper.wf.content_cases k with ⟨_, nothing⟩ | ⟨s, _, string⟩ | ⟨id, o, holds⟩
    · rw [nothing] at held
      cases held
    · rw [string] at held
      cases held
    · rw [holds.content] at held
      cases held
      exact settled.proper.ordered id o holds.obj
  cases c with
  | list elems =>
      rw [held] at short
      exact ⟨full, short⟩
  | hashmap nodes num => exact ⟨⟨ordered.sorted, ordered.below, exact.2⟩, full⟩
  | set nodes num => exact ⟨⟨ordered.sorted, ordered.below, exact.2⟩, full⟩

/-- Some number of rounds is enough for every container of the node. -/
theorem Kept.exists_rounds (kept : n.Kept) (wf : n.Wf) :
    ∃ bound, ∀ k c, n.content k = some (.container c) → c.size < bound := by
  obtain ⟨ks, same⟩ : n.shard.keys ∈ Set.range (List.map CStr.toR) := by
    rw [Set.range_list_map]
    intro key member
    obtain ⟨k, rfl, _⟩ := (kept.keys key).mp member
    exact ⟨k, rfl⟩
  obtain ⟨bound, enough⟩ := Deployment.exists_rounds n ks
  refine ⟨bound, fun k c held => enough k ?_ c held⟩
  have member : k.toR ∈ n.shard.keys := (kept.tracked wf k).mpr (held ▸ Option.some_ne_none _)
  rw [← same] at member
  exact (List.mem_map_of_injective CStr.toR_injective).mp member

end Node

namespace Deployment

/-! ## Events -/

/-- A request to a node, or a CLUSTER MIGRATE there. -/
inductive Event (ι : Type)
  | request (e : ι) (r : Request)
  | migrate (e : ι) (num : Int) (dst : ι)

/-- What comes of an event. -/
inductive Outcome
  | heard (reply : Option RStr)
  | migrated (result : Except Raise Bool)

/-- What comes of an event in the deployment for what comes of it at the single node. -/
inductive Outcome.As : Outcome → Outcome → Prop
  | heard {bytes single : Option RStr} (as : HeardAs bytes single) :
      Outcome.As (.heard bytes) (.heard single)
  | migrated (result : Except Raise Bool) : Outcome.As (.migrated result) (.migrated result)

/-- The request can be asked everywhere, and no argument has a NUL; a migration is to
another node. -/
def Event.Plain {ι : Type} : Event ι → Prop
  | .request _ r => r.Plain ∧ ∀ arg ∈ r.argv, 0 ∉ arg
  | .migrate e _ dst => dst ≠ e

variable {ι : Type}

/-- An event at the single node, where nothing has to move. -/
def Event.alone (n : Node) : Event ι → Option (Outcome × Node)
  | .request e r => (n.hear (e, r)).map fun out => (.heard out.1, out.2)
  | .migrate _ _ _ => some (.migrated (.ok true), n)

variable [DecidableEq ι]

def act (fuel : Nat) (d : Deployment ι) : Event ι → Option (Outcome × Deployment ι)
  | .request e r => (Cluster.hear fuel d.cluster (e, r)).map fun out =>
    (.heard out.1, { d with cluster := out.2 })
  | .migrate e num dst => (d.migrate fuel e num dst).map fun out => (.migrated out.1, out.2)

/-! ## Slots that are handed over -/

section Sent

variable {d : Deployment ι} {e dst i : ι} {num : Int} {m : Member}

/-- The destination has been given the slots. -/
abbrev sent (d : Deployment ι) (e dst : ι) (num : Int) (m : Member) : Deployment ι :=
  (d.setMember e m).setMember dst
    (((d.setMember e m).member dst).addSlots ((d.node e).shard.reshard num).2.1)

theorem sent_e (apart : dst ≠ e) :
    (d.sent e dst num m).node e = { d.node e with shard := m.shard } := by
  rw [sent, node_setMember, if_neg apart.symm, node_setMember, if_pos rfl]

theorem sent_dst (apart : dst ≠ e) :
    (d.sent e dst num m).node dst = { d.node dst with
      shard := (d.node dst).shard.addSlots ((d.node e).shard.reshard num).2.1 } := by
  rw [sent, node_setMember, if_pos rfl, node_setMember, if_neg apart]
  rw [Member.addSlots, member, node_setMember, if_neg apart]

theorem sent_other (notE : i ≠ e) (notDst : i ≠ dst) :
    (d.sent e dst num m).node i = d.node i := by
  rw [sent, node_setMember, if_neg notDst, node_setMember, if_neg notE]

end Sent

/-! ## The deployment divides what the single node holds -/

/-- The nodes divide the slots and the keys, each has its own in order, and what they
hold can be moved. -/
structure Divides (d : Deployment ι) (n : Node) : Prop where
  divides : d.cluster.Divides n
  slots : ∀ i, ∀ slot ∈ (d.node i).shard.slots, slot ∈ allSlots
  kept : ∀ i, (d.node i).Kept
  storable : ∀ i, (d.member i).Storable
  reachable : ∀ i, d.refuses i = false
  one : n.Kept
  bare : ∀ k, n.content k ≠ none → Bare k.toR
  portable : ∀ k, Stored.Portable (n.content k)

/-- The lists are so short that `left` more events may follow. -/
structure DividesFor (left : Nat) (d : Deployment ι) (n : Node) : Prop where
  divides : d.Divides n
  short : n.Short left

namespace Divides

variable {d : Deployment ι} {n : Node} {e dst : ι}

omit [DecidableEq ι] in
theorem settled (rel : d.Divides n) (i : ι) : (d.node i).Settled :=
  ⟨rel.divides.proper i, rel.kept i⟩

omit [DecidableEq ι] in
theorem owner_eq (rel : d.Divides n) {i j : ι} {slot : RStr} (here : slot ∈ (d.node i).shard.slots)
    (there : slot ∈ (d.node j).shard.slots) : i = j := by
  obtain ⟨o, _, alone⟩ := rel.divides.owner slot (rel.slots i slot here)
  exact (alone i here).trans (alone j there).symm

omit [DecidableEq ι] in
theorem owns_of_content (rel : d.Divides n) {i : ι} {k : CStr}
    (held : (d.node i).content k ≠ none) :
    slotOf k ∈ (d.node i).shard.slots := by
  by_contra away
  exact held (rel.divides.away i k away)

omit [DecidableEq ι] in
theorem home (rel : d.Divides n) {i : ι} {k : CStr} (owns : slotOf k ∈ (d.node i).shard.slots) :
    (d.node i).content k = n.content k := rel.divides.home i k owns

omit [DecidableEq ι] in
theorem away (rel : d.Divides n) {i : ι} {k : CStr}
    (elsewhere : slotOf k ∉ (d.node i).shard.slots) :
    (d.node i).content k = none := rel.divides.away i k elsewhere

omit [DecidableEq ι] in
theorem orderly (rel : d.Divides n) : d.Orderly where
  wf i := (rel.divides.proper i).wf
  slots := rel.slots
  sole _ _ _ here there := rel.owner_eq here there
  stored _ _ v held := rel.owns_of_content (held ▸ Option.some_ne_none v)
  storable := rel.storable

/-- A request is heard alike. -/
theorem request (rel : d.Divides n) {left : Nat} (short : n.Short (left + 1)) {r : Request}
    (plain : r.Plain) (nulFree : ∀ arg ∈ r.argv, 0 ∉ arg) (fuel : Nat) :
    Option.Rel (fun out out' => out.1.As out'.1 ∧ DividesFor left out.2 out'.2)
      (d.act (fuel + 1) (.request e r)) (Event.alone n (.request e r)) := by
  rcases rel.divides.hear_cases e plain fuel with
    ⟨out, here, there⟩ | ⟨k, args, o, argv, bare, owns, both⟩
  · rw [act, Event.alone, here, there]
    exact .some ⟨.heard (Or.inl rfl), rel, short.mono (Nat.le_succ left)⟩
  · obtain ⟨_, carries, uncutArgs⟩ := plain _ _ argv
    have nulFree' : ∀ arg ∈ args, 0 ∉ arg := by
      intro arg member
      rw [argv] at nulFree
      exact nulFree arg (List.mem_cons_of_mem _ member)
    have whole := @KeyEffect.uncut_effect (n.content k) collides args
      (rel.divides.uncut k) r.cmd uncutArgs
    have makes := @KeyEffect.makes_effect Bare Encloses (n.content k) collides args
      (rel.portable k) r.cmd carries.gives
    rw [act, Event.alone]
    apply optionRel_map both
    intro out out' executed
    obtain ⟨bytes, c'⟩ := out
    obtain ⟨reply, a, t, effect, alike, rfl, left, proper, left', proper'⟩ := executed
    have single : n.Settled := ⟨rel.divides.one, rel.one⟩
    have atOwner := effect
    rw [← rel.divides.home o k owns] at atOwner
    have settled := (rel.settled o).leaves nulFree' atOwner left proper
    have settled' := single.leaves nulFree' effect left' proper'
    refine ⟨.heard alike, ?_, short.leaves effect left'⟩
    constructor
    case divides => exact rel.divides.leaves owns left proper left' proper' (whole _ _ effect).1
    case slots =>
      intro i slot
      show slot ∈ (Function.update d.cluster.node o t i).shard.slots → _
      rcases eq_or_ne i o with rfl | other
      · rw [Function.update_self, left.slots]
        exact rel.slots i slot
      · rw [Function.update_of_ne other]
        exact rel.slots i slot
    case kept =>
      intro i
      show (Function.update d.cluster.node o t i).Kept
      rcases eq_or_ne i o with rfl | other
      · rw [Function.update_self]
        exact settled.kept
      · rw [Function.update_of_ne other]
        exact rel.kept i
    case storable => exact rel.storable
    case reachable => exact rel.reachable
    case one => exact settled'.kept
    case bare =>
      intro k' held
      rcases eq_or_ne k' k with rfl | other
      · exact bare
      · rw [left'.frame other] at held
        exact rel.bare k' held
    case portable =>
      intro k'
      rcases eq_or_ne k' k with rfl | other
      · rw [left'.here]
        exact makes _ _ effect
      · rw [left'.frame other]
        exact rel.portable k'

/-! ### A migration -/

section Migrate

variable {m : Member} {num : Int}

theorem sent_storable (rel : d.Divides n) (storable : m.Storable) (i : ι) :
    ((d.sent e dst num m).member i).Storable := by
  have first : ∀ j, ((d.setMember e m).member j).Storable := by
    intro j text
    show Function.update d.record e m.record j = some text → _
    rcases eq_or_ne j e with rfl | other
    · rw [Function.update_self]
      exact storable text
    · rw [Function.update_of_ne other]
      exact rel.storable j text
  have added :
      (((d.setMember e m).member dst).addSlots ((d.node e).shard.reshard num).2.1).Storable :=
    (first dst).addSlots fun slot member =>
      nulFree_of_mem_allSlots (rel.orderly.taken_slots e num slot member)
  intro text
  show Function.update (d.setMember e m).record dst _ i = some text → _
  rcases eq_or_ne i dst with rfl | other
  · rw [Function.update_self]
    exact added text
  · rw [Function.update_of_ne other]
    exact first i text

/-- The keys that go are the tracked ones in the taken slots. -/
theorem ready (rel : d.Divides n) (short : n.Short 0) (apart : dst ≠ e)
    (shard : m.shard = ((d.node e).shard.reshard num).1)
    {ks : List CStr} (mem_ks : ∀ k, k ∈ ks ↔
      k.toR ∈ (d.node e).shard.keys ∧ slotOf k ∈ ((d.node e).shard.reshard num).2.1)
    {fuel : Nat} (rounds : ∀ k c, n.content k = some (.container c) → c.size < fuel) :
    Ready (d.sent e dst num m) e dst fuel ks := by
  have handed : Handed d (d.sent e dst num m) e dst num := handed_over rel.orderly.wf num shard
  have owned : ∀ k ∈ ks, slotOf k ∈ (d.node e).shard.slots := by
    intro k member
    exact ((d.node e).shard.mem_reshard num (slotOf k)).mpr (Or.inr ((mem_ks k).mp member).2)
  have same : ∀ k ∈ ks, (d.node e).content k = n.content k := fun k member =>
    rel.home (owned k member)
  constructor
  case wf => exact handed.wf
  case isLocal =>
    intro k member
    rw [← owns_iff]
    exact (handed.owns dst k).mpr (Or.inr ⟨rfl, ((mem_ks k).mp member).2⟩)
  case carried =>
    intro k member v held
    rw [handed.content] at held ⊢
    have here := held
    rw [same k member] at here
    refine ⟨carried_of_portable (rel.bare k (here ▸ Option.some_ne_none v))
      (here ▸ rel.portable k) ?_, ?_⟩
    · intro c isContainer
      rw [isContainer] at held
      have few := short k
      rw [← same k member] at few
      exact (rel.settled e).whole few held
    · apply rel.away
      intro owns
      exact apart (rel.owner_eq owns (owned k member))
  case rounds =>
    intro k member c held
    rw [handed.content, same k member] at held
    exact rounds k c held

/-- The slots and keys of `e` that are in the taken slots are at `dst`, the others where
they were. -/
structure Arrived (d d' : Deployment ι) (e dst : ι) (taken : List RStr) (ks : List CStr) :
    Prop where
  slots : ∀ i slot, slot ∈ (d'.node i).shard.slots ↔
    (slot ∈ (d.node i).shard.slots ∧ ¬ (i = e ∧ slot ∈ taken)) ∨ (i = dst ∧ slot ∈ taken)
  mem_ks : ∀ k, k ∈ ks ↔ k.toR ∈ (d.node e).shard.keys ∧ slotOf k ∈ taken
  held : ∀ slot ∈ taken, slot ∈ (d.node e).shard.slots
  source : ∀ k, (d'.node e).content k = if k ∈ ks then none else (d.node e).content k
  target : ∀ k, (d'.node dst).content k =
    if k ∈ ks then ((d.node e).content k).or ((d.node dst).content k) else (d.node dst).content k
  others : ∀ i, i ≠ e → i ≠ dst → (d'.node i).content = (d.node i).content

section Arrived

variable {d' : Deployment ι} {taken : List RStr} {ks : List CStr}

omit [DecidableEq ι] in
/-- A slot has one owner again. -/
theorem owner_of_arrived (rel : d.Divides n) (arrived : Arrived d d' e dst taken ks) :
    ∀ slot ∈ allSlots, ∃ i, slot ∈ (d'.node i).shard.slots ∧
      ∀ j, slot ∈ (d'.node j).shard.slots → j = i := by
  intro slot known
  obtain ⟨o, owns, alone⟩ := rel.divides.owner slot known
  by_cases isTaken : slot ∈ taken
  · refine ⟨dst, (arrived.slots dst slot).mpr (Or.inr ⟨rfl, isTaken⟩), ?_⟩
    intro j owns'
    rcases (arrived.slots j slot).mp owns' with ⟨had, stays⟩ | ⟨isDst, _⟩
    · have isE : j = e := rel.owner_eq had (arrived.held slot isTaken)
      exact absurd ⟨isE, isTaken⟩ stays
    · exact isDst
  · refine ⟨o, (arrived.slots o slot).mpr (Or.inl ⟨owns, fun gone => isTaken gone.2⟩), ?_⟩
    intro j owns'
    rcases (arrived.slots j slot).mp owns' with ⟨had, _⟩ | ⟨_, was⟩
    · exact alone j had
    · exact absurd was isTaken

omit [DecidableEq ι] in
/-- What a node held and kept the slot of, it holds. -/
theorem content_of_stays (rel : d.Divides n) (apart : dst ≠ e)
    (arrived : Arrived d d' e dst taken ks)
    {i : ι} {k : CStr} (owns : slotOf k ∈ (d.node i).shard.slots)
    (stays : ¬ (i = e ∧ slotOf k ∈ taken)) :
    (d'.node i).content k = (d.node i).content k := by
  have notKs : k ∈ ks → i = e := by
    intro member
    have inTaken := ((arrived.mem_ks k).mp member).2
    exact rel.owner_eq owns (arrived.held _ inTaken)
  rcases eq_or_ne i e with rfl | notE
  · rw [arrived.source, if_neg]
    intro member
    exact stays ⟨rfl, ((arrived.mem_ks k).mp member).2⟩
  · rcases eq_or_ne i dst with rfl | notDst
    · rw [arrived.target, if_neg fun member => notE (notKs member)]
    · rw [arrived.others i notE notDst]

omit [DecidableEq ι] in
theorem home_of_arrived (rel : d.Divides n) (apart : dst ≠ e)
    (arrived : Arrived d d' e dst taken ks)
    {i : ι} {k : CStr} (owns : slotOf k ∈ (d'.node i).shard.slots) :
    (d'.node i).content k = n.content k := by
  rcases (arrived.slots i _).mp owns with ⟨had, stays⟩ | ⟨rfl, isTaken⟩
  · rw [rel.content_of_stays apart arrived had stays, rel.home had]
  · have had := arrived.held _ isTaken
    have nothing : (d.node i).content k = none :=
      rel.away fun owns' => apart (rel.owner_eq owns' had)
    rw [arrived.target, rel.home had, nothing, Option.or_none]
    split
    · rfl
    · rename_i outside
      -- what the source does not track it does not hold
      have untracked : k.toR ∉ (d.node e).shard.keys := fun member =>
        outside ((arrived.mem_ks k).mpr ⟨member, isTaken⟩)
      rw [(rel.kept e).tracked (rel.divides.proper e).wf, not_not, rel.home had] at untracked
      exact untracked.symm

omit [DecidableEq ι] in
theorem away_of_arrived (rel : d.Divides n) (arrived : Arrived d d' e dst taken ks)
    {i : ι} {k : CStr} (away : slotOf k ∉ (d'.node i).shard.slots) :
    (d'.node i).content k = none := by
  rw [arrived.slots, not_or, not_and_not_right] at away
  obtain ⟨gone, notHere⟩ := away
  rcases eq_or_ne i e with rfl | notE
  · rw [arrived.source]
    split
    · rfl
    · rename_i outside
      by_contra held
      have isTaken := (gone (rel.owns_of_content held)).2
      have member := ((rel.kept i).tracked (rel.divides.proper i).wf k).mpr held
      exact outside ((arrived.mem_ks k).mpr ⟨member, isTaken⟩)
  · have nothing : (d.node i).content k = none := rel.away fun owns => notE (gone owns).1
    rcases eq_or_ne i dst with rfl | notDst
    · rw [arrived.target, if_neg fun member =>
        notHere ⟨rfl, ((arrived.mem_ks k).mp member).2⟩, nothing]
    · rw [arrived.others i notE notDst, nothing]

omit [DecidableEq ι] in
/-- The deployment divides the same as before. -/
theorem of_arrived (rel : d.Divides n) (apart : dst ≠ e) (arrived : Arrived d d' e dst taken ks)
    (settled : ∀ i, (d'.node i).Settled) (storable : ∀ i, (d'.member i).Storable)
    (table : d'.cluster.table = d.cluster.table) (refuses : d'.refuses = d.refuses) :
    d'.Divides n := by
  constructor
  case divides =>
    constructor
    case proper => exact fun i => (settled i).proper
    case one => exact rel.divides.one
    case whole => exact rel.divides.whole
    case known =>
      rw [table]
      exact rel.divides.known
    case owner => exact rel.owner_of_arrived arrived
    case tracked =>
      intro i key member
      obtain ⟨k, rfl, held⟩ := ((settled i).kept.keys key).mp member
      have here : slotOf k ∈ (d'.node i).shard.slots := by
        by_contra away
        exact held (((settled i).proper.wf.db_eq_none k).mpr (rel.away_of_arrived arrived away))
      exact owns_iff.mp here
    case home => exact fun i k owns => rel.home_of_arrived apart arrived owns
    case away => exact fun i k away => rel.away_of_arrived arrived away
    case uncut => exact rel.divides.uncut
  case slots =>
    intro i slot member
    rcases (arrived.slots i slot).mp member with ⟨had, _⟩ | ⟨_, isTaken⟩
    · exact rel.slots i slot had
    · exact rel.slots e slot (arrived.held slot isTaken)
  case kept => exact fun i => (settled i).kept
  case storable => exact storable
  case reachable =>
    rw [refuses]
    exact rel.reachable
  case one => exact rel.one
  case bare => exact rel.bare
  case portable => exact rel.portable

end Arrived

omit [DecidableEq ι] in
/-- The source keeps the keys outside the taken slots. -/
theorem settled_source (rel : d.Divides n) (shard : m.shard = ((d.node e).shard.reshard num).1)
    {ks : List CStr} (mem_ks : ∀ k, k ∈ ks ↔
      k.toR ∈ (d.node e).shard.keys ∧ slotOf k ∈ ((d.node e).shard.reshard num).2.1) {n' : Node}
    (wf : n'.Wf) (ordered : n'.Ordered) (sameShard : n'.shard = m.shard)
    (content : ∀ k, n'.content k = if k ∈ ks then none else (d.node e).content k) : n'.Settled := by
  have before := rel.settled e
  have held : ∀ k, n'.content k ≠ none → n'.content k = (d.node e).content k := by
    intro k some
    rw [content] at some ⊢
    split at some
    · exact absurd rfl some
    · rename_i outside
      rw [if_neg outside]
  have cases : ∀ {P : Option Stored → Prop} (k : CStr), P none → P ((d.node e).content k) →
    P (n'.content k) := by
    intro P k none here
    rcases eq_or_ne (n'.content k) Option.none with nothing | some
    · rwa [nothing]
    · rwa [held k some]
  refine ⟨⟨⟨wf, fun k => cases k (fun c same => by cases same) (before.proper.stored k)⟩,
    ordered⟩, ?_⟩
  apply Node.kept_of_tracked wf
  · intro key member
    rw [sameShard, shard, KeyShard.mem_reshard_keys] at member
    obtain ⟨k, rfl, _⟩ := (before.kept.keys key).mp member.1
    exact ⟨k, rfl⟩
  · intro k
    have inSlots : KeyShard.InSlots ((d.node e).shard.reshard num).2.1 k.toR ↔
        slotOf k ∈ ((d.node e).shard.reshard num).2.1 := by
      rw [← KeyShard.inSlots_iff, KeyShard.inSlots, keyToSlot_toR, decide_eq_true_iff]
    rw [sameShard, shard, KeyShard.mem_reshard_keys, inSlots, content]
    split
    · rename_i member
      exact iff_of_false (fun stays => stays.2 ((mem_ks k).mp member).2) fun some => some rfl
    · rename_i outside
      rw [← before.kept.tracked before.proper.wf]
      exact and_iff_left_of_imp fun member isTaken => outside ((mem_ks k).mpr ⟨member, isTaken⟩)
  · exact fun k => cases k (fun c same => by cases same) (before.kept.full k)

/-- A migration to another node ends well, and nothing but the slots and the place of
their keys has changed. -/
theorem migrate (rel : d.Divides n) (short : n.Short 0) (apart : dst ≠ e) (num : Int) {fuel : Nat}
    (rounds : ∀ k c, n.content k = some (.container c) → c.size < fuel) :
    ∃ d', d.migrate fuel e num dst = some (.ok true, d') ∧ d'.Divides n ∧
      ∀ i, (d'.node i).shard.slots =
        (MigrateQuery.exec (fun i => (d.node i).shard) ⟨e, num, dst⟩ i).slots := by
  obtain ⟨m, shard, storable, run⟩ :=
    rel.orderly.migrate_stored (rel.divides.known e dst) (rel.reachable dst) num
  obtain ⟨ks, keys, nodup, mem_ks⟩ := exists_takenKeys (d.node e).shard num
  obtain ⟨t, n', ran, moved, fed, shed⟩ :=
    (rel.ready short apart shard mem_ks rounds).copyKeys_nodes apart nodup
  have handed : Handed d (d.sent e dst num m) e dst num := handed_over rel.orderly.wf num shard
  refine ⟨((d.sent e dst num m).setNode dst t).setNode e n', ?_, ?_, ?_⟩
  · rw [run fuel, ← keys]
    exact ran
  rotate_left
  · intro i
    rw [moved.slots, MigrateQuery.exec, ← shard, ← shards_setMember]
    exact congrArg KeyShard.slots (congrFun (shards_setMember (d.setMember e m) dst _) i)
  have atDst : (((d.sent e dst num m).setNode dst t).setNode e n').node dst = t := by
    rw [node_setNode, if_neg apart, node_setNode, if_pos rfl]
  have atE : (((d.sent e dst num m).setNode dst t).setNode e n').node e = n' := by
    rw [node_setNode, if_pos rfl]
  have elsewhere : ∀ i, i ≠ e → i ≠ dst →
      (((d.sent e dst num m).setNode dst t).setNode e n').node i = d.node i := by
    intro i notE notDst
    rw [node_setNode, if_neg notE, node_setNode, if_neg notDst, sent_other notE notDst]
  -- the destination
  have target := rel.settled dst
  rw [sent_dst apart] at fed
  obtain ⟨settledDst, _⟩ := Node.settled_of_fed fed (target.with_shard rfl)
  -- the source
  rw [sent_e apart] at shed
  obtain ⟨ordered, sameShard⟩ := Node.ordered_of_shed shed (rel.settled e).proper.ordered
  have source : ∀ k, n'.content k = if k ∈ ks then none else (d.node e).content k := by
    intro k
    rw [← atE, moved.source, handed.content]
  have settledE : n'.Settled :=
    rel.settled_source shard mem_ks (atE ▸ moved.wf e) ordered sameShard source
  have arrived : Arrived d (((d.sent e dst num m).setNode dst t).setNode e n') e dst
      ((d.node e).shard.reshard num).2.1 ks := by
    constructor
    case slots =>
      intro i slot
      rw [moved.slots]
      exact mem_slots_handed num shard i slot
    case mem_ks => exact mem_ks
    case held => exact fun slot isTaken =>
      ((d.node e).shard.mem_reshard num slot).mpr (Or.inr isTaken)
    case source =>
      intro k
      rw [moved.source, handed.content]
    case target =>
      intro k
      rw [moved.target, handed.content, handed.content]
    case others =>
      intro i notE notDst
      rw [elsewhere i notE notDst]
  apply rel.of_arrived apart arrived ?_ ?_ rfl rfl
  · intro i
    rcases eq_or_ne i e with rfl | notE
    · rwa [atE]
    · rcases eq_or_ne i dst with rfl | notDst
      · rwa [atDst]
      · rw [elsewhere i notE notDst]
        exact rel.settled i
  · exact rel.sent_storable storable

end Migrate

/-- Events at the deployment are like events at the single node. -/
theorem act_simulates :
    SimulatesWithin Outcome.As (DividesFor (ι := ι)) Event.Plain act Event.alone := by
  intro left n event plain
  cases event with
  | request e r =>
      refine ⟨1, fun d fuel rel enough => ?_⟩
      obtain ⟨less, rfl⟩ := Nat.exists_eq_add_of_le' enough
      exact rel.divides.request rel.short plain.1 plain.2 less
  | migrate e num dst =>
      by_cases settled : n.Settled
      · obtain ⟨bound, rounds⟩ := settled.kept.exists_rounds settled.proper.wf
        refine ⟨bound, fun d fuel rel enough => ?_⟩
        obtain ⟨d', ran, rel', _⟩ := rel.divides.migrate (rel.short.mono (Nat.zero_le _)) plain num
          fun k c held => lt_of_lt_of_le (rounds k c held) enough
        rw [act, ran]
        exact .some ⟨.migrated (.ok true), rel', rel.short.mono (Nat.le_succ left)⟩
      · exact ⟨0, fun d fuel rel _ => absurd ⟨rel.divides.divides.one, rel.divides.one⟩ settled⟩

omit [DecidableEq ι] in
/-- What the single node holds is at one node. -/
theorem atHome_iff (rel : d.Divides n) (k : CStr) (v : Stored) :
    n.content k = some v ↔ ∃ i, d.AtHome i k v := by
  constructor
  · intro held
    obtain ⟨o, owns, alone⟩ :=
      rel.divides.owner (slotOf k) (keyToSlot_mem_allSlots (keyToSlot_toR k))
    have elsewhere : ∀ j, j ≠ o → ¬ d.Owns j k := fun j other owns' => other (alone j owns')
    exact ⟨o, (rel.home owns).trans held, owns, fun j other =>
      ⟨rel.away (elsewhere j other), elsewhere j other⟩⟩
  · intro found
    obtain ⟨i, atHome⟩ := found
    exact (rel.home atHome.owns).symm.trans atHome.content

end Divides

/-! ## Histories -/

/-- Empty nodes that know and reach each other and divide the slots. -/
structure Starts (d : Deployment ι) : Prop where
  empty : ∀ i, ∃ shard level, d.node i = Node.empty shard level true ∧ shard.keys = []
  slots : ∀ i, ∀ slot ∈ (d.node i).shard.slots, slot ∈ allSlots
  owner : ∀ slot ∈ allSlots, ∃ i, slot ∈ (d.node i).shard.slots ∧
    ∀ j, slot ∈ (d.node j).shard.slots → j = i
  storable : ∀ i, (d.member i).Storable
  known : ∀ e i, i ∈ d.cluster.table e
  reachable : ∀ i, d.refuses i = false

section Histories

variable {d : Deployment ι} {events : List (Event ι)}

omit [DecidableEq ι] in
theorem Starts.divides (starts : d.Starts) (level : Nat) :
    d.Divides (Node.empty wholeShard level true) := by
  have inOrder : ∀ i, (d.node i).InOrder ∧ (d.node i).Proper ∧ (d.node i).shard.keys = [] ∧
      (d.node i).content = fun _ => none := by
    intro i
    obtain ⟨shard, level, same, untracked⟩ := starts.empty i
    rw [same]
    exact ⟨Node.inOrder_empty shard untracked level, Node.proper_empty shard level, untracked, rfl⟩
  have nothing : ∀ i k, (d.node i).content k = none := fun i k => congrFun (inOrder i).2.2.2 k
  constructor
  case divides =>
    constructor
    case proper => exact fun i => (inOrder i).2.1
    case one => exact Node.proper_empty _ _
    case whole => rfl
    case known => exact starts.known
    case owner => exact starts.owner
    case tracked =>
      intro i key member
      have tracked : key ∈ (d.node i).shard.keys := member
      rw [(inOrder i).2.2.1] at tracked
      cases tracked
    case home => exact fun i k _ => nothing i k
    case away => exact fun i k _ => nothing i k
    case uncut => exact fun _ => trivial
  case slots => exact starts.slots
  case kept => exact fun i => (inOrder i).1.kept
  case storable => exact starts.storable
  case reachable => exact starts.reachable
  case one => exact (Node.inOrder_empty wholeShard rfl level).kept
  case bare =>
    intro k held
    exact absurd rfl held
  case portable => exact fun _ => trivial

omit [DecidableEq ι] in
/-- The lists of a history are no longer than the history. -/
theorem short_empty (level : Nat) {length : Nat} (few : length < 2 ^ 31) :
    (Node.empty wholeShard level true).Short (0 + length) := by
  intro k
  show 0 + (0 + length) < 2 ^ 31
  omega

/-- Between migrations that move slots and keys to other nodes, all of which end well, each
client of a deployment that starts empty hears what one node with all the slots would
have told it; but it may wait for ever where that node says that the query has failed. -/
theorem heard_of_moving (starts : d.Starts) (level : Nat) (plain : ∀ event ∈ events, event.Plain)
    (few : events.length < 2 ^ 31) :
    ∃ bound, ∀ fuel, bound ≤ fuel →
      Option.Rel (List.Forall₂ Outcome.As) ((replies (act fuel) d events).map Prod.fst)
        ((replies Event.alone (Node.empty wholeShard level true) events).map Prod.fst) := by
  obtain ⟨bound, alike⟩ := Divides.act_simulates.replies 0 (Node.empty wholeShard level true) plain
  refine ⟨bound, fun fuel enough => ?_⟩
  exact map_fst_related (alike d fuel ⟨starts.divides level, short_empty level few⟩ enough)

/-- After such a history, what that node would hold under a key is at the node that owns
the key's slot, and no other node has either. -/
theorem atHome_of_moving (starts : d.Starts) (level : Nat) (plain : ∀ event ∈ events, event.Plain)
    (few : events.length < 2 ^ 31) :
    ∃ bound, ∀ fuel, bound ≤ fuel → ∀ outcomes d', replies (act fuel) d events =
        some (outcomes, d') →
      ∃ outcomes' n, replies Event.alone (Node.empty wholeShard level true) events =
          some (outcomes', n) ∧
        List.Forall₂ Outcome.As outcomes outcomes' ∧
        ∀ k v, n.content k = some v ↔ ∃ i, d'.AtHome i k v := by
  obtain ⟨bound, alike⟩ := Divides.act_simulates.replies 0 (Node.empty wholeShard level true) plain
  refine ⟨bound, fun fuel enough outcomes d' ran => ?_⟩
  have both := alike d fuel ⟨starts.divides level, short_empty level few⟩ enough
  rw [ran] at both
  obtain ⟨outcomes', n, alone, as, rel⟩ := exists_related both
  exact ⟨outcomes', n, alone, as, rel.divides.atHome_iff⟩

end Histories

/-- Two nodes that know each other, and one of them owns every slot. -/
def pair : Deployment Bool := ⟨Cluster.pairOfNodes, fun _ => none, fun _ => false⟩

theorem starts_pair : pair.Starts where
  empty i := by
    cases i with
    | false => exact ⟨_, _, rfl, rfl⟩
    | true => exact ⟨_, _, rfl, rfl⟩
  slots i slot member := by
    cases i with
    | false => cases member
    | true => exact member
  owner slot member := by
    refine ⟨true, member, ?_⟩
    intro j owns
    cases j with
    | false => cases owns
    | true => rfl
  storable _ _ record := by cases record
  known e i := (by decide : ∀ i, i ∈ [false, true]) i
  reachable _ := rfl

/-- SET at the node that owns nothing, a migration to it, and GET at the other. -/
def setMoveGet : List (Event Bool) :=
  [.request false ⟨.set, [lit "a", lit "b"]⟩, .migrate true 16384 false,
    .request true ⟨.get, [lit "a"]⟩]

theorem plain_setMoveGet : ∀ event ∈ setMoveGet, event.Plain := by
  intro event member
  rcases List.mem_cons.mp member with rfl | member
  · exact ⟨Cluster.plain_set_a, by decide⟩
  · rcases List.mem_cons.mp member with rfl | member
    · exact Bool.false_ne_true
    · rw [List.mem_singleton.mp member]
      exact ⟨Cluster.plain_get_a, by decide⟩

theorem heard_of_moving_pair : ∃ bound, ∀ fuel, bound ≤ fuel →
    Option.Rel (List.Forall₂ Outcome.As) ((replies (act fuel) pair setMoveGet).map Prod.fst)
      ((replies Event.alone (Node.empty wholeShard 0 true) setMoveGet).map Prod.fst) :=
  heard_of_moving starts_pair 0 plain_setMoveGet (by decide)

theorem atHome_of_moving_pair : ∃ bound, ∀ fuel, bound ≤ fuel → ∀ outcomes d',
    replies (act fuel) pair setMoveGet = some (outcomes, d') →
      ∃ outcomes' n, replies Event.alone (Node.empty wholeShard 0 true) setMoveGet =
          some (outcomes', n) ∧
        List.Forall₂ Outcome.As outcomes outcomes' ∧
        ∀ k v, n.content k = some v ↔ ∃ i, d'.AtHome i k v :=
  atHome_of_moving starts_pair 0 plain_setMoveGet (by decide)

end Deployment

end XFireDB
