import XFireDB.KeyShard
import XFireDB.Lib.Runs

/-!
# Runs of a key shard

A shard tracks keys of its own slots only.  `reshard` takes the first slots of
the set out with their keys, and leaves a shard of the same kind.
-/

namespace XFireDB

open Lib

namespace KeyShard

/-- `KeyShard.new`. -/
def empty : KeyShard := ⟨[], [], List.nodup_nil, List.nodup_nil⟩

/-- `add_slot`; an argument that is no `String` is `none`. -/
def addSlot (shard : KeyShard) : Option RStr → KeyShard
  | none => shard
  | some slot =>
    { shard with
      slots := setAdd shard.slots slot
      slotsNodup := nodup_setAdd shard.slotsNodup slot }

/-- The calls on a shard. -/
inductive ShardCall
  | addSlots (slots : List RStr)
  | addSlot (slot : Option RStr)
  | addKey (key : RStr)
  | delKey (key : RStr)
  | reshard (num : Int)

/-- The shard after a call; `add_key` of a key that cannot be hashed raises. -/
def call (shard : KeyShard) : ShardCall → Option KeyShard
  | .addSlots slots => some (shard.addSlots slots)
  | .addSlot slot => some (shard.addSlot slot)
  | .addKey key =>
    match shard.addKey key with
    | .ok shard => some shard
    | .error _ => some shard
  | .delKey key => some (shard.delKey key)
  | .reshard num => some (shard.reshard num).1

/-- A key has its slot in a list of slots. -/
def InSlots (slots : List RStr) (key : RStr) : Prop :=
  ∃ slot, keyToSlot key = .ok slot ∧ slot ∈ slots

/-- Every tracked key has its slot in the shard. -/
def Consistent (shard : KeyShard) : Prop := ∀ key ∈ shard.keys, InSlots shard.slots key

variable {shard shard' : KeyShard} {key : RStr}

theorem InSlots.mono {slots slots' : List RStr} (sub : slots ⊆ slots')
    (inside : InSlots slots key) :
    InSlots slots' key := by
  rcases inside with ⟨slot, known, member⟩
  exact ⟨slot, known, sub member⟩

theorem inSlots_iff {rm : List RStr} : inSlots rm key = true ↔ InSlots rm key := by
  unfold inSlots
  cases known : keyToSlot key with
  | ok slot =>
      constructor
      · intro member
        exact ⟨slot, known, of_decide_eq_true member⟩
      · intro found
        rcases found with ⟨slot', known', member⟩
        obtain rfl : slot = slot' := Except.ok.inj (known.symm.trans known')
        exact decide_eq_true member
  | error e =>
      refine iff_of_false Bool.false_ne_true ?_
      intro found
      rcases found with ⟨slot, known', _⟩
      cases known.symm.trans known'

/-- The removed slots are the first ones. -/
theorem reshardLoop_snd (num : Int) (slots : List RStr) :
    (reshardLoop num slots).2 = slots.take num.toNat := by
  induction slots generalizing num with
  | nil => rw [reshardLoop, List.take_nil]
  | cons slot rest ih =>
      by_cases more : 0 ≤ num - 1
      · simp only [reshardLoop, more, if_true]
        have count : num.toNat = (num - 1).toNat + 1 := by omega
        rw [count, List.take_succ_cons, ih (num - 1)]
      · simp only [reshardLoop, more, if_false]
        have count : num.toNat = 0 := by omega
        have countNext : (num - 1).toNat = 0 := by omega
        rw [ih (num - 1), count, countNext, List.take_zero, List.take_zero]

theorem mem_reshard_rmkeys {num : Int} :
    key ∈ (shard.reshard num).2.2 ↔ key ∈ shard.keys ∧ InSlots (shard.reshard num).2.1 key := by
  rw [← inSlots_iff]
  exact List.mem_filter

theorem mem_reshard_keys {num : Int} :
    key ∈ (shard.reshard num).1.keys ↔
      key ∈ shard.keys ∧ ¬ InSlots (shard.reshard num).2.1 key := by
  have kept : key ∈ (shard.reshard num).1.keys ↔
      key ∈ shard.keys ∧ decide (key ∉ (shard.reshard num).2.2) = true := List.mem_filter
  rw [kept, decide_eq_true_iff, mem_reshard_rmkeys]
  constructor
  · intro found
    rcases found with ⟨tracked, outside⟩
    exact ⟨tracked, fun inside => outside ⟨tracked, inside⟩⟩
  · intro found
    rcases found with ⟨tracked, outside⟩
    exact ⟨tracked, fun removed => outside removed.2⟩

/-! ## The invariant -/

theorem Consistent.of_slots (consistent : shard.Consistent) (keys : shard'.keys ⊆ shard.keys)
    (slots : shard.slots ⊆ shard'.slots) : shard'.Consistent :=
  fun key tracked => (consistent key (keys tracked)).mono slots

theorem Consistent.addKey (consistent : shard.Consistent) (added : shard.addKey key = .ok shard') :
    shard'.Consistent := by
  unfold KeyShard.addKey includes at added
  cases known : keyToSlot key with
  | error e =>
      rw [known] at added
      cases added
  | ok slot =>
      rw [known] at added
      by_cases owned : slot ∈ shard.slots
      · have tracking : shard' = { shard with
            keys := setAdd shard.keys key
            keysNodup := nodup_setAdd shard.keysNodup key } := by
          rw [← Except.ok.inj added]
          exact if_pos (decide_eq_true owned)
        rw [tracking]
        intro key' tracked
        rcases mem_setAdd.mp tracked with old | rfl
        · exact consistent key' old
        · exact ⟨slot, known, owned⟩
      · have unchanged : shard' = shard := by
          rw [← Except.ok.inj added]
          exact if_neg (by simpa using owned)
        rw [unchanged]
        exact consistent

theorem Consistent.reshard (consistent : shard.Consistent) (num : Int) :
    (shard.reshard num).1.Consistent := by
  intro key tracked
  obtain ⟨was, outside⟩ := mem_reshard_keys.mp tracked
  obtain ⟨slot, known, member⟩ := consistent key was
  rcases (mem_reshard shard num slot).mp member with kept | removed
  · exact ⟨slot, known, kept⟩
  · exact absurd ⟨slot, known, removed⟩ outside

/-- Every call keeps the shard consistent. -/
theorem Consistent.call (consistent : shard.Consistent) {c : ShardCall}
    (called : shard.call c = some shard') : shard'.Consistent := by
  cases c with
  | addSlots slots =>
      obtain rfl := Option.some.inj called
      refine consistent.of_slots (List.Subset.refl _) ?_
      intro slot member
      exact mem_setMerge.mpr (Or.inl member)
  | addSlot slot =>
      obtain rfl := Option.some.inj called
      cases slot with
      | none => exact consistent
      | some slot =>
          refine consistent.of_slots (List.Subset.refl _) ?_
          intro slot' member
          exact mem_setAdd.mpr (Or.inl member)
  | addKey key =>
      rw [KeyShard.call] at called
      split at called
      · rename_i after added
        obtain rfl := Option.some.inj called
        exact consistent.addKey added
      · obtain rfl := Option.some.inj called
        exact consistent
  | delKey key =>
      obtain rfl := Option.some.inj called
      exact consistent.of_slots (List.filter_subset_self _) (List.Subset.refl _)
  | reshard num =>
      obtain rfl := Option.some.inj called
      exact consistent.reshard num

theorem consistent_of_reachable (run : Reachable call empty shard) : shard.Consistent := by
  apply run.invariant (I := Consistent)
  · intro key tracked
    cases tracked
  · intro s e s' consistent _ fired
    exact consistent.call fired

/-! ## What `reshard` takes out -/

/-- The shard left, the removed slots and the removed keys are a partition of the
shard before. -/
structure Resharded (shard : KeyShard) (num : Int) (left : KeyShard) (rm rmkeys : List RStr) :
    Prop where
  disjoint : ∀ slot ∈ rm, slot ∉ left.slots
  union : ∀ slot, slot ∈ shard.slots ↔ slot ∈ rm ∨ slot ∈ left.slots
  distinct : rm.Nodup
  count : (rm.length : Int) = min (max num 0) shard.slots.length
  removed : ∀ key, key ∈ rmkeys ↔ key ∈ shard.keys ∧ InSlots rm key
  kept : ∀ key, key ∈ left.keys ↔ key ∈ shard.keys ∧ ¬ InSlots rm key

/-- In every shard that calls reach, `reshard` is a partition, takes the number
of slots asked for as far as there are so many, and the keys before and after
have their slots in the shard. -/
theorem reshard_partition (run : Reachable call empty shard) (num : Int) :
    Resharded shard num (shard.reshard num).1 (shard.reshard num).2.1 (shard.reshard num).2.2 ∧
      shard.Consistent ∧ (shard.reshard num).1.Consistent := by
  have consistent := consistent_of_reachable run
  refine ⟨?_, consistent, consistent.reshard num⟩
  have taken : (shard.reshard num).2.1 = shard.slots.take num.toNat :=
    reshardLoop_snd num shard.slots
  exact {
    disjoint := fun slot removed kept => not_mem_reshard_both shard num kept removed
    union := fun slot => (mem_reshard shard num slot).trans or_comm
    distinct := taken ▸ shard.slotsNodup.sublist (List.take_sublist _ _)
    count := by
      rw [taken, List.length_take]
      omega
    removed := fun key => mem_reshard_rmkeys
    kept := fun key => mem_reshard_keys }

/-- The shard of a root node with the key `a`. -/
def rootCalls : List ShardCall :=
  [.addSlots [lit "15495", lit "1"], .addSlot none, .addKey (lit "a"), .addKey (lit "b")]

theorem reshard_partition_rootCalls :
    ∃ shard, runEvents call empty rootCalls = some shard ∧ shard.keys = [lit "a"] ∧
      Resharded shard 1 (shard.reshard 1).1 [lit "15495"] [lit "a"] :=
  ⟨_, rfl, by decide +kernel, (reshard_partition (Reachable.of_runEvents rootCalls rfl) 1).1⟩

end KeyShard

end XFireDB
