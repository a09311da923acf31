import XFireDB.ClusterBus

/-!
# CLUSTER WHEREIS?

`where_is?` asks the nodes of the table in turn and takes the first whose reply
is not the text `false`.  Four layers write that text: the socket factory gives
nil where the authentication fails, for which `cluster_query` says `nil`; the bus
says `Access denied` to a host it does not know; the far node says `true` or
`false`.
-/

namespace XFireDB

open Lib

/-- How a node's bus treats the asking node. -/
inductive Admission
  | admitted
  | authRefused
  | denied
deriving DecidableEq

namespace Cluster

variable {ι : Type}

/-- `value.cluster_query "CLUSTER YOUHAVE? #{key}"`. -/
def youHaveReply (c : Cluster ι) (admission : ι → Admission) (key : RStr) (i : ι) :
    Except Raise RStr :=
  match admission i with
  | .authRefused => .ok (lit "nil")
  | .denied => .ok (lit "Access denied")
  | .admitted => (c.youHave i key).map fun answer => lit (if answer then "true" else "false")

/-- The loop of `where_is?`; `none` is the reply `Key not known`. -/
def askReplies (c : Cluster ι) (admission : ι → Admission) (key : RStr) :
    List ι → Except Raise (Option ι)
  | [] => .ok none
  | i :: rest =>
    match c.youHaveReply admission key i with
    | .error e => .error e
    | .ok rv => if rv = lit "false" then c.askReplies admission key rest else .ok (some i)

/-- Among nodes that all admit the asker this is the loop of `Cluster#where_is?`. -/
theorem ask_eq_askReplies (c : Cluster ι) (key : RStr) (ids : List ι) :
    c.ask key ids = (match c.askReplies (fun _ => .admitted) key ids with
      | .ok (some i) => .ok i
      | .ok none => .error .noMethodError
      | .error e => .error e) := by
  induction ids with
  | nil => rfl
  | cons i rest ih =>
      rw [ask, askReplies, youHaveReply]
      cases c.youHave i key with
      | error e => rfl
      | ok answer =>
          cases answer with
          | true => rfl
          | false => exact ih

end Cluster

/-! ## Keys that reach the other node -/

/-- A key that a client writes without spaces or quotes: `strip` has been applied
to it, and it is part of a line and a C string. -/
structure AskedKey where
  bytes : RStr
  nonempty : bytes ≠ []
  noSpace : 32 ∉ bytes
  noQuote : 34 ∉ bytes
  stripped : strip bytes = bytes
  oneLine : 10 ∉ bytes
  nulFree : 0 ∉ bytes

theorem chomp_eq_self {s : RStr} (last : ∀ b, s.getLast? = some b → b ≠ 10 ∧ b ≠ 13) :
    chomp s = s := by
  have ends : ∀ {b rest}, s.reverse = b :: rest → b ≠ 10 ∧ b ≠ 13 := by
    intro b rest shape
    refine last b ?_
    rw [List.getLast?_eq_head?_reverse, shape]
    rfl
  unfold chomp
  split
  · rename_i shape
    exact absurd rfl (ends shape).1
  · rename_i shape
    exact absurd rfl (ends shape).1
  · rename_i shape
    exact absurd rfl (ends shape).2
  · rfl

/-- What `strip` leaves does not end in whitespace. -/
theorem last_of_strip {s : RStr} {b : UInt8} (last : (strip s).getLast? = some b) :
    isStripped b = false := by
  rw [strip, List.getLast?_reverse] at last
  have first := List.head?_dropWhile_not isStripped (s.dropWhile isStripped).reverse
  rw [last] at first
  simpa using first

namespace AskedKey

variable (key : AskedKey)

theorem isToken : IsToken key.bytes key.bytes :=
  isToken_unquoted key.nonempty key.noSpace key.noQuote key.stripped

/-- The other node reads the same key. -/
theorem subject_youHave :
    Cluster.subject (wireLine (lit "CLUSTER YOUHAVE? " ++ key.bytes)) = some key.bytes := by
  have oneLine : 10 ∉ lit "CLUSTER YOUHAVE? " ++ key.bytes := by
    rw [List.mem_append]
    intro either
    rcases either with front | back
    · exact absurd front (by decide)
    · exact key.oneLine back
  have whole : (lit "CLUSTER YOUHAVE? " ++ key.bytes).takeWhile (· ≠ 10) =
      lit "CLUSTER YOUHAVE? " ++ key.bytes := by
    rw [List.takeWhile_eq_self_iff]
    intro b member
    simpa using fun same : b = 10 => oneLine (same ▸ member)
  have kept : wireLine (lit "CLUSTER YOUHAVE? " ++ key.bytes) =
      lit "CLUSTER YOUHAVE? " ++ key.bytes := by
    rw [wireLine, whole]
    refine chomp_eq_self ?_
    intro b last
    rw [List.getLast?_append_of_ne_nil _ key.nonempty, ← key.stripped] at last
    have notSpace := last_of_strip last
    constructor
    · intro same
      obtain rfl := same
      cases notSpace
    · intro same
      obtain rfl := same
      cases notSpace
  have tokens : tokenize (lit "CLUSTER YOUHAVE? " ++ key.bytes) =
      [lit "CLUSTER", lit "YOUHAVE?", key.bytes] := by
    have shape : lit "CLUSTER YOUHAVE? " ++ key.bytes =
        lit "CLUSTER" ++ 32 :: (lit "YOUHAVE?" ++ 32 :: (key.bytes ++ [])) := by
      simp [lit]
    have word : IsToken (lit "CLUSTER") (lit "CLUSTER") :=
      isToken_unquoted (by decide) (by decide) (by decide) (by decide)
    have word' : IsToken (lit "YOUHAVE?") (lit "YOUHAVE?") :=
      isToken_unquoted (by decide) (by decide) (by decide) (by decide)
    rw [shape, tokenize_append word (Or.inr ⟨_, rfl⟩), tokenize_space,
      tokenize_append word' (Or.inr ⟨_, rfl⟩), tokenize_space,
      tokenize_append key.isToken (Or.inl rfl)]
    rfl
  rw [Cluster.subject, kept, parseXql, tokens]
  rfl

/-- The slot of the key, `crc16(key) % 16384`. -/
def slot : RStr := natToS ((xfiredbCrc16 ⟨key.bytes, key.nulFree⟩).toNat % 16384)

theorem keyToSlot_eq : keyToSlot key.bytes = .ok key.slot := by
  rw [keyToSlot, crc16, stringValueCStr, dif_neg key.nulFree]
  rfl

end AskedKey

/-! ## Who is named -/

namespace Cluster

variable {ι : Type} {c : Cluster ι} {admission : ι → Admission} {key : AskedKey}

/-- The node's slot set contains the slot of the key. -/
def Owns (c : Cluster ι) (key : AskedKey) (i : ι) : Prop := key.slot ∈ (c.node i).shard.slots

instance (c : Cluster ι) (key : AskedKey) (i : ι) : Decidable (c.Owns key i) :=
  inferInstanceAs (Decidable (key.slot ∈ (c.node i).shard.slots))

/-- A node that does not own the key and does not answer either. -/
def Misleads (c : Cluster ι) (admission : ι → Admission) (key : AskedKey) (i : ι) : Prop :=
  admission i ≠ .admitted ∧ ¬ c.Owns key i

theorem youHave_asked (c : Cluster ι) (key : AskedKey) (i : ι) :
    c.youHave i key.bytes = .ok (decide (c.Owns key i)) := by
  rw [youHave, key.subject_youHave]
  simp only [KeyShard.includes, key.keyToSlot_eq, Except.map]
  rfl

theorem youHaveReply_asked (c : Cluster ι) (admission : ι → Admission) (key : AskedKey) (i : ι) :
    ∃ rv, c.youHaveReply admission key.bytes i = .ok rv ∧
      (rv = lit "false" ↔ admission i = .admitted ∧ ¬ c.Owns key i) := by
  unfold youHaveReply
  cases admission i with
  | authRefused =>
      refine ⟨_, rfl, iff_of_false (by decide) ?_⟩
      intro found
      obtain ⟨admits, _⟩ := found
      cases admits
  | denied =>
      refine ⟨_, rfl, iff_of_false (by decide) ?_⟩
      intro found
      obtain ⟨admits, _⟩ := found
      cases admits
  | admitted =>
      rw [youHave_asked]
      by_cases owns : c.Owns key i
      · simp only [owns, Except.map, decide_true, if_true]
        exact ⟨_, rfl, by simp; decide⟩
      · simp only [owns, Except.map, decide_false]
        exact ⟨_, rfl, by simp⟩

/-- `where_is?` names the first node that is not an answering stranger. -/
theorem askReplies_eq (c : Cluster ι) (admission : ι → Admission) (key : AskedKey) (ids : List ι) :
    c.askReplies admission key.bytes ids =
      .ok (ids.find? fun i => decide ¬(admission i = .admitted ∧ ¬ c.Owns key i)) := by
  induction ids with
  | nil => rfl
  | cons i rest ih =>
      obtain ⟨rv, replied, isFalse⟩ := c.youHaveReply_asked admission key i
      rw [askReplies, replied]
      by_cases no : admission i = .admitted ∧ ¬ c.Owns key i
      · rw [List.find?_cons_of_neg (by simpa using no)]
        simp only [isFalse.mpr no, if_true]
        exact ih
      · rw [List.find?_cons_of_pos (by simp only [decide_eq_true_eq]; exact no)]
        simp only [if_neg (fun same => no (isFalse.mp same))]

/-- `WHEREIS?` names an owner of the key's slot, or none where no node that answers
normally owns it. -/
def NamesOwner (c : Cluster ι) (admission : ι → Admission) (key : AskedKey) (table : List ι) :
    Prop :=
  match c.askReplies admission key.bytes table with
  | .ok (some i) => c.Owns key i
  | .ok none => ∀ i ∈ table, admission i = .admitted → ¬ c.Owns key i
  | .error _ => False

/-- `WHEREIS?` is right exactly if an owner stands before every node that refuses
the asker and does not own the slot. -/
theorem namesOwner_iff (c : Cluster ι) (admission : ι → Admission) (key : AskedKey)
    (table : List ι) :
    c.NamesOwner admission key table ↔
      ∀ before i after, table = before ++ i :: after → c.Misleads admission key i →
        ∃ j ∈ before, c.Owns key j := by
  unfold NamesOwner
  rw [askReplies_eq]
  cases found : table.find? fun i => decide ¬(admission i = .admitted ∧ ¬ c.Owns key i) with
  | none =>
      rw [List.find?_eq_none] at found
      have strangers : ∀ i ∈ table, admission i = .admitted ∧ ¬ c.Owns key i := by
        simpa using found
      constructor
      · intro _ before i after split misleads
        have here := strangers i (split ▸ List.mem_append_right before List.mem_cons_self)
        exact absurd here.1 misleads.1
      · intro _ i member _
        exact (strangers i member).2
  | some i =>
      obtain ⟨named, before, after, split, passed⟩ := List.find?_eq_some_iff_append.mp found
      have strangers : ∀ j ∈ before, admission j = .admitted ∧ ¬ c.Owns key j := by
        simpa using passed
      have notStranger : ¬(admission i = .admitted ∧ ¬ c.Owns key i) :=
        of_decide_eq_true named
      constructor
      · intro owns before' j after' split' misleads
        -- the node named stands before the one that misleads
        rcases List.append_eq_append_iff.mp (split.symm.trans split') with
          ⟨between, front, back⟩ | ⟨between, front, back⟩
        · cases between with
          | nil =>
              obtain ⟨rfl, _⟩ := List.cons_eq_cons.mp back
              exact absurd owns misleads.2
          | cons i' between =>
              obtain ⟨rfl, _⟩ := List.cons_eq_cons.mp back
              exact ⟨i, front ▸ List.mem_append_right before List.mem_cons_self, owns⟩
        · cases between with
          | nil =>
              obtain ⟨rfl, _⟩ := List.cons_eq_cons.mp back
              exact absurd owns misleads.2
          | cons j' between =>
              obtain ⟨rfl, _⟩ := List.cons_eq_cons.mp back
              have stranger :=
                strangers j (front ▸ List.mem_append_right before' List.mem_cons_self)
              exact absurd stranger.1 misleads.1
      · intro ownerFirst
        by_contra notOwner
        have refuses : admission i ≠ .admitted := fun admits => notStranger ⟨admits, notOwner⟩
        obtain ⟨j, member, owns⟩ := ownerFirst before i after split ⟨refuses, notOwner⟩
        exact (strangers j member).2 owns

/-- Node `true` owns every slot and answers; node `false`, first in the table, owns
none. -/
def pairOfNodes : Cluster Bool where
  node := fun
    | true => ⟨fun _ => none, fun _ => none, 0, ⟨allSlots, [], nodup_allSlots, List.nodup_nil⟩,
        true, 0, []⟩
    | false => ⟨fun _ => none, fun _ => none, 0, ⟨[], [], List.nodup_nil, List.nodup_nil⟩,
        true, 0, []⟩
  table := fun _ => [false, true]

theorem asked_a : 32 ∉ lit "a" ∧ 34 ∉ lit "a" ∧ strip (lit "a") = lit "a" ∧ 10 ∉ lit "a" ∧
    0 ∉ lit "a" := by decide

def keyA : AskedKey where
  bytes := lit "a"
  nonempty := List.cons_ne_nil 97 []
  noSpace := asked_a.1
  noQuote := asked_a.2.1
  stripped := asked_a.2.2.1
  oneLine := asked_a.2.2.2.1
  nulFree := asked_a.2.2.2.2

/-- The node that refuses the authentication is named. -/
theorem whereIs_names_refusing :
    ¬ pairOfNodes.NamesOwner (fun i => if i then .admitted else .authRefused) keyA
      (pairOfNodes.table true) := by
  have named : pairOfNodes.askReplies (fun i => if i then .admitted else .authRefused) keyA.bytes
      (pairOfNodes.table true) = .ok (some false) := by
    rw [askReplies_eq]
    rfl
  rw [NamesOwner, named]
  exact List.not_mem_nil

end Cluster

end XFireDB
