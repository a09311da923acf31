import XFireDB.Migrate
import XFireDB.Carry
import XFireDB.HiddenKeys

/-!
# What a migration does to the data

Under which conditions every key that was stored before a run of
`LocalNode#migrate` is afterwards at the node that owns its slot, with the same
type and value, and nowhere else.
-/

namespace XFireDB

open Lib Slots

/-! ## Texts that are read as they were meant -/

/-- The commands that rebuild a container. -/
def meant (key : RStr) : Container → List Xql
  | .list elems => elems.map fun entry => ⟨lit "LPUSH", [key, entry.toR]⟩
  | .hashmap nodes _ => nodes.map fun node => ⟨lit "MADD", [key, node.key.toR, node.value.toR]⟩
  | .set nodes _ => nodes.map fun node => ⟨lit "SADD", [key, node.key.toR]⟩

/-- The far node reads each text sent for a key as it was meant, and a container has
something to send. -/
def Carried (key : RStr) : Stored → Prop
  | .string val =>
    parseXql (wireLine (lit "SET " ++ key ++ lit " " ++ quote val.toR)) =
      some ⟨lit "SET", [key, val.toR]⟩
  | .container c =>
    (Deployment.texts key c).map (fun text => parseXql (wireLine text)) = (meant key c).map some ∧
      c.Whole

/-- A storage command on a key of the node ends well. -/
def Node.Fed (n t : Node) : Prop :=
  ∃ (cmd : Cmd) (k : CStr) (args : List CStr) (r : Reply), n.shard.includes k.toR = .ok true ∧
    (cmd.exec (k.toR :: args.map CStr.toR)).run Node.call n = some (.ok r, t)

/-- A key of the node is deleted. -/
def Node.Shed (n t : Node) : Prop := ∃ k : CStr, n.rbDbDelete k.toR = (.ok (), t)

namespace Deployment

open Relation

variable {ι : Type} [DecidableEq ι] {d : Deployment ι} {e dst : ι} {k : CStr}

/-! ## One text -/

omit [DecidableEq ι] in
theorem size_texts (key : RStr) (c : Container) : (texts key c).length = c.size := by
  cases c <;> simp [texts, Container.size]

/-- Each element of a whole container is come to. -/
theorem nextText_of_whole {c : Container} (whole : c.Whole) (key : RStr) (pos : Nat) :
    nextText key c pos = (texts key c)[pos]? := by
  cases c with
  | list elems =>
      have short : (elems.length : Int) < 2 ^ 31 := by exact_mod_cast whole.2
      rw [nextText, int32_of_small (Int.natCast_nonneg _) short]
      split
      · rfl
      · rename_i past
        symm
        rw [List.getElem?_eq_none_iff, texts, List.length_map]
        omega
  | hashmap nodes num => rfl
  | set nodes num => rfl

@[simp] theorem node_setNode (d : Deployment ι) (i j : ι) (n : Node) :
    (d.setNode i n).node j = if j = i then n else d.node j :=
  Function.update_apply _ _ _ _

@[simp] theorem setNode_setNode (d : Deployment ι) (i : ι) (n n' : Node) :
    (d.setNode i n).setNode i n' = d.setNode i n' := by
  rw [setNode, setNode, setNode, Function.update_idem]

@[simp] theorem setNode_node (d : Deployment ι) (i : ι) : d.setNode i (d.node i) = d := by
  rw [setNode, node, Function.update_eq_self]

/-- A text that is read as a command which ends well at the destination. -/
theorem query_ok {text : RStr} {x : Xql} {cmd : Cmd} {r : Reply} {t : Node}
    (parsed : parseXql (wireLine text) = some x) (named : Cmd.ofName x.cmd = some cmd)
    (ran : (cmd.exec x.args).run Node.call (d.node dst) = some (.ok r, t)) (fuel : Nat) :
    d.query fuel dst text = some (.ok (), d.setNode dst t) := by
  have there := Cluster.run_of_node (Cluster.forward fuel) dst ran
  rw [query, Cluster.busQuery, parsed]
  simp only [named, Cluster.start_bus, there, Cluster.busReply, Option.map_some, Except.map]
  rfl

/-- The text of an element brings the destination one element further. -/
theorem query_next {c : Container} {n : Node} {pos : Nat} {text : RStr}
    (carried : Carried k.toR (.container c)) (filled : n.Filled (d.node dst) k (c.take pos))
    (isLocal : n.shard.includes k.toR = .ok true) (here : (texts k.toR c)[pos]? = some text)
    (fuel : Nat) :
    ∃ t, d.query fuel dst text = some (.ok (), d.setNode dst t) ∧
      n.Filled t k (c.take (pos + 1)) ∧ (d.node dst).Fed t := by
  obtain ⟨readAs, whole⟩ := carried
  have there : (d.node dst).shard.includes k.toR = .ok true := by
    rw [Region.Tied.includes_congr filled.slots, isLocal]
  have understood : (meant k.toR c)[pos]?.map some = some (parseXql (wireLine text)) := by
    rw [← List.getElem?_map, ← readAs, List.getElem?_map, here, Option.map_some]
  cases c with
  | list elems =>
      rw [meant, List.getElem?_map] at understood
      cases entry : elems[pos]? with
      | none => simp [entry] at understood
      | some data =>
          rw [entry] at understood
          obtain ⟨r, t, ran, after⟩ := filled.run_lPush isLocal entry
          exact ⟨t, query_ok (Option.some.inj understood).symm rfl ran fuel, after,
            .lPush, k, [data], r, there, ran⟩
  | hashmap nodes num =>
      rw [meant, List.getElem?_map] at understood
      cases entry : nodes[pos]? with
      | none => simp [entry] at understood
      | some node =>
          rw [entry] at understood
          obtain ⟨r, t, ran, after⟩ := filled.run_mAdd whole.1 isLocal entry
          exact ⟨t, query_ok (Option.some.inj understood).symm rfl ran fuel, after,
            .mAdd, k, [node.key, node.value], r, there, ran⟩
  | set nodes num =>
      rw [meant, List.getElem?_map] at understood
      cases entry : nodes[pos]? with
      | none => simp [entry] at understood
      | some node =>
          rw [entry] at understood
          obtain ⟨r, t, ran, after⟩ := filled.run_sAdd whole.1 isLocal entry
          exact ⟨t, query_ok (Option.some.inj understood).symm rfl ran fuel, after,
            .sAdd, k, [node.key], r, there, ran⟩

/-! ## One key -/

/-- The elements from `pos` on, one after another. -/
theorem each_carried {c : Container} {n : Node} {id : Nat} {o : Obj} (apart : dst ≠ e)
    (carried : Carried k.toR (.container c)) (isLocal : n.shard.includes k.toR = .ok true)
    (holds : (d.node e).objs id = some o) (data : o.c = c) (fuel : Nat) {rounds pos left : Nat}
    (inside : pos + left = c.size) (enough : left < rounds)
    (filled : n.Filled (d.node dst) k (c.take pos)) :
    ∃ t, each fuel e dst k.toR id rounds pos d = some (.ok (), d.setNode dst t) ∧
      n.Filled t k c ∧ ReflTransGen Node.Fed (d.node dst) t := by
  have reads := nextText_of_whole carried.2 k.toR
  induction left generalizing d rounds pos with
  | zero =>
      cases rounds with
      | zero => omega
      | succ rounds =>
          have done : (texts k.toR c)[pos]? = none := by
            rw [List.getElem?_eq_none_iff, size_texts]
            omega
          refine ⟨d.node dst, ?_, ?_, .refl⟩
          · simp only [each, holds, data, reads, done, setNode_node]
          · have all : pos = c.size := by omega
            rw [all, carried.2.take_size] at filled
            exact filled
  | succ left ih =>
      cases rounds with
      | zero => omega
      | succ rounds =>
          have bound : pos < (texts k.toR c).length := by
            rw [size_texts]
            omega
          obtain ⟨text, here⟩ : ∃ text, (texts k.toR c)[pos]? = some text :=
            ⟨_, List.getElem?_eq_getElem bound⟩
          obtain ⟨t, sent, after, fed⟩ := query_next carried filled isLocal here fuel
          have holds' : ((d.setNode dst t).node e).objs id = some o := by
            rw [node_setNode, if_neg apart.symm]
            exact holds
          have filled' : n.Filled ((d.setNode dst t).node dst) k (c.take (pos + 1)) := by
            rw [node_setNode, if_pos rfl]
            exact after
          have inside' : pos + 1 + left = c.size := by omega
          have enough' : left < rounds := by omega
          obtain ⟨t', rest, whole, later⟩ := ih holds' inside' enough' filled'
          rw [node_setNode, if_pos rfl] at later
          refine ⟨t', ?_, whole, .head fed later⟩
          simp only [each, holds, data, reads, here, sent, rest, setNode_setNode]

/-- What the body of the `case` leaves at the destination. -/
theorem copyValue_carried (apart : dst ≠ e) (source : (d.node e).Wf) (target : (d.node dst).Wf)
    (isLocal : (d.node dst).shard.includes k.toR = .ok true)
    (carried : ∀ v, (d.node e).content k = some v → Carried k.toR v ∧ (d.node dst).content k = none)
    {fuel : Nat} (rounds : ∀ c, (d.node e).content k = some (.container c) → c.size < fuel) :
    ∃ val t, ((d.node e).rbDbRef k.toR).1 = .ok val ∧
      d.copyValue fuel e dst k.toR val = some (.ok (), d.setNode dst t) ∧ t.Wf ∧
      t.shard.slots = (d.node dst).shard.slots ∧ ReflTransGen Node.Fed (d.node dst) t ∧
      ∀ k', t.content k' = if k' = k then ((d.node e).content k).or ((d.node dst).content k)
        else (d.node dst).content k' := by
  have known := stringValueCStr_toR k
  rcases source.content_cases k with ⟨missing, nothing⟩ | ⟨s, found, content⟩ | ⟨id, o, holds⟩
  · refine ⟨.nil, d.node dst, by rw [Node.rbDbRef_none known missing], ?_, target, rfl, .refl, ?_⟩
    · rw [copyValue, setNode_node]
    · intro k'
      rw [nothing, Option.none_or]
      split
      · rename_i same
        rw [same]
      · rfl
  · obtain ⟨r, t, ran, wf, changed⟩ := target.run_set isLocal s []
    have fed : (d.node dst).Fed t := ⟨.set, k, [s], r, isLocal, ran⟩
    refine ⟨.str s.toR, t, by rw [Node.rbDbRef_string known found], ?_, wf, run_slots ran,
      .single fed, ?_⟩
    · exact query_ok (carried _ content).1 rfl ran fuel
    · intro k'
      rw [changed, content, Option.some_or, Function.update_apply]
  · obtain ⟨reads, free⟩ := carried _ holds.content
    have empty : (d.node dst).Filled (d.node dst) k (o.c.take 0) := by
      refine ⟨target, rfl, fun _ _ => rfl, Or.inr ⟨free, ?_⟩⟩
      rw [Container.take_kind, Container.take_zero]
    obtain ⟨t, ran, filled, fed⟩ := each_carried apart reads isLocal holds.obj rfl fuel
      (Nat.zero_add o.c.size) (rounds o.c holds.content) empty
    refine ⟨.obj o.c.kind id, t, by rw [Node.rbDbRef_object known holds], ran, filled.wf,
      filled.slots, fed, ?_⟩
    intro k'
    split
    · rename_i same
      rw [same, holds.content, Option.some_or]
      rcases filled.here with here | ⟨_, isEmpty⟩
      · exact here
      · exact absurd isEmpty reads.2.ne_alloc
    · rename_i other
      exact filled.others k' other

/-! ## All keys -/

/-- The keys `ks` have gone from `e` to `dst`. -/
structure Moved (d d' : Deployment ι) (e dst : ι) (ks : List CStr) : Prop where
  wf : ∀ i, (d'.node i).Wf
  slots : ∀ i, (d'.node i).shard.slots = (d.node i).shard.slots
  others : ∀ i, i ≠ e → i ≠ dst → (d'.node i).content = (d.node i).content
  source : ∀ k, (d'.node e).content k = if k ∈ ks then none else (d.node e).content k
  target : ∀ k, (d'.node dst).content k =
    if k ∈ ks then ((d.node e).content k).or ((d.node dst).content k) else (d.node dst).content k

/-- The keys `ks` can be copied: the destination has their slots, stores none of what is
stored here and reads the texts as they were meant. -/
structure Ready (d : Deployment ι) (e dst : ι) (fuel : Nat) (ks : List CStr) : Prop where
  wf : ∀ i, (d.node i).Wf
  isLocal : ∀ k ∈ ks, (d.node dst).shard.includes k.toR = .ok true
  carried : ∀ k ∈ ks, ∀ v, (d.node e).content k = some v →
    Carried k.toR v ∧ (d.node dst).content k = none
  rounds : ∀ k ∈ ks, ∀ c, (d.node e).content k = some (.container c) → c.size < fuel

variable {d' d'' : Deployment ι} {ks : List CStr} {fuel : Nat}

omit [DecidableEq ι] in
theorem Moved.nil (wf : ∀ i, (d.node i).Wf) : Moved d d e dst [] :=
  ⟨wf, fun _ => rfl, fun _ _ _ => rfl, fun _ => by simp, fun _ => by simp⟩

omit [DecidableEq ι] in
theorem Moved.cons (first : Moved d d' e dst [k]) (rest : Moved d' d'' e dst ks) (fresh : k ∉ ks) :
    Moved d d'' e dst (k :: ks) where
  wf := rest.wf
  slots i := (rest.slots i).trans (first.slots i)
  others i notE notDst := (rest.others i notE notDst).trans (first.others i notE notDst)
  source k' := by
    rw [rest.source, first.source]
    simp only [List.mem_cons]
    split_ifs with later here either either <;> tauto
  target k' := by
    rw [rest.target, first.source, first.target]
    simp only [List.mem_cons]
    by_cases here : k' = k
    · subst here
      simp [fresh]
    · simp [here]

omit [DecidableEq ι] in
theorem Ready.rest (ready : Ready d e dst fuel (k :: ks)) (moved : Moved d d' e dst [k])
    (fresh : k ∉ ks) : Ready d' e dst fuel ks where
  wf := moved.wf
  isLocal k' member := by
    rw [Region.Tied.includes_congr (moved.slots dst)]
    exact ready.isLocal k' (List.mem_cons_of_mem k member)
  carried k' member v there := by
    have other : k' ∉ [k] := fun same => fresh (List.mem_singleton.mp same ▸ member)
    rw [moved.source, if_neg other] at there
    rw [moved.target, if_neg other]
    exact ready.carried k' (List.mem_cons_of_mem k member) v there
  rounds k' member c there := by
    have other : k' ∉ [k] := fun same => fresh (List.mem_singleton.mp same ▸ member)
    rw [moved.source, if_neg other] at there
    exact ready.rounds k' (List.mem_cons_of_mem k member) c there

/-- One key is copied and deleted. -/
theorem Ready.copyKey (ready : Ready d e dst fuel (k :: ks)) (apart : dst ≠ e) :
    ∃ val t n, ((d.node e).rbDbRef k.toR).1 = .ok val ∧
      d.copyValue fuel e dst k.toR val = some (.ok (), d.setNode dst t) ∧
      (d.setNode dst t).deleteKey e k.toR = (.ok (), (d.setNode dst t).setNode e n) ∧
      Moved d ((d.setNode dst t).setNode e n) e dst [k] ∧
      ReflTransGen Node.Fed (d.node dst) t ∧ (d.node e).Shed n := by
  obtain ⟨val, t, found, copied, wf, slots, fed, content⟩ := copyValue_carried apart (ready.wf e)
    (ready.wf dst) (ready.isLocal k List.mem_cons_self) (ready.carried k List.mem_cons_self)
    (ready.rounds k List.mem_cons_self)
  obtain ⟨n, deleted, changes⟩ := (ready.wf e).rbDbDelete (stringValueCStr_toR k)
  have atSource : (d.setNode dst t).node e = d.node e := by
    rw [node_setNode, if_neg apart.symm]
  refine ⟨val, t, n, found, copied, ?_, ?_, fed, k, deleted⟩
  · rw [deleteKey, atSource, deleted]
  · have gone : Node.call (d.node e) (.dbDelete k.toR) = some (.ok (), n) := congrArg some deleted
    refine ⟨?_, ?_, ?_, ?_, ?_⟩
    · intro i
      rw [node_setNode, node_setNode]
      split_ifs
      · exact changes.wf
      · exact wf
      · exact ready.wf i
    · intro i
      rw [node_setNode, node_setNode]
      split_ifs with isE isDst
      · rw [Node.call_slots gone, isE]
      · rw [slots, isDst]
      · rfl
    · intro i notE notDst
      rw [node_setNode, node_setNode, if_neg notE, if_neg notDst]
    · intro k'
      rw [node_setNode, if_pos rfl, changes.content, Function.update_apply]
      simp only [List.mem_singleton]
    · intro k'
      rw [node_setNode, node_setNode, if_neg apart, if_pos rfl, content]
      simp only [List.mem_singleton]
      split_ifs with same
      · rw [same]
      · rfl

/-- The loop over the keys; one node is fed and the other sheds. -/
theorem Ready.copyKeys_nodes (ready : Ready d e dst fuel ks) (apart : dst ≠ e) (nodup : ks.Nodup) :
    ∃ t n, d.copyKeys fuel e dst (ks.map CStr.toR) =
        some (.ok true, (d.setNode dst t).setNode e n) ∧
      Moved d ((d.setNode dst t).setNode e n) e dst ks ∧
      ReflTransGen Node.Fed (d.node dst) t ∧ ReflTransGen Node.Shed (d.node e) n := by
  induction ks generalizing d with
  | nil =>
      refine ⟨d.node dst, d.node e, ?_⟩
      rw [setNode_node, setNode_node]
      exact ⟨rfl, Moved.nil ready.wf, .refl, .refl⟩
  | cons k ks ih =>
      obtain ⟨fresh, nodup⟩ := List.nodup_cons.mp nodup
      obtain ⟨val, t, n, found, copied, deleted, moved, fed, shed⟩ := ready.copyKey apart
      obtain ⟨t', n', ran, rest, fedLater, shedLater⟩ := ih (ready.rest moved fresh) nodup
      have same : (((d.setNode dst t).setNode e n).setNode dst t').setNode e n' =
          (d.setNode dst t').setNode e n' := by
        simp only [setNode, Function.update_comm apart.symm, Function.update_idem]
      rw [same] at ran rest
      rw [node_setNode, node_setNode, if_neg apart, if_pos rfl] at fedLater
      rw [node_setNode, if_pos rfl] at shedLater
      refine ⟨t', n', ?_, moved.cons rest fresh, fed.trans fedLater, .head shed shedLater⟩
      rw [List.map_cons, Deployment.copyKeys]
      simp only [found, copied, deleted, ran]

/-- The loop over the keys. -/
theorem Ready.copyKeys (ready : Ready d e dst fuel ks) (apart : dst ≠ e) (nodup : ks.Nodup) :
    ∃ d', d.copyKeys fuel e dst (ks.map CStr.toR) = some (.ok true, d') ∧ Moved d d' e dst ks := by
  obtain ⟨t, n, ran, moved, _⟩ := ready.copyKeys_nodes apart nodup
  exact ⟨_, ran, moved⟩

/-- Keys that hold nothing are passed over. -/
theorem copyKeys_nothing (nothing : ∀ k ∈ ks, (d.node e).db k = none) :
    d.copyKeys fuel e dst (ks.map CStr.toR) = some (.ok true, d) := by
  induction ks with
  | nil => rfl
  | cons k ks ih =>
      have missing := nothing k List.mem_cons_self
      have known := stringValueCStr_toR k
      have deleted : (d.node e).rbDbDelete k.toR = (.ok (), d.node e) := by
        simp only [Node.rbDbDelete, known, missing]
      have rest := ih fun k' member => nothing k' (List.mem_cons_of_mem k member)
      rw [List.map_cons, Deployment.copyKeys, Node.rbDbRef_none known missing]
      simp only [copyValue, deleteKey, deleted, setNode_node, rest]

/-! ## The slots -/

/-- The node has the slot of the key. -/
def Owns (d : Deployment ι) (i : ι) (k : CStr) : Prop := slotOf k ∈ (d.node i).shard.slots

/-- `reshard` takes the slot of the key. -/
def Taken (d : Deployment ι) (e : ι) (num : Int) (k : CStr) : Prop :=
  slotOf k ∈ ((d.node e).shard.reshard num).2.1

omit [DecidableEq ι] in
theorem owns_iff {i : ι} : d.Owns i k ↔ (d.node i).shard.includes k.toR = .ok true := by
  rw [KeyShard.includes, keyToSlot_toR, Except.map, Owns]
  simp

/-- Every slot has one owner at most, and what is stored is at the owner of its slot. -/
structure Orderly (d : Deployment ι) : Prop where
  wf : ∀ i, (d.node i).Wf
  slots : ∀ i, ∀ slot ∈ (d.node i).shard.slots, slot ∈ allSlots
  sole : ∀ i j slot, slot ∈ (d.node i).shard.slots → slot ∈ (d.node j).shard.slots → i = j
  stored : ∀ i k v, (d.node i).content k = some v → d.Owns i k
  storable : ∀ i, (d.member i).Storable

/-- The slots have changed hands, the data has not. -/
structure Handed (d d' : Deployment ι) (e dst : ι) (num : Int) : Prop where
  wf : ∀ i, (d'.node i).Wf
  content : ∀ i, (d'.node i).content = (d.node i).content
  owns : ∀ i k, d'.Owns i k ↔
    (d.Owns i k ∧ ¬ (i = e ∧ d.Taken e num k)) ∨ (i = dst ∧ d.Taken e num k)

theorem node_setMember (d : Deployment ι) (i j : ι) (m : Member) :
    (d.setMember i m).node j = if j = i then { d.node i with shard := m.shard } else d.node j :=
  node_setNode d i j _

theorem unstorable_eq {m : Member} (storable : m.Storable) : unstorable m.record = false := by
  cases record : m.record with
  | none => rfl
  | some text => simp [unstorable, storable text record]

omit [DecidableEq ι] in
theorem Orderly.taken_slots (orderly : d.Orderly) (e : ι) (num : Int) :
    ∀ slot ∈ ((d.node e).shard.reshard num).2.1, slot ∈ allSlots := by
  intro slot member
  exact orderly.slots e slot ((KeyShard.mem_reshard _ num slot).mpr (Or.inr member))

omit [DecidableEq ι] in
theorem Orderly.rewriteRecord_storable (orderly : d.Orderly) (e : ι) (num : Int) :
    (Member.rewriteRecord ⟨((d.node e).shard.reshard num).1, d.record e⟩).Storable := by
  intro text record
  unfold Member.rewriteRecord at record
  dsimp only at record
  split at record
  · obtain rfl := Option.some.inj record
    intro nul
    rcases mem_join nul with colon | ⟨slot, member, inSlot⟩
    · exact absurd colon (by decide)
    · have known := orderly.slots e slot ((KeyShard.mem_reshard _ num slot).mpr (Or.inl member))
      exact nulFree_of_mem_allSlots known inSlot
  · cases record

/-- The destination reads the slots off the `ADDSLOTS` line. -/
theorem sendSlots_ok {slots : List RStr} (known : ∀ slot ∈ slots, slot ∈ allSlots)
    (storable : (d.member dst).Storable) :
    d.sendSlots dst slots = (.ok (), d.setMember dst ((d.member dst).addSlots slots)) := by
  have added : ((d.member dst).addSlots slots).Storable :=
    storable.addSlots fun slot member => nulFree_of_mem_allSlots (known slot member)
  rw [sendSlots]
  simp only [splitSpace_wireLine_join known, unstorable_eq added, Member.operate,
    Member.store_of_clean added]
  rfl

/-- Where a slot is once the taken ones have been added at the destination. -/
theorem mem_slots_handed (num : Int) {m : Member}
    (shard : m.shard = ((d.node e).shard.reshard num).1) (i : ι) (slot : RStr) :
    slot ∈ (((d.setMember e m).setMember dst (((d.setMember e m).member dst).addSlots
        ((d.node e).shard.reshard num).2.1)).node i).shard.slots ↔
      (slot ∈ (d.node i).shard.slots ∧ ¬ (i = e ∧ slot ∈ ((d.node e).shard.reshard num).2.1)) ∨
        (i = dst ∧ slot ∈ ((d.node e).shard.reshard num).2.1) := by
  have split := (d.node e).shard.mem_reshard num slot
  have apart := @KeyShard.not_mem_reshard_both (d.node e).shard num slot
  rw [node_setMember]
  by_cases isDst : i = dst
  · rw [if_pos isDst, isDst]
    change slot ∈ setMerge ((d.setMember e m).node dst).shard.slots _ ↔ _
    rw [mem_setMerge, node_setMember]
    by_cases isE : dst = e
    · rw [if_pos isE, isE, shard]
      tauto
    · rw [if_neg isE]
      tauto
  · rw [if_neg isDst, node_setMember]
    by_cases isE : i = e
    · subst isE
      rw [if_pos rfl]
      change slot ∈ m.shard.slots ↔ _
      rw [shard]
      tauto
    · rw [if_neg isE]
      tauto

theorem handed_over (wf : ∀ i, (d.node i).Wf) (num : Int) {m : Member}
    (shard : m.shard = ((d.node e).shard.reshard num).1) :
    Handed d ((d.setMember e m).setMember dst
      (((d.setMember e m).member dst).addSlots ((d.node e).shard.reshard num).2.1)) e dst num where
  wf i := by
    rw [node_setMember, node_setMember, node_setMember]
    split_ifs
    · exact ⟨(wf e).held, (wf e).allocated⟩
    · exact ⟨(wf dst).held, (wf dst).allocated⟩
    · exact ⟨(wf e).held, (wf e).allocated⟩
    · exact wf i
  content i := by
    rw [node_setMember, node_setMember, node_setMember]
    split_ifs with isDst isE isE
    · rw [isDst, isE]
      rfl
    · rw [isDst]
      rfl
    · rw [isE]
      rfl
    · rfl
  owns i k := mem_slots_handed num shard i (slotOf k)

/-- A run comes to the loop over the keys, with the slots at the destination. -/
theorem Orderly.migrate_stored (orderly : d.Orderly) (known : dst ∈ d.cluster.table e)
    (reachable : d.refuses dst = false) (num : Int) :
    ∃ m : Member, m.shard = ((d.node e).shard.reshard num).1 ∧ m.Storable ∧
      ∀ fuel, d.migrate fuel e num dst =
      ((d.setMember e m).setMember dst
        (((d.setMember e m).member dst).addSlots ((d.node e).shard.reshard num).2.1)).copyKeys
          fuel e dst ((d.node e).shard.reshard num).2.2 := by
  have left := orderly.rewriteRecord_storable e num
  have slots := orderly.taken_slots e num
  generalize kept : Member.rewriteRecord ⟨((d.node e).shard.reshard num).1, d.record e⟩ = m at left
  have shard : m.shard = ((d.node e).shard.reshard num).1 := by
    rw [← kept]
    rfl
  have storable : ((d.setMember e m).member dst).Storable := by
    by_cases same : dst = e
    · subst same
      intro text record
      refine left text ?_
      simpa [member, setMember, setNode] using record
    · intro text record
      refine orderly.storable dst text ?_
      simpa [member, setMember, setNode, same] using record
  have sent := sendSlots_ok slots storable
  have taken : d.takeSlots e num = (.ok (), d.setMember e m,
      ((d.node e).shard.reshard num).2.1, ((d.node e).shard.reshard num).2.2) := by
    rw [takeSlots]
    simp only [kept, unstorable_eq left, Member.store_of_clean left]
    rfl
  have reached : ¬ (dst ∉ (d.setMember e m).cluster.table e ∨ (d.setMember e m).refuses dst) := by
    intro either
    rcases either with unknown | refuses
    · exact unknown known
    · have refuses' : d.refuses dst = true := refuses
      rw [reachable] at refuses'
      cases refuses'
  refine ⟨m, shard, left, ?_⟩
  intro fuel
  rw [migrate, taken]
  simp only [if_neg reached, sent]

theorem Orderly.migrate_sent (orderly : d.Orderly) (known : dst ∈ d.cluster.table e)
    (reachable : d.refuses dst = false) (num : Int) :
    ∃ m : Member, m.shard = ((d.node e).shard.reshard num).1 ∧ ∀ fuel, d.migrate fuel e num dst =
      ((d.setMember e m).setMember dst
        (((d.setMember e m).member dst).addSlots ((d.node e).shard.reshard num).2.1)).copyKeys
          fuel e dst ((d.node e).shard.reshard num).2.2 := by
  obtain ⟨m, shard, _, ran⟩ := orderly.migrate_stored known reachable num
  exact ⟨m, shard, ran⟩

theorem Orderly.migrate_eq (orderly : d.Orderly) (known : dst ∈ d.cluster.table e)
    (reachable : d.refuses dst = false) (num : Int) :
    ∃ d', Handed d d' e dst num ∧ ∀ fuel, d.migrate fuel e num dst =
      d'.copyKeys fuel e dst ((d.node e).shard.reshard num).2.2 := by
  obtain ⟨m, shard, ran⟩ := orderly.migrate_sent known reachable num
  exact ⟨_, handed_over orderly.wf num shard, ran⟩

/-! ## Keys at home -/

/-- Node `i` has the key with this value and the slot of the key; no other node has
either. -/
structure AtHome (d : Deployment ι) (i : ι) (k : CStr) (v : Stored) : Prop where
  content : (d.node i).content k = some v
  owns : d.Owns i k
  alone : ∀ j, j ≠ i → (d.node j).content k = none ∧ ¬ d.Owns j k

/-- The run returns, and every key that was stored before is at the node that now owns
its slot, with the value it had, and nowhere else. -/
def MigratesAll (d : Deployment ι) (e : ι) (num : Int) (dst : ι) : Prop :=
  ∃ bound, ∀ fuel, bound ≤ fuel → ∃ d', d.migrate fuel e num dst = some (.ok true, d') ∧
    ∀ i k v, (d.node i).content k = some v → ∃ j, d'.AtHome j k v

/-- The destination is known and can be reached.  A stored key whose slot is taken is
tracked, and the destination is another node that reads its texts as they were
meant. -/
structure Movable (d : Deployment ι) (e : ι) (num : Int) (dst : ι) : Prop where
  known : dst ∈ d.cluster.table e
  reachable : d.refuses dst = false
  carried : ∀ k v, (d.node e).content k = some v → d.Taken e num k →
    dst ≠ e ∧ k.toR ∈ (d.node e).shard.keys ∧ Carried k.toR v

omit [DecidableEq ι] in
/-- What stays where it is stays at home. -/
theorem Orderly.atHome_of_same (orderly : d.Orderly) {num : Int} {i : ι} {v : Stored}
    (handed : Handed d d' e dst num) (there : (d.node i).content k = some v)
    (kept : ¬ d.Taken e num k) (same : ∀ j, (d''.node j).content k = (d'.node j).content k)
    (slots : ∀ j, (d''.node j).shard.slots = (d'.node j).shard.slots) : d''.AtHome i k v where
  content := by rw [same, handed.content, there]
  owns := by
    rw [Owns, slots]
    exact (handed.owns i k).mpr (Or.inl ⟨orderly.stored i k v there, fun moved => kept moved.2⟩)
  alone j other := by
    have owner := orderly.stored i k v there
    refine ⟨?_, ?_⟩
    · rw [same, handed.content, Option.eq_none_iff_forall_ne_some]
      intro w elsewhere
      exact other (orderly.sole j i _ (orderly.stored j k w elsewhere) owner)
    · rw [Owns, slots]
      intro owns
      rcases (handed.owns j k).mp owns with ⟨had, _⟩ | ⟨_, moved⟩
      · exact other (orderly.sole j i _ had owner)
      · exact kept moved

/-- What has gone to the destination is at home there. -/
theorem Orderly.atHome_of_moved (orderly : d.Orderly) {num : Int} {v : Stored}
    (handed : Handed d d' e dst num) (there : (d.node e).content k = some v)
    (taken : d.Taken e num k) (moved : Moved d' d'' e dst ks) (member : k ∈ ks) :
    d''.AtHome dst k v where
  content := by
    rw [moved.target, if_pos member, handed.content, there, Option.some_or]
  owns := by
    rw [Owns, moved.slots]
    exact (handed.owns dst k).mpr (Or.inr ⟨rfl, taken⟩)
  alone j other := by
    have owner := orderly.stored e k v there
    refine ⟨?_, ?_⟩
    · by_cases isE : j = e
      · rw [isE, moved.source, if_pos member]
      · rw [moved.others j isE other, handed.content, Option.eq_none_iff_forall_ne_some]
        intro w elsewhere
        exact isE (orderly.sole j e _ (orderly.stored j k w elsewhere) owner)
    · rw [Owns, moved.slots]
      intro owns
      rcases (handed.owns j k).mp owns with ⟨had, stays⟩ | ⟨isDst, _⟩
      · exact stays ⟨orderly.sole j e _ had owner, taken⟩
      · exact other isDst

/-- The keys that `reshard` takes, as C strings. -/
theorem exists_takenKeys (shard : KeyShard) (num : Int) :
    ∃ ks : List CStr, ks.map CStr.toR = (shard.reshard num).2.2 ∧ ks.Nodup ∧
      ∀ k, k ∈ ks ↔ k.toR ∈ shard.keys ∧ slotOf k ∈ (shard.reshard num).2.1 := by
  have proper : ∀ key ∈ (shard.reshard num).2.2, key ∈ Set.range CStr.toR := by
    intro key member
    have inside := (List.mem_filter.mp member).2
    unfold KeyShard.inSlots at inside
    cases known : stringValueCStr key with
    | ok k => exact ⟨k, toR_of_stringValueCStr known⟩
    | error r => simp [keyToSlot, crc16, known, Except.map] at inside
  obtain ⟨ks, same⟩ : (shard.reshard num).2.2 ∈ Set.range (List.map CStr.toR) := by
    rw [Set.range_list_map]
    exact proper
  have nodup : (shard.reshard num).2.2.Nodup := shard.keysNodup.filter _
  rw [← same] at nodup
  refine ⟨ks, same, nodup.of_map CStr.toR, ?_⟩
  intro k
  have injective : Function.Injective CStr.toR := by
    intro found found' equal
    obtain ⟨bytes, _⟩ := found
    obtain ⟨bytes', _⟩ := found'
    obtain rfl : bytes = bytes' := equal
    rfl
  rw [← List.mem_map_of_injective injective, same]
  change k.toR ∈ shard.keys.filter (KeyShard.inSlots (shard.reshard num).2.1) ↔ _
  rw [List.mem_filter, KeyShard.inSlots, keyToSlot_toR, decide_eq_true_iff]

/-- Some number of rounds is enough for every container. -/
theorem exists_rounds (n : Node) (ks : List CStr) :
    ∃ bound, ∀ k ∈ ks, ∀ c, n.content k = some (.container c) → c.size < bound := by
  induction ks with
  | nil => exact ⟨0, fun k member => by cases member⟩
  | cons k ks ih =>
      obtain ⟨bound, enough⟩ := ih
      obtain ⟨size, here⟩ : ∃ size, ∀ c, n.content k = some (.container c) → c.size ≤ size := by
        rcases content : n.content k with - | ⟨s | c⟩
        · exact ⟨0, fun c same => by cases same⟩
        · exact ⟨0, fun c same => by cases same⟩
        · refine ⟨c.size, fun c' same => ?_⟩
          cases same
          exact le_rfl
      refine ⟨max bound (size + 1), ?_⟩
      intro k' member c there
      rcases List.mem_cons.mp member with rfl | later
      · have small := here c there
        omega
      · have small := enough k' later c there
        omega

/-- In an orderly cluster a movable run moves everything that was stored. -/
theorem migratesAll_of_movable (orderly : d.Orderly) {num : Int} (movable : d.Movable e num dst) :
    d.MigratesAll e num dst := by
  obtain ⟨d', handed, run⟩ := orderly.migrate_eq movable.known movable.reachable num
  obtain ⟨ks, keys, nodup, mem_ks⟩ := exists_takenKeys (d.node e).shard num
  obtain ⟨bound, rounds⟩ := exists_rounds (d.node e) ks
  refine ⟨bound, fun fuel enough => ?_⟩
  rw [run, ← keys]
  by_cases self : dst = e
  · -- nothing that is stored is taken
    have nothing : ∀ k ∈ ks, (d'.node e).db k = none := by
      intro k member
      have taken : d.Taken e num k := ((mem_ks k).mp member).2
      rcases (handed.wf e).content_cases k with ⟨missing, _⟩ | ⟨s, _, there⟩ | ⟨id, o, holds⟩
      · exact missing
      · rw [handed.content] at there
        exact absurd self (movable.carried k _ there taken).1
      · have there := holds.content
        rw [handed.content] at there
        exact absurd self (movable.carried k _ there taken).1
    refine ⟨d', copyKeys_nothing nothing, ?_⟩
    intro i k v there
    refine ⟨i, orderly.atHome_of_same handed there ?_ (fun _ => rfl) fun _ => rfl⟩
    intro taken
    have atE : i = e := orderly.sole i e _ (orderly.stored i k v there)
      ((KeyShard.mem_reshard _ num _).mpr (Or.inr taken))
    exact absurd self (movable.carried k v (atE ▸ there) taken).1
  · have ready : Ready d' e dst fuel ks := by
      refine ⟨handed.wf, ?_, ?_, ?_⟩
      · intro k member
        rw [← owns_iff]
        exact (handed.owns dst k).mpr (Or.inr ⟨rfl, ((mem_ks k).mp member).2⟩)
      · intro k member v there
        rw [handed.content] at there ⊢
        refine ⟨(movable.carried k v there ((mem_ks k).mp member).2).2.2, ?_⟩
        rw [Option.eq_none_iff_forall_ne_some]
        intro w elsewhere
        exact self (orderly.sole dst e _ (orderly.stored dst k w elsewhere)
          (orderly.stored e k v there))
      · intro k member c there
        rw [handed.content] at there
        exact lt_of_lt_of_le (rounds k member c there) enough
    obtain ⟨d'', ran, moved⟩ := ready.copyKeys self nodup
    refine ⟨d'', ran, ?_⟩
    intro i k v there
    by_cases taken : d.Taken e num k
    · have atE : i = e := orderly.sole i e _ (orderly.stored i k v there)
        ((KeyShard.mem_reshard _ num _).mpr (Or.inr taken))
      subst atE
      have tracked := (movable.carried k v there taken).2.1
      exact ⟨dst, orderly.atHome_of_moved handed there taken moved
        ((mem_ks k).mpr ⟨tracked, taken⟩)⟩
    · have outside : k ∉ ks := fun member => taken ((mem_ks k).mp member).2
      refine ⟨i, orderly.atHome_of_same handed there taken ?_ moved.slots⟩
      intro j
      by_cases isE : j = e
      · rw [isE, moved.source, if_neg outside]
      · by_cases isDst : j = dst
        · rw [isDst, moved.target, if_neg outside]
        · rw [moved.others j isE isDst]

/-- A string sent to the node it is on is stored again and then deleted. -/
theorem copyKeys_self {s : CStr} (wf : (d.node e).Wf)
    (isLocal : (d.node e).shard.includes k.toR = .ok true)
    (there : (d.node e).content k = some (.string s)) (carried : Carried k.toR (.string s))
    (fuel : Nat) :
    ∃ d', d.copyKeys fuel e e [k.toR] = some (.ok true, d') ∧ (d'.node e).content k = none ∧
      ∀ j, j ≠ e → d'.node j = d.node j := by
  have known := stringValueCStr_toR k
  have found : (d.node e).db k = some (.string s) := by
    rcases wf.content_cases k with ⟨_, nothing⟩ | ⟨s', found, content⟩ | ⟨id, o, holds⟩
    · rw [there] at nothing
      cases nothing
    · rw [there] at content
      cases content
      exact found
    · have content := holds.content
      rw [there] at content
      cases content
  obtain ⟨r, t, ran, wf', _⟩ := wf.run_set isLocal s []
  have sent := query_ok carried rfl ran fuel
  obtain ⟨n, deleted, changes⟩ := wf'.rbDbDelete known
  have gone : (d.setNode e t).deleteKey e k.toR = (.ok (), d.setNode e n) := by
    have atE : (d.setNode e t).node e = t := by rw [node_setNode, if_pos rfl]
    rw [deleteKey, atE, deleted, setNode_setNode]
  refine ⟨d.setNode e n, ?_, ?_, ?_⟩
  · rw [copyKeys, Node.rbDbRef_string known found]
    simp only [copyValue, sent, gone, copyKeys]
  · rw [node_setNode, if_pos rfl, changes.content, Function.update_self]
  · intro j other
    rw [node_setNode, if_neg other]

theorem nulFree_k : (0 : UInt8) ∉ lit "k" := by decide

def keyOfHolder : CStr := ⟨lit "k", nulFree_k⟩

theorem nulFree_v : (0 : UInt8) ∉ lit "v" := by decide

theorem nodup_slotOfHolder : [lit "7629"].Nodup := by decide

theorem nodup_keysOfHolder : [lit "k"].Nodup := by decide

/-- Two nodes that know each other.  `false` has the slot of `k` and stores a string
under it. -/
def holder : Deployment Bool where
  cluster :=
    { node := fun i =>
        if i then
          { db := fun _ => none
            objs := fun _ => none
            fresh := 0
            shard := ⟨[], [], List.nodup_nil, List.nodup_nil⟩
            loadState := true
            persistLevel := 0
            queue := [] }
        else
          { db := fun k => if k = keyOfHolder then some (.string ⟨lit "v", nulFree_v⟩) else none
            objs := fun _ => none
            fresh := 0
            shard := ⟨[lit "7629"], [lit "k"], nodup_slotOfHolder, nodup_keysOfHolder⟩
            loadState := true
            persistLevel := 0
            queue := [] }
      table := fun _ => [false, true] }
  record := fun _ => none
  refuses := fun _ => false

theorem slotOf_keyOfHolder : slotOf keyOfHolder = lit "7629" := by decide +kernel

theorem content_holder {i : Bool} {k : CStr} {v : Stored}
    (there : (holder.node i).content k = some v) :
    i = false ∧ k = keyOfHolder ∧ v = .string ⟨lit "v", nulFree_v⟩ := by
  cases i with
  | true => cases there
  | false =>
      by_cases same : k = keyOfHolder
      · subst same
        cases there
        exact ⟨rfl, rfl, rfl⟩
      · have missing : (holder.node false).db k = none := if_neg same
        rw [Node.content, missing] at there
        cases there

theorem orderly_holder : holder.Orderly where
  wf i := by
    refine ⟨?_, ?_⟩
    · intro k id entry
      cases i with
      | true => cases entry
      | false =>
          by_cases same : k = keyOfHolder
          · subst same
            cases entry
          · have missing : (holder.node false).db k = none := if_neg same
            rw [missing] at entry
            cases entry
    · intro id o found
      cases i with
      | true => cases found
      | false => cases found
  slots i slot member := by
    cases i with
    | true => cases member
    | false =>
        obtain rfl := List.mem_singleton.mp member
        rw [← slotOf_keyOfHolder]
        exact keyToSlot_mem_allSlots (keyToSlot_toR keyOfHolder)
  sole i j slot first second := by
    cases i with
    | true => cases first
    | false =>
        cases j with
        | true => cases second
        | false => rfl
  stored i k v there := by
    obtain ⟨rfl, rfl, _⟩ := content_holder there
    rw [Owns, slotOf_keyOfHolder]
    exact List.mem_singleton_self _
  storable i text record := by cases record

theorem movable_holder : holder.Movable false 1 true where
  known := by decide
  reachable := rfl
  carried k v there _ := by
    obtain ⟨_, rfl, rfl⟩ := content_holder there
    exact ⟨by decide, List.mem_singleton_self _, by unfold Carried; decide +kernel⟩

theorem migratesAll_holder : holder.MigratesAll false 1 true :=
  migratesAll_of_movable orderly_holder movable_holder

/-- Sent to the node it is on, the string is stored again and then deleted. -/
theorem migrate_to_itself_loses : ¬ ∀ (d : Deployment Bool) (e : Bool) (num : Int) (dst : Bool),
    d.Orderly → dst ∈ d.cluster.table e → d.refuses dst = false → d.MigratesAll e num dst := by
  intro claim
  obtain ⟨bound, returns⟩ := claim holder false 1 false orderly_holder (by decide) rfl
  obtain ⟨d', ran, home⟩ := returns bound le_rfl
  have known : false ∈ holder.cluster.table false := by decide
  obtain ⟨d₁, handed, run⟩ := orderly_holder.migrate_eq known rfl 1
  have keys : ((holder.node false).shard.reshard 1).2.2 = [keyOfHolder.toR] := by decide +kernel
  have taken : holder.Taken false 1 keyOfHolder := by
    rw [Taken, slotOf_keyOfHolder]
    decide
  have isLocal := owns_iff.mp ((handed.owns false keyOfHolder).mpr (Or.inr ⟨rfl, taken⟩))
  have there : (holder.node false).content keyOfHolder = some (.string ⟨lit "v", nulFree_v⟩) := rfl
  have carried := (movable_holder.carried keyOfHolder _ there taken).2.2
  rw [← handed.content] at there
  obtain ⟨d₂, ran₂, lost, others⟩ := copyKeys_self (handed.wf false) isLocal there carried bound
  rw [run, keys, ran₂] at ran
  cases ran
  obtain ⟨j, atHome⟩ := home false keyOfHolder _ rfl
  have content := atHome.content
  cases j with
  | false =>
      rw [lost] at content
      cases content
  | true =>
      rw [others true (by decide), handed.content] at content
      cases content

end Deployment

end XFireDB
