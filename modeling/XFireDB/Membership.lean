import XFireDB.Meet

/-!
# Membership agreement

Knowledge spreads by one packet a fresh node.  If each packet is built by an
introducer that knows the fresh nodes of all earlier packets, everybody hears of
everybody.
-/

namespace XFireDB

open Lib

/-! ## Packets -/

/-- The group of a packet that tells of a host. -/
def Host.group (h : Host) : Gossip := ⟨h.id, h.addr, natToS h.port, gossipCheck⟩

def Host.words (h : Host) : List RStr := [h.id, h.addr, natToS h.port, gossipCheck]

theorem Host.isWord (h : Host) : ∀ w ∈ h.words, IsWord w := by
  have check : IsWord gossipCheck := by
    simp [IsWord, gossipCheck, lit, isSpace]
  simp [Host.words, h.idWord, h.addrWord, isWord_natToS, check]

theorem gossips_words (hosts : List Host) :
    gossips (hosts.flatMap Host.words) = hosts.map Host.group := by
  induction hosts with
  | nil => rfl
  | cons h hosts ih =>
      rw [List.flatMap_cons, List.map_cons, ← ih]
      rfl

theorem spaced_eq_join (w : RStr) (words : List RStr) :
    w ++ words.flatMap (fun w => lit " " ++ w) = join (lit " ") (w :: words) := by
  induction words generalizing w with
  | nil => simp [join]
  | cons v words ih =>
      rw [List.flatMap_cons, List.append_assoc (lit " ") v, ih v, join, join,
        List.intercalate_cons_cons, List.append_assoc]

theorem lstrip_spaced {words : List RStr} (areWords : ∀ w ∈ words, IsWord w) :
    Directory.lstrip (words.flatMap fun w => lit " " ++ w) = join (lit " ") words := by
  cases words with
  | nil => rfl
  | cons w words =>
      have first := areWords w List.mem_cons_self
      cases w with
      | nil => exact absurd rfl first.1
      | cons c w =>
          have space : isSpace 32 = true := by decide
          have notSpace : ¬ isSpace c = true := by
            rw [first.2 c List.mem_cons_self]
            exact Bool.false_ne_true
          rw [← spaced_eq_join]
          change (32 :: c :: (w ++ _)).dropWhile isSpace = _
          rw [List.dropWhile_cons_of_pos space, List.dropWhile_cons_of_neg notSpace]
          rfl

variable {ι : Type} [DecidableEq ι] {net : Network ι} {d : Directory} {i x y : ι}
  {xs : List ι}

/-- The entry of host `x` in the table of host `i`. -/
def Network.entry (net : Network ι) (i x : ι) : RStr × Peer :=
  ((net.host x).id, ⟨(net.host x).addr, (net.host x).port, x = i⟩)

/-- The packet of a table of hosts has a group for each of them. -/
theorem groups_packet (table : d.nodes = xs.map (net.entry i)) :
    groups d.packet = xs.map fun x => (net.host x).group := by
  have words : ∀ w ∈ (xs.map net.host).flatMap Host.words, IsWord w := by
    intro w member
    obtain ⟨h, _, inside⟩ := List.mem_flatMap.mp member
    exact h.isWord w inside
  have spaced : (d.nodes.flatMap fun n => lit " " ++ n.1 ++ lit " " ++ n.2.addr ++ lit " " ++
      intToS n.2.port ++ lit " " ++ gossipCheck) =
        ((xs.map net.host).flatMap Host.words).flatMap fun w => lit " " ++ w := by
    rw [table, List.flatMap_map, List.flatMap_map, List.flatMap_assoc]
    congr 1
    funext x
    simp [Network.entry, Host.words, intToS]
  rw [groups, Directory.packet, spaced, lstrip_spaced words, wireLine_join words,
    splitSpace_join words, gossips_words, List.map_map]
  rfl

/-! ## The directory of a node -/

namespace Directory

/-- The node has an entry for the host. -/
def Knows (net : Network ι) (d : Directory) (x : ι) : Prop :=
  d.nodes.lookup (net.host x).id ≠ none

/-- The ids of the stored lines. -/
def listed (d : Directory) : List RStr :=
  (d.dbnodes.getD []).map fun line => (splitSpace line).headD []

/-- The stored list has the id of every other node of the table, each once. -/
def Recorded (d : Directory) : Prop :=
  d.listed.Nodup ∧ ∀ id, id ∈ d.listed ↔ id ≠ d.own ∧ d.nodes.lookup id ≠ none

/-- The directory of host `i`: entries of hosts, its own one among them. -/
structure Tidy (net : Network ι) (i : ι) (d : Directory) : Prop where
  own : d.own = (net.host i).id
  self : Knows net d i
  entries : ∃ xs : List ι, d.nodes = xs.map (net.entry i)
  recorded : d.Recorded

theorem lookup_ne_none {id : RStr} : d.nodes.lookup id ≠ none ↔ ∃ n ∈ d.nodes, n.1 = id := by
  rw [Option.ne_none_iff_isSome, List.lookup_isSome_iff]
  constructor
  · intro found
    obtain ⟨n, member, same⟩ := found
    exact ⟨n, member, (eq_of_beq same).symm⟩
  · intro found
    obtain ⟨n, member, rfl⟩ := found
    exact ⟨n, member, beq_self_eq_true _⟩

theorem knows_iff (table : d.nodes = xs.map (net.entry i)) : Knows net d x ↔ x ∈ xs := by
  unfold Knows
  rw [lookup_ne_none, table]
  constructor
  · intro found
    obtain ⟨n, member, same⟩ := found
    obtain ⟨y, inside, rfl⟩ := List.mem_map.mp member
    exact net.ids same ▸ inside
  · intro inside
    exact ⟨_, List.mem_map_of_mem inside, rfl⟩

theorem head_nodeLine (h : Host) (port : Nat) :
    (splitSpace (nodeLine h.id h.addr (natToS port))).headD [] = h.id := by
  have line : nodeLine h.id h.addr (natToS port) = join (lit " ") [h.id, h.addr, natToS port] := by
    simp [nodeLine, join, List.intercalate_cons_cons]
  have words : ∀ w ∈ [h.id, h.addr, natToS port], IsWord w := by
    simp [h.idWord, h.addrWord, isWord_natToS]
  rw [line, splitSpace_join words]
  rfl

theorem clean_nodeLine (h : Host) (port : Nat) : 0 ∉ nodeLine h.id h.addr (natToS port) := by
  simp [nodeLine, lit, h.idClean, h.addrClean, nulFree_natToS]

/-- A host that is not known yet gets a line and an entry. -/
theorem Tidy.enter (tidy : d.Tidy net i) (fresh : ¬ Knows net d x) :
    let h := net.host x
    let d' := Directory.addNode ⟨d.own, d.nodes,
      some (d.dbnodes.getD [] ++ [nodeLine h.id h.addr (natToS h.port)])⟩ h.id h.addr h.port
    d'.Tidy net i ∧ d'.dbnodes ≠ none ∧ ∀ y, Knows net d' y ↔ Knows net d y ∨ y = x := by
  intro h d'
  have other : x ≠ i := fun same => fresh (same ▸ tidy.self)
  obtain ⟨xs, table⟩ := tidy.entries
  have outside : x ∉ xs := fun inside => fresh ((knows_iff table).mpr inside)
  have table' : d'.nodes = (xs ++ [x]).map (net.entry i) := by
    have new : h.id ∉ d.nodes.map Prod.fst := by
      intro member
      obtain ⟨n, inside, same⟩ := List.mem_map.mp member
      exact fresh (lookup_ne_none.mpr ⟨n, inside, same⟩)
    change put d.nodes h.id _ = _
    rw [put, if_neg new, List.map_append, ← table]
    simp [Network.entry, other, h]
  have knows : ∀ y, Knows net d' y ↔ Knows net d y ∨ y = x := by
    intro y
    rw [knows_iff table', knows_iff table, List.mem_append, List.mem_singleton]
  have listed_ : d'.listed = d.listed ++ [h.id] := by
    change (d.dbnodes.getD [] ++ [_]).map _ = _
    rw [List.map_append, List.map_singleton, head_nodeLine]
    rfl
  have looked : ∀ id, d'.nodes.lookup id ≠ none ↔ d.nodes.lookup id ≠ none ∨ id = h.id := by
    intro id
    change (put d.nodes h.id _).lookup id ≠ none ↔ _
    rw [lookup_put]
    by_cases here : id = h.id
    · simp [here]
    · simp [here]
  obtain ⟨nodup, ids⟩ := tidy.recorded
  refine ⟨⟨tidy.own, (knows i).mpr (Or.inl tidy.self), ⟨_, table'⟩, ?_, ?_⟩,
    Option.some_ne_none _, knows⟩
  · rw [listed_, List.nodup_append]
    refine ⟨nodup, List.nodup_singleton _, ?_⟩
    intro id member id' single same
    obtain rfl := same
    rw [List.mem_singleton] at single
    have known := ((ids id).mp member).2
    rw [single] at known
    exact fresh known
  · intro id
    rw [listed_, List.mem_append, List.mem_singleton, ids, looked]
    change (id ≠ d.own ∧ _) ∨ _ ↔ id ≠ d.own ∧ _
    have apart : h.id ≠ d.own := fun same => other (net.ids (same.trans tidy.own))
    constructor
    · intro either
      rcases either with ⟨notOwn, known⟩ | rfl
      · exact ⟨notOwn, Or.inl known⟩
      · exact ⟨apart, Or.inr rfl⟩
    · intro found
      rcases found with ⟨notOwn, known | new⟩
      · exact Or.inl ⟨notOwn, known⟩
      · exact Or.inr new

/-- `cluster_meet` takes the fresh node in, and so does `auth_node` with the introducer. -/
theorem Tidy.enlist (tidy : d.Tidy net i) (fresh : ¬ Knows net d x) :
    let h := net.host x
    let d' := d.enlist h.id h.addr (natToS h.port) h.port
    d'.Tidy net i ∧ d'.dbnodes ≠ none ∧ ∀ y, Knows net d' y ↔ Knows net d y ∨ y = x := by
  intro h d'
  have entered := tidy.enter fresh
  have clean := clean_nodeLine h h.port
  have same : d' = Directory.addNode ⟨d.own, d.nodes,
      some (d.dbnodes.getD [] ++ [nodeLine h.id h.addr (natToS h.port)])⟩ h.id h.addr h.port := by
    simp only [d', Directory.enlist, pushLine, stringValueCStr, dif_neg clean, CStr.toR]
  rw [same]
  exact entered

theorem Tidy.learn (tidy : d.Tidy net i) (stored : d.dbnodes ≠ none) (x : ι) :
    ∃ d', d.learn (net.host x).group = (.ok (), d') ∧ d'.Tidy net i ∧ d'.dbnodes ≠ none ∧
      ∀ y, Knows net d' y ↔ Knows net d y ∨ y = x := by
  have clean := clean_nodeLine (net.host x) (net.host x).port
  rcases d.learn_cases (net.host x).group with ⟨p, known, same⟩ | ⟨missing, lines, here, _, new⟩ |
    ⟨_, unstorable, _⟩
  · refine ⟨d, same, tidy, stored, ?_⟩
    intro y
    refine ⟨Or.inl, ?_⟩
    intro either
    rcases either with before | rfl
    · exact before
    · have entry : d.nodes.lookup (net.host y).id = some p := known
      unfold Knows
      rw [entry]
      exact Option.some_ne_none p
  · have entered := tidy.enter (fun known => known missing)
    rw [here] at entered
    refine ⟨_, new, ?_⟩
    simp only [Host.group, wordToI_natToS]
    exact entered
  · exact absurd ⟨stored, clean⟩ unstorable

/-- A packet of hosts makes them known. -/
theorem Tidy.gossipLoop (tidy : d.Tidy net i) (stored : d.dbnodes ≠ none) (ys : List ι) :
    let d' := (d.gossipLoop (ys.map fun y => (net.host y).group)).2
    d'.Tidy net i ∧ d'.dbnodes ≠ none ∧ ∀ y, Knows net d' y ↔ Knows net d y ∨ y ∈ ys := by
  induction ys generalizing d with
  | nil => exact ⟨tidy, stored, fun y => by simp [Directory.gossipLoop]⟩
  | cons x ys ih =>
      obtain ⟨d', learned, tidy', stored', knows'⟩ := tidy.learn stored x
      have one : d.gossipOne (net.host x).group = (.ok (), d') := by
        have notAdd : gossipCheck ≠ gossipAdd := by decide
        have notDel : gossipCheck ≠ gossipDel := by decide
        have notMove : gossipCheck ≠ gossipMove := by decide
        simp only [gossipOne, Host.group, notAdd, notDel, notMove, if_false, if_true]
        exact learned
      obtain ⟨tidy'', stored'', knows''⟩ := ih tidy' stored'
      simp only [List.map_cons, Directory.gossipLoop, one]
      refine ⟨tidy'', stored'', ?_⟩
      intro y
      rw [knows'', knows', List.mem_cons]
      exact or_assoc

/-- While the table is being iterated a packet without news changes nothing. -/
theorem gossipWhileSending_known {gs : List Gossip}
    (known : ∀ g ∈ gs, d.nodes.lookup g.id ≠ none) : d.gossipWhileSending gs = d := by
  induction gs with
  | nil => rfl
  | cons g gs ih =>
      have here := known g List.mem_cons_self
      rw [gossipWhileSending]
      split
      · exact ih fun g' member => known g' (List.mem_cons_of_mem g member)
      · rename_i missing
        exact absurd missing here

omit [DecidableEq ι] in
/-- A fresh node lets the introducer in if it does not know it. -/
theorem authNode_source {a : ι} {d' : Directory} {correct : Bool}
    (let_in : d.authNode correct (splitSpace (wireLine (Membership.sourceLine net a))) = some d') :
    ¬ Knows net d a ∧
      d' = d.enlist (net.host a).id (net.host a).addr (natToS (net.host a).port)
        (net.host a).port := by
  have words : ∀ w ∈ [(net.host a).id, net.secret, (net.host a).addr, natToS (net.host a).port],
      IsWord w := by
    simp [(net.host a).idWord, net.secretWord, (net.host a).addrWord, isWord_natToS]
  rw [Membership.sourceLine, wireLine_join words, splitSpace_join words] at let_in
  rw [authNode] at let_in
  split at let_in
  · cases let_in
  · rename_i admitted
    rw [not_or] at admitted
    rw [wordToI_natToS] at let_in
    exact ⟨admitted.1, (Option.some.inj let_in).symm⟩

theorem mem_targets (table : d.nodes = xs.map (net.entry i)) {e : RStr × Int} :
    e ∈ d.targets ↔ ∃ y ∈ xs, y ≠ i ∧ e = Membership.endpoint net y := by
  unfold targets
  rw [table]
  simp only [List.mem_map, List.mem_filter]
  constructor
  · intro found
    obtain ⟨n, ⟨⟨y, inside, rfl⟩, far⟩, rfl⟩ := found
    exact ⟨y, inside, by simpa [Network.entry] using far, rfl⟩
  · intro found
    obtain ⟨y, inside, far, rfl⟩ := found
    exact ⟨_, ⟨⟨y, inside, rfl⟩, by simpa [Network.entry] using far⟩, rfl⟩

/-- What is needed of a stored list holds as soon as another node is known. -/
theorem Tidy.stored (tidy : d.Tidy net i) (known : Knows net d x) (other : x ≠ i) :
    d.dbnodes ≠ none := by
  intro missing
  have apart : (net.host x).id ≠ d.own := fun same => other (net.ids (same.trans tidy.own))
  have member := (tidy.recorded.2 _).mpr ⟨apart, known⟩
  rw [listed, missing] at member
  cases member

end Directory

namespace Meet

/-- The fresh node of a command. -/
def target : Meet ι → Option ι
  | .idle => none
  | .authed x | .added x | .built x _ | .sending x _ _ | .done x => some x

/-- The fresh node of a command that has built its packet. -/
def spread : Meet ι → Option ι
  | .idle | .authed _ | .added _ => none
  | .built x _ | .sending x _ _ | .done x => some x

/-- The packet of a command that has not finished. -/
def packet : Meet ι → Option RStr
  | .built _ packet | .sending _ packet _ => some packet
  | _ => none

end Meet

namespace Membership

variable {old : ι → Bool} {s s' : Membership ι} {a : ι}

/-- All nodes of the cluster have the same ids in their tables, and their stored lists
have the same ids but their own. -/
def Agreed (s : Membership ι) : Prop :=
  ∀ i, s.joined i = true → (s.dir i).Recorded ∧ ∀ j, s.joined j = true → ∀ id,
    (s.dir i).nodes.lookup id ≠ none ↔ (s.dir j).nodes.lookup id ≠ none

/-- Every command has finished, which it does when its packet has arrived everywhere. -/
def Finished (s : Membership ι) : Prop := ∀ a, s.meet a = .idle ∨ ∃ x, s.meet a = .done x

instance [Fintype ι] (s : Membership ι) : Decidable s.Finished :=
  inferInstanceAs (Decidable (∀ a, s.meet a = .idle ∨ ∃ x, s.meet a = .done x))

/-- A packet is built where all fresh nodes of earlier packets are known, and arrives
at a node that has the sender's address and is not sending itself, unless it brings no
news. -/
def Ordered (net : Network ι) (s : Membership ι) : Event ι → Prop
  | .build a => ∀ a' x, (s.meet a').spread = some x → (s.dir a).Knows net x
  | .deliver a j =>
    (s.dir j).requestFromNode (net.host a).addr = true ∧
      ∀ z own rest, s.meet j = .sending z own rest → ∀ packet, (s.meet a).packet = some packet →
        ∀ g ∈ groups packet, (s.dir j).nodes.lookup g.id ≠ none
  | _ => True

/-- The nodes of the old cluster know each other; the others know only themselves. -/
structure Acquainted (net : Network ι) (old : ι → Bool) (dir : ι → Directory) : Prop where
  own : ∀ i, (dir i).own = (net.host i).id
  members : ∀ i, old i = true → (dir i).Recorded ∧
    ∃ xs : List ι, (dir i).nodes = xs.map (net.entry i) ∧ ∀ x, x ∈ xs ↔ old x = true
  fresh : ∀ i, old i = false → (dir i).listed = [] ∧ (dir i).nodes = [net.entry i i]

def start (old : ι → Bool) (dir : ι → Directory) : Membership ι := ⟨dir, fun _ => .idle, old⟩

/-! ## The invariant -/

def Names (net : Network ι) (packet : RStr) (x : ι) : Prop := (net.host x).group ∈ groups packet

/-- The nodes that the packets so far have told everybody about. -/
def Spread (old : ι → Bool) (s : Membership ι) (x : ι) : Prop :=
  old x = true ∨ ∃ a, (s.meet a).spread = some x

/-- Node `j` knows `x`, or a packet with `x` is on its way to `j`. -/
def Informed (net : Network ι) (s : Membership ι) (j x : ι) : Prop :=
  (s.dir j).Knows net x ∨
    (∃ a z packet, s.meet a = .built z packet ∧ j ≠ a ∧ Names net packet j ∧ Names net packet x) ∨
    ∃ a z packet pending, s.meet a = .sending z packet pending ∧ endpoint net j ∈ pending ∧
      Names net packet x

structure Sound (net : Network ι) (old : ι → Bool) (s : Membership ι) : Prop where
  tidy : ∀ i, (s.dir i).Tidy net i
  reach : ∀ i x, (s.dir i).Knows net x → x = i ∨ s.joined x = true
  member : ∀ i, old i = true → s.joined i = true ∧ ∀ x, old x = true → (s.dir i).Knows net x
  fresh : ∀ x, s.joined x = true →
    old x = true ∨ ((s.dir x).dbnodes ≠ none ∧ ∃ a, (s.meet a).target = some x)
  meets : ∀ a x, (s.meet a).target = some x → old a = true ∧ old x = false ∧ s.joined x = true ∧
    ∀ a', (s.meet a').target = some x → a' = a
  authed : ∀ a x, s.meet a = .authed x → ∀ j, (s.dir j).Knows net x → j = x
  entered : ∀ a x, (s.meet a).target = some x → s.meet a = .authed x ∨ (s.dir a).Knows net x
  packets : ∀ a packet, (s.meet a).packet = some packet →
    ∃ ys : List ι, groups packet = ys.map (fun y => (net.host y).group) ∧
      ∀ y ∈ ys, (s.dir a).Knows net y
  pending : ∀ a x packet pending, s.meet a = .sending x packet pending → ∀ e ∈ pending,
    ∃ y, (s.dir a).Knows net y ∧ y ≠ a ∧ e = endpoint net y
  informed : ∀ j x, Spread old s j → Spread old s x → Informed net s j x

theorem sound_start {dir : ι → Directory} (acquainted : Acquainted net old dir) :
    (start old dir).Sound net old where
  tidy i := by
    cases isOld : old i with
    | true =>
        obtain ⟨recorded, xs, table, inside⟩ := acquainted.members i isOld
        exact ⟨acquainted.own i,
          (Directory.knows_iff table).mpr ((inside i).mpr isOld), ⟨xs, table⟩, recorded⟩
    | false =>
        obtain ⟨noLines, table⟩ := acquainted.fresh i isOld
        have table' : (dir i).nodes = [i].map (net.entry i) := table
        refine ⟨acquainted.own i,
          (Directory.knows_iff table').mpr List.mem_cons_self, ⟨[i], table'⟩, ?_⟩
        change (dir i).Recorded
        rw [Directory.Recorded, noLines]
        refine ⟨List.nodup_nil, ?_⟩
        intro id
        refine iff_of_false List.not_mem_nil ?_
        intro found
        obtain ⟨notOwn, known⟩ := found
        obtain ⟨n, member, rfl⟩ := Directory.lookup_ne_none.mp known
        rw [table, List.mem_singleton] at member
        rw [member] at notOwn
        exact notOwn (acquainted.own i).symm
  reach i x known := by
    cases isOld : old i with
    | true =>
        obtain ⟨_, xs, table, inside⟩ := acquainted.members i isOld
        exact Or.inr ((inside x).mp ((Directory.knows_iff table).mp known))
    | false =>
        have table : (dir i).nodes = [i].map (net.entry i) := (acquainted.fresh i isOld).2
        exact Or.inl (List.mem_singleton.mp ((Directory.knows_iff table).mp known))
  member i isOld := by
    obtain ⟨_, xs, table, inside⟩ := acquainted.members i isOld
    exact ⟨isOld, fun x isOld' => (Directory.knows_iff table).mpr ((inside x).mpr isOld')⟩
  fresh x isOld := Or.inl isOld
  meets a x target := nomatch target
  authed a x authed := nomatch authed
  entered a x target := nomatch target
  packets a packet isPacket := nomatch isPacket
  pending a x packet pending sending := nomatch sending
  informed j x spread spread' := by
    have isOld : ∀ y, Spread old (start old dir) y → old y = true := by
      intro y either
      rcases either with isOld | ⟨a, spread⟩
      · exact isOld
      · cases spread
    obtain ⟨_, xs, table, inside⟩ := acquainted.members j (isOld j spread)
    exact Or.inl ((Directory.knows_iff table).mpr ((inside x).mpr (isOld x spread')))

/-- At the end of all commands everybody knows everybody. -/
theorem Sound.agreed (sound : s.Sound net old) (finished : s.Finished) : s.Agreed := by
  have spread : ∀ x, s.joined x = true → Spread old s x := by
    intro x joined
    rcases sound.fresh x joined with isOld | ⟨_, a, target⟩
    · exact Or.inl isOld
    · refine Or.inr ⟨a, ?_⟩
      rcases finished a with idle | ⟨y, isDone⟩
      · rw [idle] at target
        cases target
      · rw [isDone] at target ⊢
        exact target
  have knows : ∀ j x, s.joined j = true → s.joined x = true → (s.dir j).Knows net x := by
    intro j x joined joined'
    rcases sound.informed j x (spread j joined) (spread x joined') with
      known | ⟨a, z, packet, built, _⟩ | ⟨a, z, packet, pending, sending, _⟩
    · exact known
    · rcases finished a with idle | ⟨y, isDone⟩
      · rw [idle] at built
        cases built
      · rw [isDone] at built
        cases built
    · rcases finished a with idle | ⟨y, isDone⟩
      · rw [idle] at sending
        cases sending
      · rw [isDone] at sending
        cases sending
  have ids : ∀ i, s.joined i = true → ∀ id,
      (s.dir i).nodes.lookup id ≠ none ↔ ∃ x, s.joined x = true ∧ (net.host x).id = id := by
    intro i joined id
    constructor
    · intro known
      obtain ⟨xs, table⟩ := (sound.tidy i).entries
      obtain ⟨n, member, rfl⟩ := Directory.lookup_ne_none.mp known
      rw [table] at member
      obtain ⟨x, _, rfl⟩ := List.mem_map.mp member
      rcases sound.reach i x known with rfl | joined'
      · exact ⟨x, joined, rfl⟩
      · exact ⟨x, joined', rfl⟩
    · intro found
      obtain ⟨x, joined', rfl⟩ := found
      exact knows i x joined joined'
  intro i joined
  refine ⟨(sound.tidy i).recorded, ?_⟩
  intro j joined' id
  rw [ids i joined, ids j joined']

/-! ## Steps -/

/-- A command goes on: it keeps its fresh node, and the directories only grow, by nodes
of the cluster that are not waiting to be added. -/
structure Turns (net : Network ι) (s : Membership ι) (a : ι) (dir : ι → Directory) (m : Meet ι)
    (x : ι) : Prop where
  before : (s.meet a).target = some x
  after : m.target = some x
  added : m ≠ .authed x
  tidy : ∀ i, (dir i).Tidy net i
  grows : ∀ i y, (s.dir i).Knows net y → (dir i).Knows net y
  stored : ∀ i, (s.dir i).dbnodes ≠ none → (dir i).dbnodes ≠ none
  news : ∀ i y, (dir i).Knows net y → (s.dir i).Knows net y ∨
    (s.joined y = true ∧ ∀ a', s.meet a' = .authed y → a' = a)
  entered : (dir a).Knows net x
  packets : ∀ packet, m.packet = some packet →
    ∃ ys : List ι, groups packet = ys.map (fun y => (net.host y).group) ∧
      ∀ y ∈ ys, (dir a).Knows net y
  pending : ∀ x packet pending, m = .sending x packet pending → ∀ e ∈ pending,
    ∃ y, (dir a).Knows net y ∧ y ≠ a ∧ e = endpoint net y

theorem Turns.sound {dir : ι → Directory} {m : Meet ι} {x : ι} (turns : Turns net s a dir m x)
    (sound : s.Sound net old)
    (informed : ∀ j y, Spread old ⟨dir, Function.update s.meet a m, s.joined⟩ j →
      Spread old ⟨dir, Function.update s.meet a m, s.joined⟩ y →
        Informed net ⟨dir, Function.update s.meet a m, s.joined⟩ j y) :
    Sound net old ⟨dir, Function.update s.meet a m, s.joined⟩ := by
  have target : ∀ a', (Function.update s.meet a m a').target = (s.meet a').target := by
    intro a'
    rw [Function.update_apply]
    split
    · rename_i here
      rw [here, turns.before, turns.after]
    · rfl
  refine ⟨turns.tidy, ?_, ?_, ?_, ?_, ?_, ?_, ?_, ?_, informed⟩
  · intro i y known
    rcases turns.news i y known with before | ⟨joined, _⟩
    · exact sound.reach i y before
    · exact Or.inr joined
  · intro i isOld
    obtain ⟨joined, knows⟩ := sound.member i isOld
    exact ⟨joined, fun y isOld' => turns.grows i y (knows y isOld')⟩
  · intro y joined
    rcases sound.fresh y joined with isOld | ⟨stored, a', isTarget⟩
    · exact Or.inl isOld
    · exact Or.inr ⟨turns.stored y stored, a', (target a').trans isTarget⟩
  · intro a' y isTarget
    rw [target] at isTarget
    obtain ⟨isOld, isNew, joined, sole⟩ := sound.meets a' y isTarget
    exact ⟨isOld, isNew, joined, fun a'' isTarget' => sole a'' ((target a'').symm.trans isTarget')⟩
  · intro a' y authed j known
    dsimp only at authed
    rw [Function.update_apply] at authed
    split at authed
    · subst authed
      have same : y = x := Option.some.inj turns.after
      exact absurd (congrArg Meet.authed same) turns.added
    · rename_i other
      rcases turns.news j y known with before | ⟨_, only⟩
      · exact sound.authed a' y authed j before
      · exact absurd (only a' authed) other
  · intro a' y isTarget
    rw [target] at isTarget
    dsimp only
    rw [Function.update_apply]
    split
    · rename_i here
      rw [here, turns.before] at isTarget
      obtain rfl := Option.some.inj isTarget
      exact Or.inr (here ▸ turns.entered)
    · rcases sound.entered a' y isTarget with authed | known
      · exact Or.inl authed
      · exact Or.inr (turns.grows a' y known)
  · intro a' packet isPacket
    dsimp only at isPacket
    rw [Function.update_apply] at isPacket
    split at isPacket
    · rename_i here
      exact here ▸ turns.packets packet isPacket
    · obtain ⟨ys, same, known⟩ := sound.packets a' packet isPacket
      exact ⟨ys, same, fun y member => turns.grows a' y (known y member)⟩
  · intro a' y packet pending sending e member
    dsimp only at sending
    rw [Function.update_apply] at sending
    split at sending
    · rename_i here
      exact here ▸ turns.pending y packet pending sending e member
    · obtain ⟨z, known, far, same⟩ := sound.pending a' y packet pending sending e member
      exact ⟨z, turns.grows a' z known, far, same⟩

/-- The table stays as it is. -/
theorem Turns.of_same {m : Meet ι} {x : ι} (sound : s.Sound net old)
    (before : (s.meet a).target = some x) (notAuthed : s.meet a ≠ .authed x)
    (after : m.target = some x) (added : m ≠ .authed x)
    (packets : ∀ packet, m.packet = some packet →
      ∃ ys : List ι, groups packet = ys.map (fun y => (net.host y).group) ∧
        ∀ y ∈ ys, (s.dir a).Knows net y)
    (pending : ∀ x packet pending, m = .sending x packet pending → ∀ e ∈ pending,
      ∃ y, (s.dir a).Knows net y ∧ y ≠ a ∧ e = endpoint net y) :
    Turns net s a s.dir m x where
  before := before
  after := after
  added := added
  tidy := sound.tidy
  grows _ _ known := known
  stored _ stored := stored
  news _ _ known := Or.inl known
  entered := (sound.entered a x before).resolve_left notAuthed
  packets := packets
  pending := pending

/-- What the other commands send stays on its way. -/
theorem Informed.of_others {dir : ι → Directory} {m : Meet ι} {joined : ι → Bool} {j y : ι}
    (informed : Informed net s j y)
    (grows : ∀ i y, (s.dir i).Knows net y → (dir i).Knows net y) :
    Informed net ⟨dir, Function.update s.meet a m, joined⟩ j y ∨
      (∃ z packet, s.meet a = .built z packet ∧ j ≠ a ∧ Names net packet j ∧ Names net packet y) ∨
      ∃ z packet pending, s.meet a = .sending z packet pending ∧ endpoint net j ∈ pending ∧
        Names net packet y := by
  rcases informed with known | ⟨a', z, packet, built, far, named⟩ |
    ⟨a', z, packet, pending, sending, named⟩
  · exact Or.inl (Or.inl (grows j y known))
  · rcases eq_or_ne a' a with rfl | other
    · exact Or.inr (Or.inl ⟨z, packet, built, far, named⟩)
    · refine Or.inl (Or.inr (Or.inl ⟨a', z, packet, ?_, far, named⟩))
      rw [← built]
      exact Function.update_of_ne other _ _
  · rcases eq_or_ne a' a with rfl | other
    · exact Or.inr (Or.inr ⟨z, packet, pending, sending, named⟩)
    · refine Or.inl (Or.inr (Or.inr ⟨a', z, packet, pending, ?_, named⟩))
      rw [← sending]
      exact Function.update_of_ne other _ _

/-- A command that has not built its packet says nothing, and what others send stays. -/
theorem Informed.mono {dir : ι → Directory} {m : Meet ι} {joined : ι → Bool} {j y : ι}
    (informed : Informed net s j y)
    (grows : ∀ i y, (s.dir i).Knows net y → (dir i).Knows net y)
    (silent : (s.meet a).packet = none) :
    Informed net ⟨dir, Function.update s.meet a m, joined⟩ j y := by
  rcases informed.of_others grows with
    stays | ⟨z, packet, built, _⟩ | ⟨z, packet, pending, sending, _⟩
  · exact stays
  · rw [built] at silent
    cases silent
  · rw [sending] at silent
    cases silent

/-- The nodes that everybody is told about, after a step of a command. -/
theorem spread_update {dir : ι → Directory} {m : Meet ι} {y : ι} {joined : ι → Bool}
    (spread : Spread old ⟨dir, Function.update s.meet a m, joined⟩ y) :
    Spread old s y ∨ m.spread = some y := by
  rcases spread with isOld | ⟨a', isSpread⟩
  · exact Or.inl (Or.inl isOld)
  · change (Function.update s.meet a m a').spread = some y at isSpread
    rw [Function.update_apply] at isSpread
    split at isSpread
    · exact Or.inr isSpread
    · exact Or.inl (Or.inr ⟨a', isSpread⟩)

/-- A command that goes on with its packet tells about no other node. -/
theorem spread_of_same {dir : ι → Directory} {m : Meet ι} {y : ι} {joined : ι → Bool}
    (same : m.spread = (s.meet a).spread)
    (spread : Spread old ⟨dir, Function.update s.meet a m, joined⟩ y) : Spread old s y := by
  rcases spread_update spread with before | isX
  · exact before
  · exact Or.inr ⟨a, same ▸ isX⟩

/-- Node `j` gets a directory that knows the nodes of `new` besides. -/
structure Learns (net : Network ι) (s : Membership ι) (j : ι) (d : Directory) (new : ι → Prop) :
    Prop where
  tidy : d.Tidy net j
  stored : d.dbnodes ≠ none
  knows : ∀ y, d.Knows net y ↔ (s.dir j).Knows net y ∨ new y

section Learns
variable {j : ι} {new : ι → Prop}

theorem Learns.tidy_update (learns : Learns net s j d new) (sound : s.Sound net old) (i : ι) :
    (Function.update s.dir j d i).Tidy net i := by
  rw [Function.update_apply]
  split
  · rename_i here
    exact here ▸ learns.tidy
  · exact sound.tidy i

theorem Learns.stored_update (learns : Learns net s j d new) (i : ι)
    (before : (s.dir i).dbnodes ≠ none) : (Function.update s.dir j d i).dbnodes ≠ none := by
  rw [Function.update_apply]
  split
  · exact learns.stored
  · exact before

theorem Learns.grows (learns : Learns net s j d new) (i y : ι) (before : (s.dir i).Knows net y) :
    (Function.update s.dir j d i).Knows net y := by
  rw [Function.update_apply]
  split
  · rename_i here
    exact (learns.knows y).mpr (Or.inl (here ▸ before))
  · exact before

theorem Learns.news (learns : Learns net s j d new) (i y : ι)
    (now : (Function.update s.dir j d i).Knows net y) : (s.dir i).Knows net y ∨ new y := by
  rw [Function.update_apply] at now
  split at now
  · rename_i here
    exact here ▸ (learns.knows y).mp now
  · exact Or.inl now

end Learns

theorem Sound.add (sound : s.Sound net old) (fired : step net old s (.add a) = some s') :
    s'.Sound net old := by
  rw [step] at fired
  split at fired
  · rename_i x authed
    obtain rfl := Option.some.inj fired
    have isTarget : (s.meet a).target = some x := by rw [authed]; rfl
    obtain ⟨isOld, isNew, joined, sole⟩ := sound.meets a x isTarget
    have apart : a ≠ x := by
      intro same
      obtain rfl := same
      rw [isOld] at isNew
      cases isNew
    have unknown : ¬ (s.dir a).Knows net x := fun known => apart (sound.authed a x authed a known)
    obtain ⟨tidy, stored, knows⟩ := (sound.tidy a).enlist unknown
    have learns : Learns net s a _ (· = x) := ⟨tidy, stored, knows⟩
    have silent : (s.meet a).packet = none := by rw [authed]; rfl
    have turns : Turns net s a (Function.update s.dir a ((s.dir a).enlist (net.host x).id
        (net.host x).addr (natToS (net.host x).port) (net.host x).port)) (.added x) x := by
      refine ⟨isTarget, rfl, nofun, learns.tidy_update sound, learns.grows,
        learns.stored_update, ?_, ?_, nofun, nofun⟩
      · intro i y known
        rcases learns.news i y known with before | rfl
        · exact Or.inl before
        · refine Or.inr ⟨joined, ?_⟩
          intro a' authed'
          exact sole a' (by rw [authed']; rfl)
      · rw [Function.update_self]
        exact (knows x).mpr (Or.inr rfl)
    refine turns.sound sound ?_
    intro j y spread spread'
    have before := (spread_update spread).resolve_right nofun
    have before' := (spread_update spread').resolve_right nofun
    exact (sound.informed j y before before').mono turns.grows silent
  · cases fired

theorem Sound.build (sound : s.Sound net old) (ordered : s.Ordered net (.build a))
    (fired : step net old s (.build a) = some s') : s'.Sound net old := by
  rw [step] at fired
  split at fired
  · rename_i x added
    obtain rfl := Option.some.inj fired
    have isTarget : (s.meet a).target = some x := by rw [added]; rfl
    obtain ⟨isOld, isNew, joined, sole⟩ := sound.meets a x isTarget
    have apart : x ≠ a := by
      intro same
      obtain rfl := same
      rw [isOld] at isNew
      cases isNew
    have knownX : (s.dir a).Knows net x := by
      refine (sound.entered a x isTarget).resolve_left ?_
      rw [added]
      exact nofun
    obtain ⟨xs, table⟩ := (sound.tidy a).entries
    have packet := groups_packet table
    have named : ∀ y, (s.dir a).Knows net y → Names net (s.dir a).packet y := by
      intro y known
      rw [Names, packet]
      exact List.mem_map_of_mem ((Directory.knows_iff table).mp known)
    have knows : ∀ y, Spread old s y → (s.dir a).Knows net y := by
      intro y either
      rcases either with isOld' | ⟨a', spread⟩
      · exact (sound.member a isOld).2 y isOld'
      · exact ordered a' y spread
    have turns : Turns net s a s.dir (.built x (s.dir a).packet) x := by
      refine Turns.of_same sound isTarget ?_ rfl nofun ?_ nofun
      · rw [added]
        exact nofun
      · intro _ found
        cases found
        exact ⟨xs, packet, fun y member => (Directory.knows_iff table).mpr member⟩
    have silent : (s.meet a).packet = none := by rw [added]; rfl
    have now : Function.update s.meet a (.built x (s.dir a).packet) a = .built x (s.dir a).packet :=
      Function.update_self ..
    refine turns.sound sound ?_
    intro j y spread spread'
    rcases spread_update spread' with before' | isX'
    · rcases spread_update spread with before | isX
      · exact (sound.informed j y before before').mono turns.grows silent
      · obtain rfl := Option.some.inj isX
        exact Or.inr (Or.inl ⟨a, x, _, now, apart, named x knownX, named y (knows y before')⟩)
    · obtain rfl := Option.some.inj isX'
      by_cases atIntroducer : j = a
      · exact Or.inl (atIntroducer ▸ knownX)
      · have knownJ : (s.dir a).Knows net j := by
          rcases spread_update spread with before | isX
          · exact knows j before
          · obtain rfl := Option.some.inj isX
            exact knownX
        exact Or.inr (Or.inl ⟨a, x, _, now, atIntroducer, named j knownJ, named x knownX⟩)
  · cases fired

theorem Sound.broadcast (sound : s.Sound net old)
    (fired : step net old s (.broadcast a) = some s') : s'.Sound net old := by
  rw [step] at fired
  split at fired
  · rename_i x packet built
    obtain rfl := Option.some.inj fired
    have isTarget : (s.meet a).target = some x := by rw [built]; rfl
    have isPacket : (s.meet a).packet = some packet := by rw [built]; rfl
    obtain ⟨xs, table⟩ := (sound.tidy a).entries
    obtain ⟨ys, same, known⟩ := sound.packets a packet isPacket
    have turns : Turns net s a s.dir (.sending x packet (s.dir a).targets) x := by
      refine Turns.of_same sound isTarget ?_ rfl nofun ?_ ?_
      · rw [built]
        exact nofun
      · intro _ found
        cases found
        exact ⟨ys, same, known⟩
      · intro _ _ _ found e member
        cases found
        obtain ⟨y, inside, far, rfl⟩ := (Directory.mem_targets table).mp member
        exact ⟨y, (Directory.knows_iff table).mpr inside, far, rfl⟩
    have now : Function.update s.meet a (.sending x packet (s.dir a).targets) a =
        .sending x packet (s.dir a).targets := Function.update_self ..
    refine turns.sound sound ?_
    intro j y spread spread'
    have same_spread : Meet.spread (.sending x packet (s.dir a).targets) = (s.meet a).spread := by
      rw [built]
      rfl
    have before := spread_of_same same_spread spread
    have before' := spread_of_same same_spread spread'
    rcases (sound.informed j y before before').of_others turns.grows with
      stays | ⟨z, packet', built', far, named, named'⟩ | ⟨z, packet', pending, sending, _⟩
    · exact stays
    · rw [built] at built'
      obtain ⟨rfl, rfl⟩ : x = z ∧ packet = packet' := by simpa using built'
      -- the packet goes to every node that it names
      rw [Names, same] at named
      obtain ⟨k, member, sameGroup⟩ := List.mem_map.mp named
      obtain rfl : k = j := net.ids (congrArg Gossip.id sameGroup)
      have isTarget' := (Directory.mem_targets table).mpr
        ⟨k, (Directory.knows_iff table).mp (known k member), far, rfl⟩
      exact Or.inr (Or.inr ⟨a, x, packet, _, now, isTarget', named'⟩)
    · rw [built] at sending
      cases sending
  · cases fired

/-- What a node knows after an orderly delivery. -/
theorem Sound.receive (sound : s.Sound net old) {j x : ι} {packet : RStr}
    {pending : List (RStr × Int)} (sending : s.meet a = .sending x packet pending)
    (inside : endpoint net j ∈ pending) (ordered : s.Ordered net (.deliver a j)) :
    Learns net s j (s.receive net a j packet) (Names net packet) := by
  obtain ⟨admitted, noNews⟩ := ordered
  obtain ⟨ys, same, _⟩ := sound.packets a packet (by rw [sending]; rfl)
  have named : ∀ y, Names net packet y ↔ y ∈ ys := by
    intro y
    rw [Names, same, List.mem_map]
    constructor
    · intro found
      obtain ⟨k, member, sameGroup⟩ := found
      exact net.ids (congrArg Gossip.id sameGroup) ▸ member
    · intro member
      exact ⟨y, member, rfl⟩
  have stored : (s.dir j).dbnodes ≠ none := by
    obtain ⟨k, known, far, sameEnd⟩ := sound.pending a x packet pending sending _ inside
    obtain rfl := net.endpoints sameEnd
    have isOld := (sound.meets a x (by rw [sending]; rfl)).1
    have joined : s.joined j = true := (sound.reach a j known).resolve_left far
    rcases sound.fresh j joined with isOld' | ⟨stored, _⟩
    · exact (sound.tidy j).stored ((sound.member j isOld').2 a isOld) (Ne.symm far)
    · exact stored
  obtain ⟨tidy, stored', knows⟩ := (sound.tidy j).gossipLoop stored ys
  unfold Membership.receive
  rw [if_pos admitted]
  split
  · -- a node that is sending knows all of the packet
    rename_i z own rest sending'
    have noNews := noNews z own rest sending' packet (by rw [sending]; rfl)
    rw [Directory.gossipWhileSending_known noNews]
    refine ⟨sound.tidy j, stored, ?_⟩
    intro y
    refine ⟨Or.inl, ?_⟩
    intro either
    rcases either with known | isNamed
    · exact known
    · exact noNews _ isNamed
  · have words : (s.dir j).gossip (splitSpace (wireLine packet)) =
        (s.dir j).gossipLoop (groups packet) := rfl
    rw [words, same]
    exact ⟨tidy, stored', fun y => (knows y).trans (or_congr_right (named y).symm)⟩

/-- A named node is one that the introducer knows: it is in the cluster, and no command
is waiting to add it. -/
theorem Sound.named (sound : s.Sound net old) {x y : ι} {packet : RStr}
    (isTarget : (s.meet a).target = some x) (isPacket : (s.meet a).packet = some packet)
    (named : Names net packet y) :
    s.joined y = true ∧ ∀ a', s.meet a' = .authed y → a' = a := by
  obtain ⟨ys, same, known⟩ := sound.packets a packet isPacket
  have isOld := (sound.meets a x isTarget).1
  rw [Names, same] at named
  obtain ⟨k, member, sameGroup⟩ := List.mem_map.mp named
  obtain rfl : k = y := net.ids (congrArg Gossip.id sameGroup)
  have knownThere := known k member
  refine ⟨?_, ?_⟩
  · rcases sound.reach a k knownThere with rfl | joined
    · exact (sound.member k isOld).1
    · exact joined
  · intro a' authed
    have isNew := (sound.meets a' k (by rw [authed]; rfl)).2.1
    have isIntroducer := sound.authed a' k authed a knownThere
    rw [isIntroducer, isNew] at isOld
    cases isOld

theorem Sound.deliver_turns (sound : s.Sound net old) {j x : ι} {packet : RStr}
    {pending : List (RStr × Int)} (sending : s.meet a = .sending x packet pending)
    (learns : Learns net s j d (Names net packet)) :
    Turns net s a (Function.update s.dir j d)
      (.sending x packet (pending.erase (endpoint net j))) x := by
  have isTarget : (s.meet a).target = some x := by rw [sending]; rfl
  have isPacket : (s.meet a).packet = some packet := by rw [sending]; rfl
  obtain ⟨ys, same, known⟩ := sound.packets a packet isPacket
  refine ⟨isTarget, rfl, nofun, learns.tidy_update sound, learns.grows,
    learns.stored_update, ?_, ?_, ?_, ?_⟩
  · intro i y now
    exact (learns.news i y now).imp_right (sound.named isTarget isPacket)
  · refine learns.grows a x ((sound.entered a x isTarget).resolve_left ?_)
    rw [sending]
    exact nofun
  · intro _ found
    cases found
    exact ⟨ys, same, fun y member => learns.grows a y (known y member)⟩
  · intro _ _ _ found e member
    cases found
    obtain ⟨y, before, far, sameEnd⟩ :=
      sound.pending a x packet pending sending e (List.mem_of_mem_erase member)
    exact ⟨y, learns.grows a y before, far, sameEnd⟩

theorem Sound.deliver (sound : s.Sound net old) {j : ι} (ordered : s.Ordered net (.deliver a j))
    (fired : step net old s (.deliver a j) = some s') : s'.Sound net old := by
  rw [step] at fired
  split at fired
  · rename_i x packet pending sending
    split at fired
    · rename_i inside
      obtain rfl := Option.some.inj fired
      have learns := sound.receive sending inside ordered
      have turns := sound.deliver_turns sending learns
      refine turns.sound sound ?_
      intro k y spread spread'
      have same_spread : Meet.spread (.sending x packet (pending.erase (endpoint net j))) =
          (s.meet a).spread := by
        rw [sending]
        rfl
      have before := spread_of_same same_spread spread
      have before' := spread_of_same same_spread spread'
      rcases (sound.informed k y before before').of_others turns.grows with
        stays | ⟨z, packet', built, _⟩ | ⟨z, packet', pending', sending', inside', named⟩
      · exact stays
      · rw [sending] at built
        cases built
      · rw [sending] at sending'
        injection sending' with sameX samePacket samePending
        subst sameX samePacket samePending
        rcases eq_or_ne k j with rfl | receiver
        · -- the packet that named `y` has arrived
          refine Or.inl ?_
          dsimp only
          rw [Function.update_self]
          exact (learns.knows y).mpr (Or.inr named)
        · have other : endpoint net k ≠ endpoint net j := fun sameEnd =>
            receiver (net.endpoints sameEnd)
          exact Or.inr (Or.inr ⟨a, x, packet, _, Function.update_self ..,
            (List.mem_erase_of_ne other).mpr inside', named⟩)
    · cases fired
  · cases fired

theorem Sound.finish (sound : s.Sound net old) (fired : step net old s (.finish a) = some s') :
    s'.Sound net old := by
  rw [step] at fired
  split at fired
  · rename_i x packet sending
    obtain rfl := Option.some.inj fired
    have isTarget : (s.meet a).target = some x := by rw [sending]; rfl
    have turns : Turns net s a s.dir (.done x) x := by
      refine Turns.of_same sound isTarget ?_ rfl nofun nofun nofun
      rw [sending]
      exact nofun
    refine turns.sound sound ?_
    intro j y spread spread'
    have same_spread : Meet.spread (.done x) = (s.meet a).spread := by
      rw [sending]
      rfl
    have before := spread_of_same same_spread spread
    have before' := spread_of_same same_spread spread'
    rcases (sound.informed j y before before').of_others turns.grows with
      stays | ⟨z, packet', built, _⟩ | ⟨z, packet', pending, sending', inside, _⟩
    · exact stays
    · rw [sending] at built
      cases built
    · rw [sending] at sending'
      injection sending' with _ _ nothing
      rw [← nothing] at inside
      cases inside
  · cases fired

/-! ### A node lets an introducer in -/

/-- The idle old node `a` may add `x`: no command is about either of them. -/
structure Admits (old : ι → Bool) (s : Membership ι) (a x : ι) : Prop where
  idle : s.meet a = .idle
  isOld : old a = true
  isNew : old x = false
  out : s.joined x = false
  waits : ∀ a' y, (s.meet a').target = some y → a' ≠ a ∧ y ≠ x

theorem Sound.admits (sound : s.Sound net old) {x : ι} (idle : s.meet a = .idle)
    (isOld : old a = true) (out : s.joined x = false) : Admits old s a x where
  idle := idle
  isOld := isOld
  isNew := by
    cases isOld' : old x with
    | true =>
        rw [(sound.member x isOld').1] at out
        cases out
    | false => rfl
  out := out
  waits a' y isTarget := by
    constructor
    · intro same
      obtain rfl := same
      rw [idle] at isTarget
      cases isTarget
    · intro same
      obtain rfl := same
      rw [(sound.meets a' y isTarget).2.2.1] at out
      cases out

/-- The state after `x` has let `a` in; `d` is the directory of `x`. -/
def admitted (s : Membership ι) (a x : ι) (d : Directory) : Membership ι :=
  ⟨Function.update s.dir x d, Function.update s.meet a (.authed x), Function.update s.joined x true⟩

section Admits
variable {x : ι} {d : Directory}

theorem target_admitted {a' y : ι} (isTarget : ((s.admitted a x d).meet a').target = some y) :
    (a' = a ∧ y = x) ∨ (a' ≠ a ∧ (s.meet a').target = some y) := by
  unfold admitted at isTarget
  dsimp only at isTarget
  rw [Function.update_apply] at isTarget
  split at isTarget
  · rename_i here
    exact Or.inl ⟨here, (Option.some.inj isTarget).symm⟩
  · rename_i other
    exact Or.inr ⟨other, isTarget⟩

theorem joined_admitted {y : ι} (joined : s.joined y = true) :
    (s.admitted a x d).joined y = true := by
  unfold admitted
  dsimp only
  rw [Function.update_apply]
  split
  · rfl
  · exact joined

theorem Admits.fresh (admits : Admits old s a x) (sound : s.Sound net old)
    (stored : d.dbnodes ≠ none) {y : ι} (joined : (s.admitted a x d).joined y = true) :
    old y = true ∨ (((s.admitted a x d).dir y).dbnodes ≠ none ∧
      ∃ a', ((s.admitted a x d).meet a').target = some y) := by
  unfold admitted at joined ⊢
  dsimp only at joined ⊢
  rcases eq_or_ne y x with rfl | other
  · refine Or.inr ⟨?_, a, ?_⟩
    · rw [Function.update_self]
      exact stored
    · rw [Function.update_self]
      rfl
  · rw [Function.update_of_ne other] at joined
    rcases sound.fresh y joined with isOld | ⟨stored', a', isTarget⟩
    · exact Or.inl isOld
    · refine Or.inr ⟨?_, a', ?_⟩
      · rw [Function.update_of_ne other]
        exact stored'
      · rw [Function.update_of_ne (admits.waits a' y isTarget).1]
        exact isTarget

theorem Admits.meets (admits : Admits old s a x) (sound : s.Sound net old) {a' y : ι}
    (isTarget : ((s.admitted a x d).meet a').target = some y) :
    old a' = true ∧ old y = false ∧ (s.admitted a x d).joined y = true ∧
      ∀ a'', ((s.admitted a x d).meet a'').target = some y → a'' = a' := by
  rcases target_admitted isTarget with ⟨rfl, rfl⟩ | ⟨_, isTarget'⟩
  · refine ⟨admits.isOld, admits.isNew, Function.update_self .., ?_⟩
    intro a'' isTarget''
    rcases target_admitted isTarget'' with ⟨same, _⟩ | ⟨_, before⟩
    · exact same
    · exact absurd rfl (admits.waits a'' y before).2
  · obtain ⟨isOld, isNew, joined, sole⟩ := sound.meets a' y isTarget'
    refine ⟨isOld, isNew, joined_admitted joined, ?_⟩
    intro a'' isTarget''
    rcases target_admitted isTarget'' with ⟨_, same⟩ | ⟨_, before⟩
    · exact absurd same (admits.waits a' y isTarget').2
    · exact sole a'' before

theorem Admits.authed (admits : Admits old s a x) (sound : s.Sound net old)
    (learns : Learns net s x d (· = a)) {a' y j : ι}
    (authed : (s.admitted a x d).meet a' = .authed y)
    (known : ((s.admitted a x d).dir j).Knows net y) : j = y := by
  rcases target_admitted (congrArg Meet.target authed) with ⟨rfl, rfl⟩ | ⟨other, isTarget⟩
  · rcases learns.news j y known with before | rfl
    · rcases sound.reach j y before with same | joined
      · exact same.symm
      · rw [admits.out] at joined
        cases joined
    · have isNew := admits.isNew
      rw [admits.isOld] at isNew
      cases isNew
  · unfold admitted at authed
    dsimp only at authed
    rw [Function.update_of_ne other] at authed
    rcases learns.news j y known with before | rfl
    · exact sound.authed a' y authed j before
    · have isOld := admits.isOld
      rw [(sound.meets a' y isTarget).2.1] at isOld
      cases isOld

theorem Admits.sound (admits : Admits old s a x) (sound : s.Sound net old)
    (learns : Learns net s x d (· = a)) : (s.admitted a x d).Sound net old := by
  refine ⟨learns.tidy_update sound, ?_, ?_, ?_, ?_, ?_, ?_, ?_, ?_, ?_⟩
  · intro i y known
    rcases learns.news i y known with before | rfl
    · exact (sound.reach i y before).imp_right joined_admitted
    · exact Or.inr (joined_admitted (sound.member y admits.isOld).1)
  · intro i isOld
    obtain ⟨joined, known⟩ := sound.member i isOld
    exact ⟨joined_admitted joined, fun y isOld' => learns.grows i y (known y isOld')⟩
  · intro y joined
    exact admits.fresh sound learns.stored joined
  · intro a' y isTarget
    exact admits.meets sound isTarget
  · intro a' y authed j known
    exact admits.authed sound learns authed known
  · intro a' y isTarget
    rcases target_admitted isTarget with ⟨rfl, rfl⟩ | ⟨other, isTarget'⟩
    · exact Or.inl (Function.update_self ..)
    · rcases sound.entered a' y isTarget' with authed | known
      · refine Or.inl ?_
        rw [← authed]
        exact Function.update_of_ne other _ _
      · exact Or.inr (learns.grows a' y known)
  · intro a' packet isPacket
    unfold admitted at isPacket
    dsimp only at isPacket
    rw [Function.update_apply] at isPacket
    split at isPacket
    · cases isPacket
    · obtain ⟨ys, same, known⟩ := sound.packets a' packet isPacket
      exact ⟨ys, same, fun y member => learns.grows a' y (known y member)⟩
  · intro a' y packet pending sending e member
    unfold admitted at sending
    dsimp only at sending
    rw [Function.update_apply] at sending
    split at sending
    · cases sending
    · obtain ⟨z, known, far, same⟩ := sound.pending a' y packet pending sending e member
      exact ⟨z, learns.grows a' z known, far, same⟩
  · intro j y spread spread'
    have before := (spread_update spread).resolve_right nofun
    have before' := (spread_update spread').resolve_right nofun
    exact (sound.informed j y before before').mono learns.grows (by rw [admits.idle]; rfl)

end Admits

theorem Sound.auth (sound : s.Sound net old) {x : ι} {correct : Bool}
    (fired : step net old s (.auth a x correct) = some s') : s'.Sound net old := by
  rw [step] at fired
  split at fired
  · rename_i idle
    split at fired
    · rename_i may
      split at fired
      · obtain rfl := Option.some.inj fired
        exact sound
      · rename_i d letIn
        obtain rfl := Option.some.inj fired
        obtain ⟨unknown, rfl⟩ := Directory.authNode_source letIn
        obtain ⟨tidy, stored, knows⟩ := (sound.tidy x).enlist unknown
        exact (sound.admits idle may.1 may.2).sound sound ⟨tidy, stored, knows⟩
    · cases fired
  · cases fired

/-! ## Runs -/

theorem Sound.step (sound : s.Sound net old) {e : Event ι} (ordered : s.Ordered net e)
    (fired : Membership.step net old s e = some s') : s'.Sound net old := by
  cases e with
  | auth a x correct => exact sound.auth fired
  | add a => exact sound.add fired
  | build a => exact sound.build ordered fired
  | broadcast a => exact sound.broadcast fired
  | deliver a j => exact sound.deliver ordered fired
  | finish a => exact sound.finish fired

/-- When all commands have finished, the nodes agree on who is in the cluster, and so
do their stored lists. -/
theorem agreed_of_ordered {dir : ι → Directory} (acquainted : Acquainted net old dir)
    (run : Reach (Membership.step net old) (Ordered net) (start old dir) s)
    (finished : s.Finished) : s.Agreed :=
  (run.invariant (sound_start acquainted) fun sound ordered fired =>
    sound.step ordered fired).agreed finished

/-! ## Two runs -/

/-- Four nodes with letters for ids and digits for addresses. -/
private def fourHosts : Network (Fin 4) where
  host i :=
    { id := [97 + i.val.toUInt8]
      addr := [49 + i.val.toUInt8]
      port := 7000
      idWord := by fin_cases i <;> decide +kernel
      addrWord := by fin_cases i <;> decide +kernel
      idClean := by fin_cases i <;> decide
      addrClean := by fin_cases i <;> decide }
  secret := lit "s"
  secretWord := by decide +kernel
  ids := by decide
  endpoints := by decide

private def firstTwo (i : Fin 4) : Bool := i < 2

private def twoKnown (i : Fin 4) : Directory where
  own := (fourHosts.host i).id
  nodes := if i < 2 then [fourHosts.entry i 0, fourHosts.entry i 1] else [fourHosts.entry i i]
  dbnodes :=
    if i < 2 then
      let h := fourHosts.host (1 - i)
      some [nodeLine h.id h.addr (natToS h.port)]
    else none

private theorem recorded_of_pair {d : Directory} (own other : RStr × Peer)
    (nodes : ∀ n, n ∈ d.nodes ↔ n = own ∨ n = other) (isOwn : d.own = own.1)
    (apart : other.1 ≠ own.1) (listed : d.listed = [other.1]) : d.Recorded := by
  rw [Directory.Recorded, listed]
  refine ⟨List.nodup_singleton _, ?_⟩
  intro id
  rw [List.mem_singleton, Directory.lookup_ne_none, isOwn]
  constructor
  · intro same
    obtain rfl := same
    exact ⟨apart, other, (nodes other).mpr (Or.inr rfl), rfl⟩
  · intro found
    obtain ⟨notOwn, n, member, rfl⟩ := found
    rcases (nodes n).mp member with rfl | rfl
    · exact absurd rfl notOwn
    · rfl

private theorem acquainted_twoKnown : Acquainted fourHosts firstTwo twoKnown where
  own _ := rfl
  members i isOld := by
    fin_cases i
    · have recorded : (twoKnown 0).Recorded :=
        recorded_of_pair (fourHosts.entry 0 0) (fourHosts.entry 0 1)
          (fun n => List.mem_pair) rfl (by decide) (by decide +kernel)
      exact ⟨recorded, [0, 1], rfl, by decide⟩
    · have recorded : (twoKnown 1).Recorded :=
        recorded_of_pair (fourHosts.entry 1 1) (fourHosts.entry 1 0)
          (fun n => List.mem_pair.trans or_comm) rfl (by decide) (by decide +kernel)
      exact ⟨recorded, [0, 1], rfl, by decide⟩
    · cases isOld
    · cases isOld
  fresh i isNew := by
    fin_cases i
    · cases isNew
    · cases isNew
    · exact ⟨rfl, rfl⟩
    · exact ⟨rfl, rfl⟩

private def inTurn (s : Membership (Fin 4)) : Event (Fin 4) → Bool
  | .build a => ∀ a' x, (s.meet a').spread = some x →
    (s.dir a).nodes.lookup (fourHosts.host x).id ≠ none
  | .deliver a j =>
    (s.dir j).requestFromNode (fourHosts.host a).addr &&
      match s.meet j with
      | .sending _ _ _ => false
      | _ => true
  | _ => true

private theorem ordered_of_inTurn (s : Membership (Fin 4)) (e : Event (Fin 4))
    (turn : inTurn s e = true) : s.Ordered fourHosts e := by
  cases e with
  | build a =>
      have known : ∀ a' x, (s.meet a').spread = some x →
          (s.dir a).nodes.lookup (fourHosts.host x).id ≠ none := of_decide_eq_true turn
      exact known
  | deliver a j =>
      rw [inTurn, Bool.and_eq_true] at turn
      refine ⟨turn.1, ?_⟩
      intro z own rest sending
      rw [sending] at turn
      cases turn.2
  | auth | add | broadcast | finish => trivial

/-- One command after the other. -/
theorem agreed_one_by_one : ∃ s, Reach (Membership.step fourHosts firstTwo) (Ordered fourHosts)
    (start firstTwo twoKnown) s ∧ s.Agreed ∧ s.joined 3 = true := by
  have runs : (runEvents (Membership.step fourHosts firstTwo) (start firstTwo twoKnown)
      [.auth 0 2 true, .add 0, .build 0, .broadcast 0, .deliver 0 1, .deliver 0 2, .finish 0,
        .auth 1 3 true, .add 1, .build 1, .broadcast 1, .deliver 1 0, .deliver 1 2, .deliver 1 3,
        .finish 1]).any
        (fun s => decide (s.Finished ∧ s.joined 3 = true)) = true := by
    decide +kernel
  obtain ⟨s, ran, ends⟩ := (Option.any_eq_true ..).mp runs
  obtain ⟨finished, joined⟩ := of_decide_eq_true ends
  have run : Reach (Membership.step fourHosts firstTwo) (Ordered fourHosts)
      (start firstTwo twoKnown) s :=
    Reach.of_guardedEvents inTurn ordered_of_inTurn _ (by decide +kernel) ran
  exact ⟨s, run, agreed_of_ordered acquainted_twoKnown run finished, joined⟩

/-- The second packet is built before the first arrives: the second fresh node never
hears of the first. -/
theorem overlapping_meets_disagree : Acquainted fourHosts firstTwo twoKnown ∧
    ¬ ∀ s, Reachable (Membership.step fourHosts firstTwo) (start firstTwo twoKnown) s →
      s.Finished → s.Agreed := by
  refine ⟨acquainted_twoKnown, ?_⟩
  intro always
  have runs : (runEvents (Membership.step fourHosts firstTwo) (start firstTwo twoKnown)
      [.auth 0 2 true, .add 0, .auth 1 3 true, .add 1, .build 0, .build 1, .broadcast 0,
        .deliver 0 1, .deliver 0 2, .finish 0, .broadcast 1, .deliver 1 0, .deliver 1 2,
        .deliver 1 3, .finish 1]).any
        (fun s => decide (s.Finished ∧ s.joined 2 = true ∧ s.joined 3 = true ∧
          (s.dir 2).nodes.lookup (fourHosts.host 2).id ≠ none ∧
          (s.dir 3).nodes.lookup (fourHosts.host 2).id = none)) = true := by
    decide +kernel
  obtain ⟨s, ran, ends⟩ := (Option.any_eq_true ..).mp runs
  obtain ⟨finished, joined₂, joined₃, known, missing⟩ := of_decide_eq_true ends
  have agreed := always s (Reachable.of_runEvents _ ran) finished
  exact ((agreed 2 joined₂).2 3 joined₃ _).mp known missing

end Membership

end XFireDB
