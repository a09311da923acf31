import XFireDB.SlotMigration

/-!
# The stored slots

A node keeps its slots twice: in the shard, and joined with colons under
`db['xfiredb']['shards']`, from which `LocalNode#initialize` reads them at the
next start.  `CLUSTER MIGRATE` writes the record anew, an `ADDSLOTS` message
prepends to it.
-/

namespace XFireDB

/-- `split(':')`: trailing empty pieces are dropped. -/
def splitColon (s : RStr) : List RStr := (s.splitOn 58).rdropWhile (· = [])

theorem mem_of_mem_splitOn {s part : RStr} {sep b : UInt8} (member : part ∈ s.splitOn sep)
    (inside : b ∈ part) : b ∈ s ∧ b ≠ sep := by
  rw [List.splitOn_eq_splitOnP] at member
  obtain ⟨within, other⟩ := mem_of_mem_splitOnP member inside
  exact ⟨within, by simpa using other⟩

/-- The pieces hold bytes of the text, and no colon. -/
theorem mem_of_mem_splitColon {s part : RStr} {b : UInt8} (member : part ∈ splitColon s)
    (inside : b ∈ part) : b ∈ s ∧ b ≠ 58 :=
  mem_of_mem_splitOn ((List.rdropWhile_prefix _ _).subset member) inside

theorem rdropWhile_append {α : Type} (p : α → Bool) (xs ys : List α) :
    (xs ++ ys).rdropWhile p =
      if ys.rdropWhile p = [] then xs.rdropWhile p else xs ++ ys.rdropWhile p := by
  unfold List.rdropWhile
  rw [List.reverse_append, List.dropWhile_append]
  by_cases empty : ys.reverse.dropWhile p = []
  · simp [empty]
  · simp [empty]

theorem splitColon_append (text old : RStr) : splitColon (text ++ lit ":" ++ old) =
    if splitColon old = [] then splitColon text else text.splitOn 58 ++ splitColon old := by
  have colon : text ++ lit ":" ++ old = text ++ 58 :: old := by
    simp [lit]
  rw [splitColon, colon, List.splitOn_append_cons_self, rdropWhile_append]
  rfl

theorem splitOn_join {parts : List RStr} (clean : ∀ p ∈ parts, 58 ∉ p) (some_ : parts ≠ []) :
    (join (lit ":") parts).splitOn 58 = parts :=
  List.splitOn_intercalate 58 clean some_

namespace Slots

open Lib

/-- How `LocalNode#initialize` reads the record. -/
def decode : Option RStr → List RStr
  | none => []
  | some text => setMerge [] (splitColon text)

/-- A node after its start: `initialize` reads the record, `load_keys` the keys
of the database. -/
def Member.localNode (record : Option CStr) (dbKeys : List RStr) : Member where
  shard :=
    { slots := setMerge [] (decode (record.map CStr.toR))
      keys := setMerge [] dbKeys
      slotsNodup := nodup_setMerge List.nodup_nil _
      keysNodup := nodup_setMerge List.nodup_nil _ }
  record := record.map CStr.toR

/-- A store of the record; of a text with a NUL it raises an `ArgumentError`, and
what was stored before stays. -/
def Member.store (m : Member) (old : Option RStr) : Member :=
  match m.record with
  | some text => if 0 ∈ text then { m with record := old } else m
  | none => m

inductive Operation
  /-- `LocalNode#migrate` up to its first message -/
  | migrate (num : Int)
  /-- the handler of an `ADDSLOTS` message with this line -/
  | addSlots (line : RStr)

def Member.operate (m : Member) : Operation → Member
  | .migrate num => Member.store
      (Member.rewriteRecord { m with shard := (m.shard.reshard num).1 }) m.record
  | .addSlots line => Member.store (m.addSlots (splitSpace (wireLine line))) m.record

/-- A restart neither loses nor invents a slot. -/
def Member.Persisted (m : Member) : Prop := ∀ slot, slot ∈ decode m.record ↔ slot ∈ m.shard.slots

/-- The operation keeps the record in step.  An empty `ADDSLOTS` line puts an empty
piece before the old record, a word with a colon comes back as two, one with a NUL
cannot be stored, and an empty slot at the end is lost by `split`. -/
def Faithful (m : Member) : Operation → Prop
  | .migrate num => (m.shard.slots.drop num.toNat).getLast? ≠ some []
  | .addSlots line =>
    (∀ word ∈ splitSpace (wireLine line), 58 ∉ word ∧ 0 ∉ word) ∧
      (splitSpace (wireLine line) = [] → m.shard.slots = [] ∨ [] ∈ m.shard.slots)

/-! ## One operation -/

/-- What is stored is a C string. -/
def Member.Storable (m : Member) : Prop := ∀ text, m.record = some text → 0 ∉ text

variable {m : Member}

@[simp] theorem mem_decode_some {text slot : RStr} :
    slot ∈ decode (some text) ↔ slot ∈ splitColon text := by
  simp [decode]

theorem Member.Persisted.clean (same : m.Persisted) (storable : m.Storable) {slot : RStr}
    (member : slot ∈ m.shard.slots) : 58 ∉ slot ∧ 0 ∉ slot := by
  have stored := (same slot).mpr member
  cases record : m.record with
  | none =>
      rw [record] at stored
      cases stored
  | some text =>
      rw [record, mem_decode_some] at stored
      constructor
      · intro colon
        exact (mem_of_mem_splitColon stored colon).2 rfl
      · intro nul
        exact storable text record (mem_of_mem_splitColon stored nul).1

theorem Member.store_of_clean {old : Option RStr} (storable : m.Storable) : m.store old = m := by
  unfold store
  split
  · rename_i text record
    rw [if_neg (storable text record)]
  · rfl

theorem Member.store_shard (m : Member) (old : Option RStr) : (m.store old).shard = m.shard := by
  unfold store
  split
  · split <;> rfl
  · rfl

theorem Member.store_storable {old : Option RStr} (storable : ∀ text, old = some text → 0 ∉ text) :
    (m.store old).Storable := by
  unfold store
  split
  · rename_i text record
    by_cases nul : 0 ∈ text
    · rw [if_pos nul]
      exact storable
    · rw [if_neg nul]
      intro other same
      rw [record] at same
      obtain rfl := Option.some.inj same
      exact nul
  · rename_i record
    intro text same
    rw [record] at same
    cases same

theorem Member.operate_storable (storable : m.Storable) (op : Operation) :
    (m.operate op).Storable := by
  cases op with
  | migrate num => exact store_storable storable
  | addSlots line => exact store_storable storable

/-- The record of a list of slots reads back as that list if the last slot is not
empty. -/
theorem mem_splitColon_join {slots : List RStr} (clean : ∀ slot ∈ slots, 58 ∉ slot)
    (nodup : slots.Nodup) (some_ : slots ≠ []) :
    (∀ slot, slot ∈ splitColon (join (lit ":") slots) ↔ slot ∈ slots) ↔
      slots.getLast? ≠ some [] := by
  rw [splitColon, splitOn_join clean some_]
  obtain ⟨front, last, rfl⟩ := List.eq_nil_or_concat slots |>.resolve_left some_
  rw [List.concat_eq_append] at *
  rw [List.getLast?_concat, List.rdropWhile_concat]
  by_cases empty : last = []
  · subst empty
    have fresh : [] ∉ front := by
      intro member
      exact (List.nodup_append.mp nodup).2.2 [] member [] List.mem_cons_self rfl
    simp only [decide_true, if_true, ne_eq, not_true, iff_false]
    intro same
    have kept := (same []).mpr (List.mem_append_right front List.mem_cons_self)
    exact fresh ((List.rdropWhile_prefix _ _).subset kept)
  · simp [empty]

theorem persisted_migrate (storable : m.Storable) (same : m.Persisted) (num : Int) :
    (m.operate (.migrate num)).Persisted ↔ Faithful m (.migrate num) := by
  have kept := m.shard.reshard_slots num
  have clean : ∀ slot ∈ m.shard.slots.drop num.toNat, 58 ∉ slot ∧ 0 ∉ slot := by
    intro slot member
    exact same.clean storable (List.mem_of_mem_drop member)
  have written : Member.Storable
      (Member.rewriteRecord { m with shard := (m.shard.reshard num).1 }) := by
    intro text record nul
    unfold Member.rewriteRecord at record
    rw [kept] at record
    split at record
    · obtain rfl := Option.some.inj record
      rcases mem_join nul with colon | ⟨slot, member, nul⟩
      · exact absurd colon (by decide)
      · exact (clean slot member).2 nul
    · cases record
  rw [Faithful, Member.operate, Member.store_of_clean written, Member.Persisted,
    Member.rewriteRecord]
  simp only [kept]
  by_cases empty : m.shard.slots.drop num.toNat = []
  · simp [empty, decode]
  · rw [if_pos (List.length_pos_iff.mpr empty)]
    simp only [mem_decode_some]
    exact mem_splitColon_join (fun slot member => (clean slot member).1)
      (m.shard.slotsNodup.sublist (List.drop_sublist _ _)) empty

theorem splitColon_join {words : List RStr} (clean : ∀ word ∈ words, 58 ∉ word)
    (words_ : ∀ word ∈ words, word ≠ []) : splitColon (join (lit ":") words) = words := by
  by_cases empty : words = []
  · subst empty
    rfl
  · rw [splitColon, splitOn_join clean empty, List.rdropWhile_eq_self_iff]
    intro some_
    simpa using words_ _ (List.getLast_mem some_)

/-- What the record reads as after an `ADDSLOTS` message. -/
theorem mem_decode_addSlots {words : List RStr} (clean : ∀ word ∈ words, 58 ∉ word)
    (words_ : ∀ word ∈ words, word ≠ []) {slot : RStr} :
    slot ∈ decode (m.addSlots words).record ↔
      slot ∈ words ∨ slot ∈ decode m.record ∨
        (words = [] ∧ decode m.record ≠ [] ∧ slot = []) := by
  unfold Member.addSlots
  cases record : m.record with
  | none => simp [splitColon_join clean words_, decode]
  | some old =>
      have blank : decode (some old) = [] ↔ splitColon old = [] := by
        simp only [List.eq_nil_iff_forall_not_mem, mem_decode_some]
      simp only [mem_decode_some, splitColon_append, ne_eq, blank]
      by_cases empty : splitColon old = []
      · simp [empty, splitColon_join clean words_]
      · simp only [empty, if_false, List.mem_append]
        by_cases nothing : words = []
        · subst nothing
          simp [join, or_comm]
        · simp [splitOn_join clean nothing, nothing]

theorem Member.Storable.addSlots {words : List RStr} (storable : m.Storable)
    (clean : ∀ word ∈ words, 0 ∉ word) : (m.addSlots words).Storable := by
  have joined : 0 ∉ join (lit ":") words := by
    intro nul
    rcases mem_join nul with colon | ⟨word, member, nul⟩
    · exact absurd colon (by decide)
    · exact clean word member nul
  intro text record
  unfold Member.addSlots at record
  cases stored : m.record with
  | none =>
      rw [stored] at record
      obtain rfl := Option.some.inj record
      exact joined
  | some old =>
      rw [stored] at record
      obtain rfl := Option.some.inj record
      rw [List.mem_append, List.mem_append]
      intro either
      rcases either with (front | colon) | back
      · exact joined front
      · exact absurd colon (by decide)
      · exact storable old stored back

theorem persisted_addSlots (storable : m.Storable) (same : m.Persisted) (line : RStr) :
    (m.operate (.addSlots line)).Persisted ↔ Faithful m (.addSlots line) := by
  have shard : (m.operate (.addSlots line)).shard =
      m.shard.addSlots (splitSpace (wireLine line)) := Member.store_shard _ _
  have words_ : ∀ word ∈ splitSpace (wireLine line), word ≠ [] := by
    intro word member
    exact (isWord_of_mem_splitSpace member).1
  have listed : ∀ word ∈ splitSpace (wireLine line),
      word ∈ (m.operate (.addSlots line)).shard.slots := by
    intro word member
    rw [shard]
    exact mem_setMerge.mpr (Or.inr member)
  rw [Faithful]
  by_cases clean : ∀ word ∈ splitSpace (wireLine line), 58 ∉ word ∧ 0 ∉ word
  · have blank : decode m.record = [] ↔ m.shard.slots = [] := by
      simp only [List.eq_nil_iff_forall_not_mem, same _]
    rw [Member.operate, Member.store_of_clean (storable.addSlots fun word member =>
      (clean word member).2), Member.Persisted]
    have held : ∀ slot, slot ∈ (m.addSlots (splitSpace (wireLine line))).shard.slots ↔
        slot ∈ m.shard.slots ∨ slot ∈ splitSpace (wireLine line) := fun _ => mem_setMerge
    simp only [mem_decode_addSlots (fun word member => (clean word member).1) words_, same _, held,
      ne_eq, blank]
    constructor
    · intro after
      refine ⟨clean, ?_⟩
      intro empty
      by_cases noSlots : m.shard.slots = []
      · exact Or.inl noSlots
      · have invented := (after []).mp (Or.inr (Or.inr ⟨empty, noSlots, rfl⟩))
        rw [empty] at invented
        exact Or.inr (invented.resolve_right List.not_mem_nil)
    · intro faithful slot
      constructor
      · intro either
        rcases either with new | old | ⟨empty, noSlots, rfl⟩
        · exact Or.inr new
        · exact Or.inl old
        · exact Or.inl ((faithful.2 empty).resolve_left noSlots)
      · intro either
        rcases either with old | new
        · exact Or.inr (Or.inl old)
        · exact Or.inl new
  · constructor
    · intro after
      exact absurd (fun word member =>
        after.clean (m.operate_storable storable _) (listed word member)) clean
    · intro faithful
      exact absurd faithful.1 clean

/-! ## Runs -/

theorem Member.storable_localNode (record : Option CStr) (dbKeys : List RStr) :
    (localNode record dbKeys).Storable := by
  intro text stored
  obtain ⟨source, _, rfl⟩ := Option.map_eq_some_iff.mp stored
  exact source.nulFree

theorem Member.persisted_localNode (record : Option CStr) (dbKeys : List RStr) :
    (localNode record dbKeys).Persisted := by
  intro slot
  simp [localNode]

/-- For every stored record that a node starts from and every sequence of
`MIGRATE` runs and `ADDSLOTS` messages, the record reads as the node's slots after
each of them exactly if each keeps it in step. -/
theorem persisted_iff_faithful (record : Option CStr) (dbKeys : List RStr)
    (operations : List Operation) :
    AfterEach (fun m op => some (Member.operate m op)) Member.Persisted
        (Member.localNode record dbKeys) operations ↔
      AllMeet (fun m op => some (Member.operate m op)) Faithful
        (Member.localNode record dbKeys) operations := by
  refine afterEach_iff_allMeet (I := Member.Storable) (D := fun _ => True) ?_ ?_
    (fun _ _ => trivial) (Member.storable_localNode record dbKeys)
    (Member.persisted_localNode record dbKeys)
  · intro m op m' storable _ fired
    obtain rfl := Option.some.inj fired
    exact m.operate_storable storable op
  · intro m op m' storable _ same fired
    obtain rfl := Option.some.inj fired
    cases op with
    | migrate num => exact persisted_migrate storable same num
    | addSlots line => exact persisted_addSlots storable same line

private def slotFive : CStr := ⟨[53], by decide⟩

/-- `MIGRATE 0` elsewhere sends this node, which holds slot 5, an empty line: the
record becomes `:5`, which reads as the slots `""` and `5`. -/
theorem empty_addSlots_invents :
    ¬AfterEach (fun m op => some (Member.operate m op)) Member.Persisted
      (Member.localNode (some slotFive) []) [.addSlots (lit "")] := by
  intro after
  obtain ⟨same, _⟩ := after _ rfl
  exact absurd ((same []).mp (by decide)) (by decide)

end Slots

end XFireDB
