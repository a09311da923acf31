import XFireDB.DictRaw

/-!
# Expansion while it is disabled

With `dict_can_expand` off, a full table is to grow only from the forced ratio
`dict_resize_ratio` on.  `dict_should_expand` compares the other way: a full
table grows below the ratio and no longer from it on.
-/

namespace XFireDB

open Lib

/-- The settings after `dict_set_can_expand(0)` and `dict_set_resize_ratio(r)`. -/
def DictGlobals.quiet (r : Int) : DictGlobals := ⟨r, false⟩

/-- The calls under consideration. -/
def DictEvent.Plain : DictEvent → Prop
  | .call (.add _ _ _) => True
  | .call (.delete _) => True
  | .call (.lookup _) => True
  | _ => False

/-- `length / size` of the primary table. -/
def Dict.fill (d : Dict) : Int := d.primary.length.tdiv d.primary.size

/-- The primary table has a bucket to spare. -/
def Dict.Roomy (d : Dict) : Prop := d.primary.length < d.primary.size

instance (d : Dict) : Decidable d.Roomy := inferInstanceAs (Decidable (_ < _))

/-- The calls that meet the condition: insertions find a bucket to spare. -/
def DictEvent.Spare (d : Dict) : DictEvent → Prop
  | .call (.add _ _ _) => d.Roomy
  | .call (.delete _) => True
  | .call (.lookup _) => True
  | _ => False

variable {g : DictGlobals} {r : Int} {d d' : Dict} {key : CStr} {data : DictArg} {t : DictType}

/-- A run of events under one guard is a run under a weaker one. -/
theorem reachable_of_reach {ok : Dict → DictEvent → Prop}
    (run : Reach (dictStep g) ok dictAlloc d) :
    Reachable (rawDictStep g) dictAlloc d := by
  induction run with
  | init => exact .init
  | next _ _ fired ih => exact .next (e := .event _) ih trivial fired

theorem dictForeground_of_idle (off : d.rehashing = false) : dictForeground d = some d := by
  rw [dictForeground, off]
  rfl

/-- What an insertion into an idle dictionary leaves of its tables. -/
theorem dictAdd_frame (off : d.rehashing = false) {rc : Rc}
    (ran : dictAdd g d key data t = some (d', rc)) : (dictExpandIf g d).1.Framed d' := by
  obtain ⟨⟨d₁, ref⟩, link, ran⟩ := Option.bind_eq_some_iff.mp ran
  rw [dictLink_eq, dictForeground_of_idle off, Option.bind_some] at link
  have linked := dictLinkLocked_frame link
  cases ref with
  | none =>
      cases ran
      exact linked
  | some e =>
      obtain ⟨d₂, written, ran⟩ := Option.bind_eq_some_iff.mp ran
      cases ran
      exact linked.trans (Dict.write_frame written)

/-- Expansion of an idle, allocated table starts a rehash if the table is to
expand, and does nothing otherwise. -/
theorem Dict.Sound.expandIf (sound : d.Sound) (off : d.rehashing = false)
    (allocated : 0 < d.primary.size) :
    (dictExpandIf g d).1.rehashing = dictShouldExpand g d ∧
      (dictExpandIf g d).1.primary.size = d.primary.size := by
  rw [dictExpandIf, if_neg (by simp [off]), if_neg (by omega)]
  cases expand : dictShouldExpand g d with
  | false =>
      rw [if_neg Bool.false_ne_true]
      exact ⟨off, rfl⟩
  | true =>
      rw [if_pos rfl]
      rcases (sound.inv.idle off).2 with reset | ⟨a, table⟩
      · rw [reset] at allocated
        exact absurd allocated (by decide)
      · have full := dictShouldExpand_full expand
        have small := sound.inv.growable_of_entries (g := g) sound.room off expand
        obtain ⟨k, _, _, larger⟩ := dictRealSize_double table full small
        have array : d.primary.array ≠ none := by simp [table.array_eq]
        rw [dictExpand, if_neg (Dict.room off full), if_neg (by omega), if_neg array]
        exact ⟨rfl, rfl⟩

/-- While expansion is disabled, a table is to expand when it is full and below
the forced ratio. -/
theorem dictShouldExpand_quiet :
    dictShouldExpand (.quiet r) d = true ↔ ¬ d.Roomy ∧ d.fill < r := by
  rw [dictShouldExpand, DictGlobals.quiet, Bool.and_eq_true, Bool.false_or, decide_eq_true_eq,
    decide_eq_true_eq, Dict.Roomy, Dict.fill, Int.not_lt]

/-- With a bucket to spare the ratio is not reached. -/
theorem Dict.fill_of_roomy (roomy : d.Roomy) (positive : 1 ≤ r) (counted : 0 ≤ d.primary.length) :
    d.fill < r := by
  have zero : d.fill = 0 := Int.tdiv_eq_zero_of_lt counted roomy
  omega

theorem Dict.Sound.length_nonneg (sound : d.Sound) : 0 ≤ d.primary.length := by
  rw [sound.inv.represented.primary.length_eq]
  omega

/-- A run in which every insertion finds a bucket to spare stays in the first
table. -/
theorem spare_run (run : Reach (dictStep (.quiet r)) DictEvent.Spare dictAlloc d) :
    d.rehashing = false ∧ d.primary.size = dictMinimalSize := by
  induction run with
  | init => exact ⟨rfl, rfl⟩
  | @next d d' e before spare fired ih =>
      have sound := Dict.sound_of_reachable (reachable_of_reach before)
      rcases ih with ⟨off, size⟩
      cases e with
      | call c =>
          cases c with
          | add key data t =>
              rw [dictStep] at fired
              split at fired
              · obtain ⟨⟨d₁, reply⟩, called, rfl⟩ := Option.map_eq_some_iff.mp fired
                obtain ⟨⟨d₂, rc⟩, added, same⟩ := Option.map_eq_some_iff.mp called
                cases same
                have frame := dictAdd_frame off added
                have allocated : 0 < d.primary.size := size ▸ (by decide)
                obtain ⟨started, kept⟩ := sound.expandIf (g := .quiet r) off allocated
                have calm : dictShouldExpand (.quiet r) d = false := by
                  rw [Bool.eq_false_iff, ne_eq, dictShouldExpand_quiet]
                  exact fun full => full.1 spare
                rw [frame.rehashing_eq, frame.size_eq, started, kept]
                exact ⟨calm, size⟩
              · cases fired
          | delete key =>
              obtain ⟨⟨d₁, reply⟩, called, rfl⟩ := Option.map_eq_some_iff.mp fired
              obtain ⟨⟨d₂, v⟩, deleted, same⟩ := Option.map_eq_some_iff.mp called
              cases same
              obtain ⟨⟨d₃, e⟩, unlinked, same⟩ := Option.bind_eq_some_iff.mp deleted
              cases same
              obtain ⟨d₄, fore, frame⟩ := dictUnlink_frame unlinked
              rw [dictForeground_of_idle off] at fore
              obtain rfl := Option.some.inj fore
              exact ⟨frame.rehashing_eq.trans off, frame.size_eq.trans size⟩
          | lookup key =>
              obtain ⟨⟨d₁, reply⟩, called, rfl⟩ := Option.map_eq_some_iff.mp fired
              obtain ⟨⟨d₂, v⟩, looked, same⟩ := Option.map_eq_some_iff.mp called
              cases same
              obtain ⟨⟨d₃, e⟩, found, same⟩ := Option.bind_eq_some_iff.mp looked
              cases same
              have fore := dictFind_foreground found
              rw [dictForeground_of_idle off] at fore
              obtain rfl := Option.some.inj fore
              exact ⟨off, size⟩
          | update key data t => exact absurd spare id
          | clear => exact absurd spare id
      | rehash num => exact absurd spare id
      | getSafeIterator => exact absurd spare id
      | iteratorFree => exact absurd spare id

/-- While expansion is disabled, an insertion into an idle table that is not
empty starts an expansion exactly from the ratio on if, and only if, the table
has a bucket to spare.  In a run whose insertions all find one, no expansion
starts and the table keeps its size. -/
theorem expansion_respects_ratio_iff (positive : 1 ≤ r) :
    (∀ d d' key data t rc, Reach (dictStep (.quiet r)) (fun _ e => e.Plain) dictAlloc d →
      d.rehashing = false → 0 < d.primary.size →
      dictAdd (.quiet r) d key data t = some (d', rc) →
      ((d'.rehashing = true ↔ r ≤ d.fill) ↔ d.Roomy)) ∧
    ∀ d, Reach (dictStep (.quiet r)) DictEvent.Spare dictAlloc d →
      d.rehashing = false ∧ d.primary.size = dictMinimalSize := by
  refine ⟨?_, fun d run => spare_run run⟩
  intro d d' key data t rc run off allocated ran
  have sound := Dict.sound_of_reachable (reachable_of_reach run)
  have started : d'.rehashing = true ↔ ¬ d.Roomy ∧ d.fill < r := by
    rw [(dictAdd_frame off ran).rehashing_eq, (sound.expandIf off allocated).1,
      dictShouldExpand_quiet]
  rw [started]
  by_cases roomy : d.Roomy
  · have below := Dict.fill_of_roomy roomy positive sound.length_nonneg
    refine iff_of_true (iff_of_false ?_ (not_le.mpr below)) roomy
    exact fun full => full.1 roomy
  · refine iff_of_false ?_ roomy
    intro same
    rcases Int.lt_or_le d.fill r with below | reached
    · exact absurd (same.mp ⟨roomy, below⟩) (not_le.mpr below)
    · exact absurd (same.mpr reached).2 (not_lt.mpr reached)

/-- Three keys in the first table. -/
def threeLetters : List DictEvent := [addLetter 0, addLetter 1, addLetter 2]

/-- The decidable form of the condition. -/
def DictEvent.spareB (d : Dict) : DictEvent → Bool
  | .call (.add _ _ _) => decide d.Roomy
  | .call (.delete _) => true
  | .call (.lookup _) => true
  | _ => false

theorem DictEvent.spare_of_spareB (d : Dict) (e : DictEvent) (spare : e.spareB d = true) :
    e.Spare d := by
  cases e with
  | call c =>
      cases c with
      | add key data t => exact (decide_eq_true_iff (p := d.Roomy)).mp spare
      | delete key => trivial
      | lookup key => trivial
      | update key data t => cases spare
      | clear => cases spare
  | _ => cases spare

theorem expansion_respects_ratio_threeLetters :
    ∃ d, runEvents (dictStep (.quiet 5)) dictAlloc threeLetters = some d ∧ d.Roomy ∧
      d.rehashing = false ∧ d.primary.size = 4 :=
  ⟨_, rfl, by decide, (expansion_respects_ratio_iff (r := 5) (by decide)).2 _
    (Reach.of_guardedEvents DictEvent.spareB DictEvent.spare_of_spareB threeLetters rfl rfl)⟩

/-- With the ratio 5 and expansion disabled, the fifth insertion starts an
expansion at the ratio 1. -/
theorem fifth_insertion_expands :
    ∃ d d', runEvents (dictStep (.quiet 5)) dictAlloc (threeLetters ++ [addLetter 4]) = some d ∧
      d.rehashing = false ∧ d.fill = 1 ∧
      dictAdd (.quiet 5) d (letterKey 6) ⟨0, 0⟩ .ptr = some (d', .ok) ∧
      ¬ (d'.rehashing = true ↔ 5 ≤ d.fill) := by
  refine ⟨_, _, rfl, rfl, rfl, rfl, ?_⟩
  intro same
  exact absurd (same.mp rfl) (by decide)

end XFireDB
