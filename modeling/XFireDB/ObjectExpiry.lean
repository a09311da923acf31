import XFireDB.Bitops
import XFireDB.Hash

/-!
# Expiry of objects

`storage/object.c`: the expiry time of an object, the flag in which a read notes that the object
has expired, and the runs of the three calls.  Times are `long`s, and a difference of two
that is not one has no result (`none`).
-/

namespace XFireDB

/-- The value of a `long`. -/
def IsLong (n : Int) : Prop := -2 ^ 63 ≤ n ∧ n < 2 ^ 63

instance (n : Int) : Decidable (IsLong n) := inferInstanceAs (Decidable (_ ∧ _))

/-- `time_after(a, b)`. -/
def timeAfter (a b : Int) : Option Bool :=
  if IsLong (b - a) then some (decide (b - a < 0)) else none

/-- `struct object`, without its lock. -/
structure Object where
  crea : Int
  exp : Int
  flags : BitVec 64
deriving DecidableEq

/-- `OBJECT_EXPIRED_FLAG`. -/
def objectExpiredFlag : Nat := 1

/-- Store the flags that an operation on them has left. -/
def Object.setFlags (obj : Object) (flags : List (BitVec 64)) : Object :=
  { obj with flags := flags.headD 0 }

/-- `object_init` at the time stamp `now`. -/
def objectInit (now : Int) : Object := ⟨now, 0, 0#64⟩

/-- `object_has_expired`. -/
def objectHasExpired (now : Int) (obj : Object) : Option (Bool × Object) := do
  let flag ← testBit objectExpiredFlag [obj.flags]
  if flag ≠ 0 then some (true, obj)
  else
    let rv ← timeAfter now obj.exp
    if rv then
      let flags ← setBit objectExpiredFlag [obj.flags]
      some (rv, obj.setFlags flags)
    else some (rv, obj)

/-- `object_set_expiry`. -/
def objectSetExpiry (now exp : Int) (obj : Object) : Option (Rc × Object) := do
  if exp = 0 then some (.err, obj)
  else
    let late ← timeAfter now exp
    if late then some (.err, obj)
    else
      let flags ← clearBit objectExpiredFlag [obj.flags]
      some (.ok, { obj.setFlags flags with exp := exp })

/-! ## What the calls do -/

/-- The flag of an object that has expired. -/
def Object.expired (obj : Object) : Bool := bitOf [obj.flags] objectExpiredFlag

theorem Object.expired_setFlags {obj : Object} {flags : List (BitVec 64)} {b : Bool}
    (writes : Writes [obj.flags] flags objectExpiredFlag b) : (obj.setFlags flags).expired = b := by
  obtain ⟨word, rfl⟩ := List.length_eq_one_iff.mp writes.length_eq
  exact (writes.bits objectExpiredFlag).trans (if_pos rfl)

theorem objectFlag_acts (obj : Object) :
    ActsOn [obj.flags] objectExpiredFlag objectExpiredFlag :=
  actsOn_self (Nat.le_refl 1) (by decide)

theorem objectHasExpired_of_expired {obj : Object} (expired : obj.expired = true) (now : Int) :
    objectHasExpired now obj = some (true, obj) := by
  have read := (objectFlag_acts obj).test
  rw [← Object.expired, expired] at read
  rw [objectHasExpired, read]
  rfl

/-- With the flag clear the time decides, and is noted. -/
theorem objectHasExpired_of_not_expired {obj : Object} (fresh : obj.expired = false) (now : Int) :
    ∃ marked : Object, marked.exp = obj.exp ∧ marked.expired = true ∧
      objectHasExpired now obj =
        (timeAfter now obj.exp).map fun rv => (rv, if rv then marked else obj) := by
  have read := (objectFlag_acts obj).test
  rw [← Object.expired, fresh] at read
  obtain ⟨flags, wrote, writes⟩ := (objectFlag_acts obj).set
  refine ⟨obj.setFlags flags, rfl, Object.expired_setFlags writes, ?_⟩
  rw [objectHasExpired, read, wrote]
  cases timeAfter now obj.exp with
  | none => rfl
  | some rv => cases rv <;> rfl

/-- A new expiry is set, with the flag cleared, unless it is zero or over. -/
theorem objectSetExpiry_eq (now exp : Int) (obj : Object) :
    ∃ set : Object, set.exp = exp ∧ set.expired = false ∧
      objectSetExpiry now exp obj =
        if exp = 0 then some (.err, obj)
        else (timeAfter now exp).map fun late => if late then (.err, obj) else (.ok, set) := by
  obtain ⟨flags, wrote, writes⟩ := (objectFlag_acts obj).clear
  refine ⟨{ obj.setFlags flags with exp := exp }, rfl, Object.expired_setFlags writes, ?_⟩
  rw [objectSetExpiry, wrote]
  by_cases zero : exp = 0
  · rw [if_pos zero, if_pos zero]
  · rw [if_neg zero, if_neg zero]
    cases timeAfter now exp with
    | none => rfl
    | some late => cases late <;> rfl

theorem objectSetExpiry_err {now exp : Int} {obj obj' : Object}
    (failed : objectSetExpiry now exp obj = some (.err, obj')) : obj' = obj := by
  obtain ⟨set, -, -, eq⟩ := objectSetExpiry_eq now exp obj
  rw [eq] at failed
  split at failed
  · cases failed
    rfl
  · obtain ⟨late, -, failed⟩ := Option.map_eq_some_iff.mp failed
    cases late
    · cases failed
    · cases failed
      rfl

/-! ## Runs -/

/-- The calls on an object. -/
inductive ObjectCall
  | init
  | setExpiry (exp : Int)
  | hasExpired
deriving DecidableEq

/-- An object in a run: the time of the last call, the expiry that has last been set with
success, and the answer if the last call was a question. -/
structure ObjectRun where
  clock : Int
  obj : Object
  expiry : Option Int
  answer : Option Bool
deriving DecidableEq

namespace ObjectRun

/-- `object_init`, with which a run starts. -/
def start (now : Int) : ObjectRun := ⟨now, objectInit now, none, none⟩

/-- One call at the time stamp `now`. -/
def step (s : ObjectRun) (now : Int) : ObjectCall → Option ObjectRun
  | .init => some (start now)
  | .setExpiry exp =>
    (objectSetExpiry now exp s.obj).map fun done =>
      ⟨now, done.2, if done.1 = .ok then some exp else s.expiry, none⟩
  | .hasExpired =>
    (objectHasExpired now s.obj).map fun done => ⟨now, done.2, s.expiry, some done.1⟩

/-- A question is answered by whether there is an expiry and it is over, and never with
yes while the expiry time is zero. -/
def Right (s : ObjectRun) : Prop :=
  ∀ answer, s.answer = some answer →
    (answer = true ↔ ∃ exp, s.expiry = some exp ∧ exp < s.clock) ∧
    (s.obj.exp = 0 → answer = false)

/-- Every call has a result and every question the right answer. -/
def Exact : ObjectRun → List (Int × ObjectCall) → Prop
  | _, [] => True
  | s, (now, call) :: rest => ∃ s', s.step now call = some s' ∧ s'.Right ∧ s'.Exact rest

/-- The condition on one call: an object is only asked after zero if an expiry has been set,
and the difference of the times is a `long`, where one is taken. -/
def Safe (s : ObjectRun) (now : Int) : ObjectCall → Prop
  | .init => True
  | .setExpiry exp => exp ≠ 0 → IsLong (exp - now)
  | .hasExpired =>
    (s.expiry = none → now ≤ 0) ∧ (s.obj.expired = false → IsLong (s.obj.exp - now))

/-- Every call meets the condition where it is made. -/
def AllSafe : ObjectRun → List (Int × ObjectCall) → Prop
  | _, [] => True
  | s, (now, call) :: rest =>
    s.Safe now call ∧ ∀ s', s.step now call = some s' → s'.AllSafe rest

/-- The expiry time is the one that has been set, or zero, and the flag tells that it is
over. -/
structure Kept (s : ObjectRun) : Prop where
  exp_eq : s.obj.exp = s.expiry.getD 0
  nonzero : s.expiry ≠ some 0
  past : s.obj.expired = true → ∃ exp, s.expiry = some exp ∧ exp < s.clock

theorem start_kept (now : Int) : (start now).Kept := by
  have fresh : bitOf [0#64] objectExpiredFlag = false := by decide
  refine ⟨rfl, (Option.some_ne_none 0).symm, ?_⟩
  intro expired
  cases fresh.symm.trans expired

theorem Kept.exp_zero_iff {s : ObjectRun} (kept : s.Kept) : s.obj.exp = 0 ↔ s.expiry = none := by
  have exp := kept.exp_eq
  have nonzero := kept.nonzero
  rcases set : s.expiry with - | e
  · rw [set] at exp
    exact iff_of_true exp rfl
  · rw [set] at exp nonzero
    exact iff_of_false (fun zero => nonzero (congrArg some (exp.symm.trans zero))) (by simp)

theorem timeAfter_eq_some {a b : Int} {late : Bool} :
    timeAfter a b = some late ↔ IsLong (b - a) ∧ (late = true ↔ b < a) := by
  rw [timeAfter]
  split
  · rename_i inside
    rw [and_iff_right inside, Option.some.injEq, eq_comm, Bool.eq_iff_iff, decide_eq_true_iff,
      sub_neg]
  · rename_i outside
    exact iff_of_false (Option.some_ne_none late).symm fun found => outside found.1

theorem timeAfter_isLong {a b : Int} (inside : IsLong (b - a)) :
    timeAfter a b = some (decide (b < a)) :=
  timeAfter_eq_some.mpr ⟨inside, decide_eq_true_iff⟩

/-- A question has the right answer exactly where it meets the condition. -/
theorem Kept.hasExpired_right_iff {s : ObjectRun} (kept : s.Kept) {now : Int}
    (later : s.clock ≤ now) :
    (∃ s', s.step now .hasExpired = some s' ∧ s'.Right) ↔ s.Safe now .hasExpired := by
  cases expired : s.obj.expired with
  | true =>
      obtain ⟨exp, set, past⟩ := kept.past expired
      have nonzero : s.obj.exp ≠ 0 := fun zero => by
        rw [kept.exp_zero_iff.mp zero] at set
        cases set
      refine iff_of_true ⟨⟨now, s.obj, s.expiry, some true⟩, ?_, ?_⟩ ⟨?_, ?_⟩
      · rw [step, objectHasExpired_of_expired expired]
        rfl
      · intro answer given
        obtain rfl := Option.some.inj given
        exact ⟨iff_of_true rfl ⟨exp, set, past.trans_le later⟩, fun zero => absurd zero nonzero⟩
      · intro unset
        rw [unset] at set
        cases set
      · intro fresh
        rw [expired] at fresh
        cases fresh
  | false =>
      obtain ⟨marked, exp, -, eq⟩ := objectHasExpired_of_not_expired expired now
      rw [Safe, step, eq]
      constructor
      · intro right
        obtain ⟨s', ran, right⟩ := right
        obtain ⟨done, answered, rfl⟩ := Option.map_eq_some_iff.mp ran
        obtain ⟨rv, after, rfl⟩ := Option.map_eq_some_iff.mp answered
        obtain ⟨inside, late⟩ := timeAfter_eq_some.mp after
        refine ⟨?_, fun _ => inside⟩
        intro unset
        by_contra positive
        have zero := kept.exp_zero_iff.mpr unset
        obtain ⟨exp, set, -⟩ := (right rv rfl).1.mp (late.mpr (by omega))
        rw [unset] at set
        cases set
      · intro safe
        rw [timeAfter_isLong (safe.2 expired)]
        refine ⟨_, rfl, ?_⟩
        intro answer given
        obtain rfl := Option.some.inj given
        have sameExp : (if decide (s.obj.exp < now) then marked else s.obj).exp = s.obj.exp := by
          split
          · exact exp
          · rfl
        rw [decide_eq_true_iff, decide_eq_false_iff_not, sameExp, kept.exp_zero_iff, kept.exp_eq]
        rcases set : s.expiry with - | e
        · have before := safe.1 set
          refine ⟨iff_of_false (not_lt.mpr before) ?_, fun _ => not_lt.mpr before⟩
          intro found
          obtain ⟨e, impossible, -⟩ := found
          cases impossible
        · refine ⟨⟨fun past => ⟨e, rfl, past⟩, ?_⟩, ?_⟩
          · intro found
            obtain ⟨e', same, past⟩ := found
            obtain rfl := Option.some.inj same
            exact past
          · intro unset
            cases unset

/-- An expiry can be set exactly where the difference is a `long`. -/
theorem setExpiry_right_iff (s : ObjectRun) (now exp : Int) :
    (∃ s', s.step now (.setExpiry exp) = some s' ∧ s'.Right) ↔ s.Safe now (.setExpiry exp) := by
  obtain ⟨set, -, -, eq⟩ := objectSetExpiry_eq now exp s.obj
  rw [Safe, step, eq]
  constructor
  · intro right nonzero
    obtain ⟨s', ran, -⟩ := right
    rw [if_neg nonzero] at ran
    obtain ⟨done, tried, -⟩ := Option.map_eq_some_iff.mp ran
    obtain ⟨late, after, -⟩ := Option.map_eq_some_iff.mp tried
    exact (timeAfter_eq_some.mp after).1
  · intro safe
    have unasked : ∀ t : ObjectRun, t.answer = none → t.Right := by
      intro t none answer given
      rw [none] at given
      cases given
    by_cases zero : exp = 0
    · rw [if_pos zero]
      exact ⟨_, rfl, unasked _ rfl⟩
    · rw [if_neg zero, timeAfter_isLong (safe zero)]
      exact ⟨_, rfl, unasked _ rfl⟩

theorem Kept.right_iff {s : ObjectRun} (kept : s.Kept) {now : Int} (later : s.clock ≤ now)
    (call : ObjectCall) : (∃ s', s.step now call = some s' ∧ s'.Right) ↔ s.Safe now call := by
  cases call with
  | init =>
      refine iff_of_true ⟨start now, rfl, ?_⟩ trivial
      intro answer given
      cases given
  | setExpiry exp => exact setExpiry_right_iff s now exp
  | hasExpired => exact kept.hasExpired_right_iff later

/-- Time passes, and nothing else happens. -/
theorem Kept.wait {s : ObjectRun} (kept : s.Kept) {now : Int} (later : s.clock ≤ now)
    (answer : Option Bool) : (⟨now, s.obj, s.expiry, answer⟩ : ObjectRun).Kept := by
  refine ⟨kept.exp_eq, kept.nonzero, ?_⟩
  intro expired
  obtain ⟨e, same, past⟩ := kept.past expired
  exact ⟨e, same, past.trans_le later⟩

theorem Kept.setExpiry {s s' : ObjectRun} (kept : s.Kept) {now exp : Int} (later : s.clock ≤ now)
    (ran : s.step now (.setExpiry exp) = some s') : s'.Kept ∧ s'.clock = now := by
  obtain ⟨set, setExp, cleared, eq⟩ := objectSetExpiry_eq now exp s.obj
  rw [ObjectRun.step, eq] at ran
  by_cases zero : exp = 0
  · rw [if_pos zero] at ran
    cases ran
    exact ⟨kept.wait later none, rfl⟩
  · rw [if_neg zero] at ran
    obtain ⟨done, tried, rfl⟩ := Option.map_eq_some_iff.mp ran
    obtain ⟨late, -, rfl⟩ := Option.map_eq_some_iff.mp tried
    cases late with
    | true => exact ⟨kept.wait later none, rfl⟩
    | false =>
        refine ⟨⟨setExp, fun same => zero (Option.some.inj same), ?_⟩, rfl⟩
        intro expired
        cases cleared.symm.trans expired

theorem Kept.hasExpired {s s' : ObjectRun} (kept : s.Kept) {now : Int} (later : s.clock ≤ now)
    (safe : s.Safe now .hasExpired) (ran : s.step now .hasExpired = some s') :
    s'.Kept ∧ s'.clock = now := by
  cases expired : s.obj.expired with
  | true =>
      rw [ObjectRun.step, objectHasExpired_of_expired expired] at ran
      cases ran
      exact ⟨kept.wait later (some true), rfl⟩
  | false =>
      obtain ⟨marked, exp, -, eq⟩ := objectHasExpired_of_not_expired expired now
      rw [ObjectRun.step, eq, timeAfter_isLong (safe.2 expired)] at ran
      by_cases past : s.obj.exp < now
      · rw [decide_eq_true past] at ran
        cases ran
        refine ⟨⟨exp.trans kept.exp_eq, kept.nonzero, ?_⟩, rfl⟩
        intro _
        -- the flag is only set for an expiry, since without one it is not yet after zero
        rcases set : s.expiry with - | e
        · have zero := kept.exp_zero_iff.mpr set
          have before := safe.1 set
          omega
        · have same := kept.exp_eq
          rw [set, Option.getD_some] at same
          exact ⟨e, rfl, same ▸ past⟩
      · rw [decide_eq_false past] at ran
        cases ran
        exact ⟨kept.wait later (some false), rfl⟩

/-- A call that meets the condition keeps what ties the object to the expiry. -/
theorem Kept.step {s s' : ObjectRun} (kept : s.Kept) {now : Int} (later : s.clock ≤ now)
    {call : ObjectCall} (safe : s.Safe now call) (ran : s.step now call = some s') :
    s'.Kept ∧ s'.clock = now := by
  cases call with
  | init =>
      cases ran
      exact ⟨start_kept now, rfl⟩
  | setExpiry exp => exact kept.setExpiry later ran
  | hasExpired => exact kept.hasExpired later safe ran

/-- With a clock that does not go back, a run is right exactly if each of its calls meets
the condition. -/
theorem Kept.exact_iff {s : ObjectRun} (kept : s.Kept) {calls : List (Int × ObjectCall)}
    (forward : List.IsChain (· ≤ ·) (s.clock :: calls.map Prod.fst)) :
    s.Exact calls ↔ s.AllSafe calls := by
  induction calls generalizing s with
  | nil => exact Iff.rfl
  | cons event rest ih =>
      obtain ⟨now, call⟩ := event
      rw [List.map_cons, List.isChain_cons_cons] at forward
      obtain ⟨later, forward⟩ := forward
      have next : ∀ s', s.Safe now call → s.step now call = some s' →
          (s'.Exact rest ↔ s'.AllSafe rest) := by
        intro s' safe ran
        obtain ⟨kept', clock⟩ := kept.step later safe ran
        exact ih kept' (clock ▸ forward)
      rw [Exact, AllSafe]
      constructor
      · intro right
        obtain ⟨s', ran, right, tail⟩ := right
        have safe := (kept.right_iff later call).mp ⟨s', ran, right⟩
        refine ⟨safe, ?_⟩
        intro t ran'
        obtain rfl := Option.some.inj (ran.symm.trans ran')
        exact (next s' safe ran).mp tail
      · intro all
        obtain ⟨safe, after⟩ := all
        obtain ⟨s', ran, right⟩ := (kept.right_iff later call).mpr safe
        exact ⟨s', ran, right, (next s' safe ran).mpr (after s' ran)⟩

/-- A failed call to set an expiry leaves the object as it is, and in a run all questions have
the right answer exactly if each call meets the condition. -/
theorem expiry_exact_iff (t : Int) (calls : List (Int × ObjectCall))
    (forward : List.IsChain (· ≤ ·) (t :: calls.map Prod.fst)) :
    (∀ now exp obj obj', objectSetExpiry now exp obj = some (.err, obj') → obj' = obj) ∧
      ((start t).Exact calls ↔ (start t).AllSafe calls) := by
  refine ⟨?_, (start_kept t).exact_iff forward⟩
  intro now exp obj obj' failed
  exact objectSetExpiry_err failed

/-- An expiry that is set, asked for before and after, and not moved into the past. -/
def expiryCalls : List (Int × ObjectCall) :=
  [(6, .setExpiry 10), (7, .hasExpired), (11, .hasExpired), (12, .setExpiry 3), (12, .hasExpired)]

theorem expiry_exact_expiryCalls : (start 5).Exact expiryCalls ↔ (start 5).AllSafe expiryCalls :=
  (expiry_exact_iff 5 expiryCalls (by decide)).2

/-- An object that has never had an expiry has expired at the time 1. -/
theorem hasExpired_unset :
    (start 0).step 1 .hasExpired = some ⟨1, ⟨0, 0, 2#64⟩, none, some true⟩ ∧
      ¬ ∀ t calls, List.IsChain (· ≤ ·) (t :: calls.map Prod.fst) → (start t).Exact calls := by
  refine ⟨rfl, ?_⟩
  intro all
  obtain ⟨s', ran, right, -⟩ := all 0 [(1, .hasExpired)] (by decide)
  obtain rfl := Option.some.inj ran
  obtain ⟨exp, unset, -⟩ := (right true rfl).1.mp rfl
  cases unset

end ObjectRun

end XFireDB
