import XFireDB.RequestRuns

/-!
# Acknowledged writes

SET, MADD, LPUSH and LSET reply `-OK`; the matching read should then show the data.  It
does, except where LSET has found no element at its index: `rb_list_set` returns nil,
and the reply is `-OK` all the same.
-/

namespace XFireDB

open Lib Node Command

/-! ## What a write is meant to do -/

/-- The bindings of a hashmap; none if the key holds something else. -/
def Value.bindings : Option Value → CStr → Option CStr
  | some (.hashmap bindings) => bindings
  | _ => fun _ => none

/-- The elements of a list. -/
def Value.listed : Option Value → List CStr
  | some (.list elems) => elems
  | _ => []

/-- A write on a key that has the value `old`: the value that it puts there, and the
matching read with its reply. -/
inductive Meant (old : Option Value) : Cmd → List RStr → Value → Cmd → List RStr → Reply → Prop
  | set (d : CStr) (rest : List RStr) :
    Meant old .set (d.toR :: rest) (.string d) .get [] (.text (lit "+" ++ d.toR))
  | mAdd (h d : CStr) (rest : List RStr) :
    Meant old .mAdd (h.toR :: d.toR :: rest)
      (.hashmap (Function.update (Value.bindings old) h (some d)))
      .mRef [h.toR] (.lines [lit "+" ++ d.toR])
  | lPush (d : CStr) (rest : List RStr) :
    Meant old .lPush (d.toR :: rest) (.list (Value.listed old ++ [d]))
      .lRef [natToS (Value.listed old).length] (.text (lit "+" ++ d.toR))
  | lSet (idx : RStr) (d : CStr) (rest : List RStr) :
    Meant old .lSet (idx :: d.toR :: rest) (.list ((Value.listed old).set (toI idx).toNat d))
      .lRef [idx] (.text (lit "+" ++ d.toR))

/-- If the command replies `-OK`, the database has the value that is meant and is otherwise
as it was, and the matching read shows the data. -/
def Node.Visible (n : Node) (k : CStr) (cmd : Cmd) (args : List RStr) : Prop :=
  ∀ n', (cmd.exec (k.toR :: args)).run Node.call n = some (.ok (text "-OK"), n') →
    ∃ value read readArgs reply, Meant (n.view k) cmd args value read readArgs reply ∧
      n'.view = Function.update n.view k (some value) ∧
      ∃ n'', (read.exec (k.toR :: readArgs)).run Node.call n' = some (.ok reply, n'')

/-- Where an acknowledged write is visible.

* LPUSH: the new element has a position that is an `int`.
* LSET: a list has an element at the index. -/
def Cmd.Lands (old : Option Value) : Cmd → List RStr → Prop
  | .lPush, data :: _ => 0 ∉ data → ∀ elems, old = some (.list elems) → elems.length < 2 ^ 31
  | .lSet, idx :: _ :: _ => isI idx → -2 ^ 31 ≤ toI idx ∧ toI idx < 2 ^ 31 →
      ∀ elems, old = some (.list elems) → 0 ≤ toI idx ∧ toI idx < elems.length
  | _, _ => True

/-- The writes of strings, hashmaps and lists that reply `-OK`. -/
def Cmd.acknowledged : List Cmd := [.set, .mAdd, .lPush, .lSet]

variable {n t : Node} {k : CStr} {a : After}

theorem exists_of_listed {old : Option Value} (some_ : Value.listed old ≠ []) :
    ∃ elems, old = some (.list elems) := by
  unfold Value.listed at some_
  split at some_
  · exact ⟨_, rfl⟩
  · exact absurd rfl some_

section Meant

variable {old : Option Value} {args : List RStr} {value : Value} {read : Cmd} {readArgs : List RStr}
  {reply : Reply}

theorem Meant.lPush_reads (meant : Meant old .lPush args value read readArgs reply) :
    read = .lRef ∧ readArgs = [natToS (Value.listed old).length] := by
  cases meant
  exact ⟨rfl, rfl⟩

theorem Meant.lSet_reads {idx : RStr} {rest : List RStr}
    (meant : Meant old .lSet (idx :: rest) value read readArgs reply) :
    read = .lRef ∧ readArgs = [idx] := by
  cases meant
  exact ⟨rfl, rfl⟩

end Meant

/-! ## Hashmaps with a new binding -/

theorem find?_insert {nodes : Skiplist CStr} {h : CStr}
    (absent : nodes.find? (fun node => node.key = h) = none) (d h' : CStr) :
    (nodes.insert h d).find? (fun node => node.key = h') =
      if h' = h then some ⟨h, d⟩ else nodes.find? fun node => node.key = h' := by
  have others : ∀ node ∈ nodes, node.key ≠ h := by simpa using absent
  clear absent
  unfold Skiplist.insert
  induction nodes with
  | nil =>
      rcases eq_or_ne h' h with rfl | other
      · simp [Skiplist.insertWith]
      · simp [Skiplist.insertWith, other, other.symm]
  | cons node rest ih =>
      have later := ih fun m member => others m (List.mem_cons_of_mem node member)
      have differs := others node List.mem_cons_self
      rw [Skiplist.insertWith]
      split
      · rcases eq_or_ne node.key h' with rfl | apart
        · rw [List.find?_cons_of_pos (by simp), List.find?_cons_of_pos (by simp), if_neg differs]
        · rw [List.find?_cons_of_neg (by simpa using apart), later,
            List.find?_cons_of_neg (by simpa using apart)]
      · rcases eq_or_ne h' h with rfl | other
        · rw [List.find?_cons_of_pos (by simp), if_pos rfl]
        · rw [List.find?_cons_of_neg (by simpa using other.symm), if_neg other]

theorem find?_setValue (h d h' : CStr) (nodes : Skiplist CStr) :
    (setValue h d nodes).find? (fun node => node.key = h') =
      (nodes.find? fun node => node.key = h').map fun node =>
        if h' = h then { node with value := d } else node := by
  unfold setValue
  induction nodes with
  | nil => rfl
  | cons node rest ih =>
      have kept : (if node.key = h then { node with value := d } else node).key = node.key := by
        split <;> rfl
      rw [List.map_cons]
      rcases eq_or_ne node.key h' with rfl | apart
      · rw [List.find?_cons_of_pos (by simp [kept]), List.find?_cons_of_pos (by simp),
          Option.map_some]
      · rw [List.find?_cons_of_neg (by simp [kept, apart]),
          List.find?_cons_of_neg (by simp [apart]), ih]

/-- One binding is new, the others are as they were. -/
theorem value_putMap (nodes : Skiplist CStr) (h d h' : CStr) :
    ((KeyEffect.putMap nodes h d).find? fun node => node.key = h').map SkiplistNode.value =
      if h' = h then some d
      else (nodes.find? fun node => node.key = h').map SkiplistNode.value := by
  rw [KeyEffect.putMap]
  split
  · rename_i present
    rw [find?_setValue, Option.map_map]
    rcases eq_or_ne h' h with rfl | other
    · obtain ⟨node, found⟩ := Option.isSome_iff_exists.mp present
      rw [found, if_pos rfl]
      simp
    · simp [if_neg other, Function.comp_def]
  · rename_i absent
    rw [find?_insert (by simpa using absent)]
    split
    · rfl
    · rfl

theorem collides_putMap {nodes : Skiplist CStr} {h : CStr}
    (clear : collides (nodes.map SkiplistNode.key) h = false) (d : CStr) :
    collides ((KeyEffect.putMap nodes h d).map SkiplistNode.key) h = false := by
  rw [KeyEffect.putMap]
  split
  · rw [map_key_setValue]
    exact clear
  · rename_i absent
    have perm := perm_insert (by simpa using absent) d
    rw [not_collides_iff] at clear ⊢
    refine ⟨clear.1, ?_⟩
    intro node member same
    rcases List.mem_cons.mp (perm.mem_iff.mp member) with rfl | old
    · rfl
    · exact clear.2 node old same

/-! ## Writes and their reads -/

theorem Node.Leaves.view (leaves : n.Leaves k t a) :
    t.view = Function.update n.view k (a.value.map Stored.value) := by
  funext k'
  rw [Node.view]
  rcases eq_or_ne k' k with rfl | other
  · rw [leaves.here, Function.update_self]
  · rw [leaves.frame other, Function.update_of_ne other]
    rfl

theorem listed_view (n : Node) (k : CStr) :
    Value.listed (n.view k) = (Stored.asList (n.content k)).getD [] := by
  rw [Node.view]
  cases n.content k with
  | none => rfl
  | some v =>
      cases v with
      | string s => rfl
      | container c => cases c <;> rfl

theorem bindings_view (n : Node) (k h : CStr) :
    Value.bindings (n.view k) h =
      (((Stored.asMap (n.content k)).getD []).find?
        fun node => node.key = h).map SkiplistNode.value := by
  rw [Node.view]
  cases n.content k with
  | none => rfl
  | some v =>
      cases v with
      | string s => rfl
      | container c => cases c <;> rfl

theorem view_eq_list {elems : List CStr} :
    n.view k = some (.list elems) ↔ Stored.asList (n.content k) = some elems := by
  rw [Node.view, Stored.asList_eq_some]
  cases n.content k with
  | none => simp
  | some v =>
      cases v with
      | string s => simp [Stored.value]
      | container c => cases c <;> simp [Stored.value]

theorem replies_ne_ok {v : Option Stored} {s : String} (differs : lit s ≠ lit "-OK") :
    KeyEffect.replies v (text s) ≠ some (.ok (text "-OK"), a) := by
  intro same
  have results := congrArg Prod.fst (Option.some.inj same)
  exact differs (Reply.text.inj (Except.ok.inj results))

/-- What SET, LPUSH and MADD do when they reply `-OK`. -/
theorem KeyEffect.set_ok {v : Option Stored} {args : List RStr}
    (effect : KeyEffect.set v args = some (.ok (text "-OK"), a)) :
    ∃ d rest, args = CStr.toR d :: rest ∧ a.value = some (.string d) := by
  cases args with
  | nil => exact absurd effect (replies_ne_ok (by decide +kernel))
  | cons data rest =>
      rw [KeyEffect.set] at effect
      cases known : stringValueCStr data with
      | error e =>
          rw [known] at effect
          cases effect
      | ok d =>
          rw [known] at effect
          cases effect
          exact ⟨d, rest, by rw [toR_of_stringValueCStr known], rfl⟩

theorem KeyEffect.lPush_ok {v : Option Stored} {args : List RStr}
    (effect : KeyEffect.lPush v args = some (.ok (text "-OK"), a)) :
    ∃ d rest, args = CStr.toR d :: rest ∧
      a.value = some (.container (.list ((Stored.asList v).getD [] ++ [d]))) := by
  cases args with
  | nil => exact absurd effect (replies_ne_ok (by decide +kernel))
  | cons data rest =>
      rw [KeyEffect.lPush] at effect
      cases known : stringValueCStr data with
      | error e =>
          rw [known] at effect
          cases effect
      | ok d =>
          rw [known] at effect
          cases effect
          exact ⟨d, rest, by rw [toR_of_stringValueCStr known], rfl⟩

theorem KeyEffect.mAdd_ok {v : Option Stored} {args : List RStr}
    (effect : KeyEffect.mAdd collides v args = some (.ok (text "-OK"), a)) :
    ∃ h d rest, args = CStr.toR h :: CStr.toR d :: rest ∧
      collides (((Stored.asMap v).getD []).map SkiplistNode.key) h = false ∧
      a.value = some (.container (.ofMap (KeyEffect.putMap ((Stored.asMap v).getD []) h d))) := by
  rcases args with _ | ⟨hkey, _ | ⟨data, rest⟩⟩
  · exact absurd effect (replies_ne_ok (by decide +kernel))
  · exact absurd effect (replies_ne_ok (by decide +kernel))
  · rw [KeyEffect.mAdd] at effect
    split at effect
    · cases effect
    · cases effect
    · rename_i h d known known'
      split at effect
      · cases effect
      · rename_i clear
        cases effect
        exact ⟨h, d, rest, by rw [toR_of_stringValueCStr known, toR_of_stringValueCStr known'],
          Bool.eq_false_of_not_eq_true clear, rfl⟩

/-- MREF of a sub-key just put in. -/
theorem mRef_putMap (nodes : Skiplist CStr) {h : CStr}
    (clear : collides (nodes.map SkiplistNode.key) h = false) (d : CStr) :
    KeyEffect.mRef collides (some (.container (.ofMap (KeyEffect.putMap nodes h d)))) [h.toR] =
      KeyEffect.replies (some (.container (.ofMap (KeyEffect.putMap nodes h d))))
        (.lines [lit "+" ++ d.toR]) := by
  have bound := value_putMap nodes h d h
  rw [if_pos rfl] at bound
  obtain ⟨node, found, rfl⟩ := Option.map_eq_some_iff.mp bound
  have isMap : Stored.asMap (some (.container (.ofMap (KeyEffect.putMap nodes h node.value)))) =
      some (KeyEffect.putMap nodes h node.value) := rfl
  rw [KeyEffect.mRef, isMap]
  dsimp only
  rw [KeyEffect.answers, stringValueCStr_toR]
  dsimp only
  rw [collides_putMap clear, found]
  rfl

/-- LREF at an `int` index. -/
theorem lRef_int {idx : RStr} (number : isI idx = true)
    (inRange : num2int (toI idx) = .ok (toI idx)) (elems : List CStr) :
    KeyEffect.lRef (some (.container (.list elems))) [idx] =
      match listRef elems (toI idx) with
      | none => KeyEffect.raises (some (.container (.list elems))) .typeError
      | some (_, data) =>
        KeyEffect.replies (some (.container (.list elems))) (.text (lit "+" ++ data.toR)) := by
  have isList : Stored.asList (some (.container (.list elems))) = some elems := rfl
  rw [KeyEffect.lRef, if_pos number, KeyEffect.lRefIndex, isList]
  cases found : listRef elems (toI idx) with
  | none => simp only [inRange, found]
  | some hit => simp only [inRange, found]

theorem num2int_natCast {m : Nat} :
    num2int m = if m < 2 ^ 31 then .ok (m : Int) else .error .rangeError := by
  unfold num2int
  rcases Nat.lt_or_ge m (2 ^ 31) with short | long
  · rw [if_pos (by omega), if_pos short]
  · rw [if_neg (by omega), if_neg (Nat.not_lt_of_le long)]

/-- LREF at the last position. -/
theorem lRef_last {elems : List CStr} (short : elems.length < 2 ^ 31) (d : CStr) :
    KeyEffect.lRef (some (.container (.list (elems ++ [d])))) [natToS elems.length] =
      KeyEffect.replies (some (.container (.list (elems ++ [d])))) (.text (lit "+" ++ d.toR)) := by
  have last : listRef (elems ++ [d]) (toI (natToS elems.length)) = some (elems.length, d) := by
    rw [toI_natToS]
    simp [listRef]
  rw [lRef_int (isI_natToS _), last]
  rw [toI_natToS, num2int_natCast, if_pos short]

theorem lRefIndex_outside {i : Int} (outside : num2int i = .error .rangeError) (elems : List CStr) :
    KeyEffect.lRefIndex (some (.container (.list elems))) i =
      KeyEffect.raises (some (.container (.list elems))) .rangeError := by
  have isList : Stored.asList (some (.container (.list elems))) = some elems := rfl
  rw [KeyEffect.lRefIndex, isList]
  dsimp only
  rw [outside]

/-- A position that is no `int` is refused. -/
theorem lRef_far {m : Nat} (far : 2 ^ 31 ≤ m) (elems : List CStr) :
    KeyEffect.lRef (some (.container (.list elems))) [natToS m] =
      KeyEffect.raises (some (.container (.list elems))) .rangeError := by
  have outside : num2int m = .error .rangeError := by
    rw [num2int_natCast, if_neg (Nat.not_lt_of_le far)]
  rw [KeyEffect.lRef, if_pos (isI_natToS m), toI_natToS]
  exact lRefIndex_outside outside elems

theorem listRef_eq_some {elems : List CStr} {i : Int} {pos : Nat} {d : CStr}
    (found : listRef elems i = some (pos, d)) : 0 ≤ i ∧ i < elems.length ∧ pos = i.toNat := by
  unfold listRef at found
  split at found
  · rename_i nonneg
    obtain ⟨data, here, same⟩ := Option.map_eq_some_iff.mp found
    obtain ⟨below, _⟩ := List.getElem?_eq_some_iff.mp here
    cases same
    exact ⟨nonneg, by omega, rfl⟩
  · cases found

theorem listRef_eq_none {elems : List CStr} {i : Int} (missing : listRef elems i = none) :
    ¬ (0 ≤ i ∧ i < elems.length) := by
  intro found
  obtain ⟨nonneg, below⟩ := found
  rw [listRef, if_pos nonneg, Option.map_eq_none_iff, List.getElem?_eq_none_iff] at missing
  omega

theorem listRef_set {elems : List CStr} {i : Int} (inside : 0 ≤ i ∧ i < elems.length) (d : CStr) :
    listRef (elems.set i.toNat d) i = some (i.toNat, d) := by
  have below : i.toNat < elems.length := by omega
  rw [listRef, if_pos inside.1, List.getElem?_set_self below]
  rfl

section Writes

variable (proper : n.Proper) (owned : n.shard.includes k.toR = .ok true)

include proper owned

/-- An acknowledged write with its effect, and the effect of the read that follows. -/
theorem Node.Proper.visible_of_effect {cmd : Cmd} {args : List RStr}
    (reads : ∀ a, cmd.effect collides (n.content k) args = some (.ok (text "-OK"), a) →
      ∃ value read readArgs reply, Meant (n.view k) cmd args value read readArgs reply ∧
        a.value.map Stored.value = some value ∧
        ∃ b, read.effect collides a.value readArgs = some (.ok reply, b)) :
    n.Visible k cmd args := by
  intro n' ran
  obtain ⟨a, effect, leaves, proper'⟩ := proper.effect_of_run owned ran
  obtain ⟨value, read, readArgs, reply, meant, holds, b, readEffect⟩ := reads a effect
  rw [← leaves.here] at readEffect
  have owned' : n'.shard.includes k.toR = .ok true := by rw [leaves.includes, owned]
  obtain ⟨n'', readRan, _⟩ := proper'.run_of_effect owned' readEffect
  refine ⟨value, read, readArgs, reply, meant, ?_, n'', readRan⟩
  rw [leaves.view, holds]

/-- The write is acknowledged, and the read after it does not show the data. -/
theorem Node.Proper.not_visible {cmd : Cmd} {args : List RStr}
    (effect : cmd.effect collides (n.content k) args = some (.ok (text "-OK"), a))
    (misses : ∀ value read readArgs reply, Meant (n.view k) cmd args value read readArgs reply →
      ∀ b, read.effect collides a.value readArgs ≠ some (.ok reply, b)) :
    ¬ n.Visible k cmd args := by
  intro visible
  obtain ⟨n', ran, leaves, proper'⟩ := proper.run_of_effect owned effect
  obtain ⟨value, read, readArgs, reply, meant, _, n'', readRan⟩ := visible n' ran
  have owned' : n'.shard.includes k.toR = .ok true := by rw [leaves.includes, owned]
  obtain ⟨b, readEffect, _⟩ := proper'.effect_of_run owned' readRan
  rw [leaves.here] at readEffect
  exact misses value read readArgs reply meant b readEffect

theorem Node.Proper.visible_set (args : List RStr) : n.Visible k .set args := by
  refine proper.visible_of_effect owned ?_
  intro a effect
  obtain ⟨d, rest, rfl, stored⟩ := KeyEffect.set_ok effect
  rw [stored]
  exact ⟨_, _, _, _, .set d rest, rfl, _, rfl⟩

theorem Node.Proper.visible_mAdd (args : List RStr) : n.Visible k .mAdd args := by
  refine proper.visible_of_effect owned ?_
  intro a effect
  obtain ⟨h, d, rest, rfl, clear, stored⟩ := KeyEffect.mAdd_ok effect
  rw [stored]
  refine ⟨_, _, _, _, .mAdd h d rest, ?_, _, mRef_putMap _ clear d⟩
  -- the bindings are the old ones and the new one
  refine congrArg some (congrArg Value.hashmap ?_)
  funext h'
  rw [value_putMap, Function.update_apply, bindings_view]

theorem Node.Proper.visible_lPush_iff (args : List RStr) :
    n.Visible k .lPush args ↔ Cmd.Lands (n.view k) .lPush args := by
  cases args with
  | nil =>
      refine iff_of_true (proper.visible_of_effect owned ?_) trivial
      intro a effect
      exact absurd effect (replies_ne_ok (by decide +kernel))
  | cons data rest =>
      cases known : stringValueCStr data with
      | error e =>
          refine iff_of_true (proper.visible_of_effect owned ?_) ?_
          · intro a effect
            rw [Cmd.effect, KeyEffect.lPush, known] at effect
            cases effect
          · intro proper
            exact absurd (mem_of_raises known) proper
      | ok d =>
          have effect : Cmd.effect collides (n.content k) (data :: rest) .lPush =
              KeyEffect.stores (.list (Value.listed (n.view k) ++ [d])) (text "-OK") := by
            rw [Cmd.effect, KeyEffect.lPush, known, listed_view]
          have proper' := not_mem_of_ok known
          obtain rfl := toR_of_stringValueCStr known
          rcases Nat.lt_or_ge (Value.listed (n.view k)).length (2 ^ 31) with short | long
          · refine iff_of_true (proper.visible_of_effect owned ?_) ?_
            · intro a effect'
              rw [effect] at effect'
              cases effect'
              exact ⟨_, _, _, _, .lPush d rest, rfl, _, lRef_last short d⟩
            · intro _ elems isList
              rw [isList] at short
              exact short
          · refine iff_of_false (proper.not_visible owned effect ?_) ?_
            · intro value read readArgs reply meant b
              obtain ⟨rfl, rfl⟩ := meant.lPush_reads
              intro same
              cases (lRef_far long (Value.listed (n.view k) ++ [d])).symm.trans same
            · intro lands
              have some_ : Value.listed (n.view k) ≠ [] := by
                intro nothing
                rw [nothing] at long
                cases long
              obtain ⟨elems, isList⟩ := exists_of_listed some_
              rw [isList] at long
              exact absurd (lands proper' elems isList) (Nat.not_lt_of_le long)

theorem Node.Proper.visible_lSet_iff (args : List RStr) :
    n.Visible k .lSet args ↔ Cmd.Lands (n.view k) .lSet args := by
  -- where LSET does not reply `-OK`
  have silent : (∀ a, Cmd.effect collides (n.content k) args .lSet ≠ some (.ok (text "-OK"), a)) →
      n.Visible k .lSet args := fun other =>
    proper.visible_of_effect owned fun a effect => absurd effect (other a)
  rcases args with - | ⟨idx, - | ⟨data, rest⟩⟩
  · exact iff_of_true (silent fun a => replies_ne_ok (by decide +kernel)) trivial
  · exact iff_of_true (silent fun a => replies_ne_ok (by decide +kernel)) trivial
  · rw [Cmd.effect, KeyEffect.lSet] at silent
    cases number : isI idx with
    | false =>
        rw [number, if_neg Bool.false_ne_true] at silent
        refine iff_of_true (silent fun a => replies_ne_ok (by decide +kernel)) ?_
        intro number'
        rw [number] at number'
        cases number'
    | true =>
        rw [if_pos number] at silent
        cases isList : Stored.asList (n.content k) with
        | none =>
            rw [isList] at silent
            refine iff_of_true (silent fun a => replies_ne_ok (by decide +kernel)) ?_
            intro _ _ elems isList'
            rw [view_eq_list, isList] at isList'
            cases isList'
        | some elems =>
            rw [isList] at silent
            dsimp only at silent
            have listed : n.view k = some (.list elems) := view_eq_list.mpr isList
            rcases num2int_bounds (toI idx) with ⟨bounds, inRange⟩ | ⟨unbounded, outside⟩
            · cases found : listRef elems (toI idx) with
              | none =>
                  -- nothing is there, and the reply is `-OK`
                  have effect : Cmd.effect collides (n.content k) (idx :: data :: rest) .lSet =
                      KeyEffect.stores (.list elems) (text "-OK") := by
                    rw [Cmd.effect, KeyEffect.lSet, if_pos number, isList]
                    dsimp only
                    rw [inRange]
                    dsimp only
                    rw [found]
                  refine iff_of_false (proper.not_visible owned effect ?_) ?_
                  · intro value read readArgs reply meant b same
                    obtain ⟨rfl, rfl⟩ := meant.lSet_reads
                    have reading := lRef_int number inRange elems
                    rw [found] at reading
                    cases reading.symm.trans same
                  · intro lands
                    exact listRef_eq_none found (lands number bounds elems listed)
              | some hit =>
                  obtain ⟨pos, old⟩ := hit
                  obtain ⟨nonneg, below, rfl⟩ := listRef_eq_some found
                  refine iff_of_true (proper.visible_of_effect owned ?_) ?_
                  · intro a effect
                    rw [Cmd.effect, KeyEffect.lSet, if_pos number, isList] at effect
                    dsimp only at effect
                    rw [inRange] at effect
                    dsimp only at effect
                    rw [found] at effect
                    dsimp only at effect
                    cases known : stringValueCStr data with
                    | error e =>
                        rw [known] at effect
                        cases effect
                    | ok d =>
                        rw [known] at effect
                        cases effect
                        obtain rfl := toR_of_stringValueCStr known
                        have reading := lRef_int number inRange (elems.set (toI idx).toNat d)
                        rw [listRef_set ⟨nonneg, below⟩] at reading
                        have meant : Meant (n.view k) .lSet (idx :: d.toR :: rest) _ _ _ _ :=
                          .lSet idx d rest
                        rw [listed] at meant ⊢
                        exact ⟨_, _, _, _, meant, rfl, _, reading⟩
                  · intro _ _ elems' isList'
                    rw [listed] at isList'
                    cases isList'
                    exact ⟨nonneg, below⟩
            · rw [outside] at silent
              refine iff_of_true (silent fun a effect => by cases effect) ?_
              intro _ bounds
              exact absurd bounds unbounded

end Writes

/-! ## Acknowledged writes -/

theorem Node.Proper.visible_iff (proper : n.Proper) (owned : n.shard.includes k.toR = .ok true)
    {cmd : Cmd} (write : cmd ∈ Cmd.acknowledged) (args : List RStr) :
    n.Visible k cmd args ↔ cmd.Lands (n.view k) args := by
  cases cmd with
  | set => exact iff_of_true (proper.visible_set owned args) trivial
  | mAdd => exact iff_of_true (proper.visible_mAdd owned args) trivial
  | lPush => exact proper.visible_lPush_iff owned args
  | lSet => exact proper.visible_lSet_iff owned args
  | _ => simp [Cmd.acknowledged] at write

/-- An acknowledged write is visible exactly where `Cmd.Lands` says so: always for SET and
MADD, for LPUSH on a list of fewer than `2^31` elements, and for LSET at an index that the
list has. -/
theorem visible_iff_lands (proper : n.Proper) (owned : n.shard.includes k.toR = .ok true)
    {cmd : Cmd} (write : cmd ∈ Cmd.acknowledged) (args : List RStr) :
    n.Visible k cmd args ↔ cmd.Lands (n.view k) args :=
  proper.visible_iff owned write args

/-- The same on an engine that has served requests on its keys. -/
theorem visible_of_reach (shard : KeyShard) (persistLevel : Nat)
    (run : Reach Node.serve (fun n r => r.Stays n) (Node.empty shard persistLevel true) n)
    (owned : n.shard.includes k.toR = .ok true) {cmd : Cmd} (write : cmd ∈ Cmd.acknowledged)
    (args : List RStr) : n.Visible k cmd args ↔ cmd.Lands (n.view k) args :=
  (proper_of_reach shard persistLevel run).visible_iff owned write args

theorem proper_nodeOfK : nodeOfK.Proper := Node.proper_empty shardOfK 0

theorem visible_iff_lands_lPush : nodeOfK.Visible keyK .lPush [lit "a"] := by
  refine (visible_iff_lands proper_nodeOfK (by decide +kernel) (by decide) [lit "a"]).mpr ?_
  intro _ elems isList
  cases isList

/-- `LPUSH k a`, then `LSET k 5 b`: the reply is `-OK`, the list has not changed, and
`LREF k 5` raises. -/
theorem lSet_not_visible :
    ∃ n₁ n₂, nodeOfK.serve ⟨.lPush, [lit "k", lit "a"]⟩ = some n₁ ∧
      (Cmd.exec .lSet [keyK.toR, lit "5", lit "b"]).run Node.call n₁ = some (.ok (text "-OK"), n₂) ∧
      n₂.view keyK = n₁.view keyK ∧
      (Cmd.exec .lRef [keyK.toR, lit "5"]).run Node.call n₂ = some (.error .typeError, n₂) ∧
      ¬ n₁.Visible keyK .lSet [lit "5", lit "b"] := by
  refine ⟨_, _, rfl, rfl, rfl, rfl, ?_⟩
  intro visible
  obtain ⟨value, read, readArgs, reply, meant, _, n'', ran⟩ := visible _ rfl
  obtain ⟨rfl, rfl⟩ := meant.lSet_reads
  cases ran

end XFireDB
