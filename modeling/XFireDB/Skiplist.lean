import XFireDB.Hash

/-!
# The skiplist under hashmaps and sets

A skiplist is modelled by its `forward[1]` chain.  The upper levels of the
source only shorten the walk to the first node whose hash is not smaller than
the wanted one; where no two linked keys share a hash, neither the result nor
the chain left behind depends on them.

The header closes the chain.  Its hash is `SKIPLIST_MAX_SIZE` and its key is a
null pointer, so a walk that compares its key crashes: that is `none` here.
-/

namespace XFireDB

/-- A linked node with its payload. -/
structure SkiplistNode (β : Type) where
  key : CStr
  value : β
deriving DecidableEq

/-- The nodes on the `forward[1]` chain, without the header. -/
abbrev Skiplist (β : Type) : Type := List (SkiplistNode β)

/-- The header's hash. -/
def skiplistMaxSize : Nat := 0xFFFFFFFF

/-- The hash a node stores for its key. -/
def skiplistHash (key : CStr) : Nat := (skiplistHashKey key skiplistSeed).toNat

/-- `skiplist_set_key`. -/
def skiplistSetKey (key : CStr) : Option CStr := intCopy key

theorem skiplistHash_of_setKey {key label : CStr} (copied : skiplistSetKey key = some label) :
    skiplistHash label = skiplistHash key := by
  rw [skiplistHash, skiplistHash, skiplistHashKey, skiplistHashKey, hashKey_of_intCopy copied]

theorem skiplistHash_le (key : CStr) : skiplistHash key ≤ skiplistMaxSize := by
  have := (skiplistHashKey key skiplistSeed).toNat_lt
  rw [skiplistHash, skiplistMaxSize]
  omega

namespace Skiplist

variable {β : Type}

/-- The loop `while(strcmp(node->forward[1]->key, key))`: it ends at a node with
the key or crashes at the header. -/
def walkToKey (key : CStr) : Skiplist β → Option (SkiplistNode β)
  | [] => none
  | n :: rest => if n.key = key then some n else walkToKey key rest

section Hash

-- the proofs below do not look into the hash function
variable (hash : CStr → Nat)

/-- `skiplist_search` for a hash function: `none` is the crash, `some none` the
null result. -/
def searchWith (l : Skiplist β) (key : CStr) : Option (Option (SkiplistNode β)) :=
  match l.dropWhile (hash ·.key < hash key) with
  | [] => if skiplistMaxSize = hash key then none else some none
  | n :: rest => if hash n.key = hash key then (walkToKey key (n :: rest)).map some else some none

/-- `skiplist_insert`: a node that already stands at the insertion point with
the key is left alone. -/
def insertWith (key : CStr) (value : β) : Skiplist β → Skiplist β
  | [] => [⟨key, value⟩]
  | n :: rest =>
    if hash n.key < hash key then n :: insertWith key value rest
    else if n.key = key then n :: rest
    else ⟨key, value⟩ :: n :: rest

/-- `skiplist_delete`: the chain without the node, or the null result for
`-XFIREDB_ERR`. -/
def deleteWith (key : CStr) : Skiplist β → Option (Option (Skiplist β))
  | [] => if skiplistMaxSize ≤ hash key then none else some none
  | n :: rest =>
    if hash n.key ≤ hash key then
      if hash n.key = hash key ∧ n.key = key then some (some rest)
      else (deleteWith key rest).map fun found => found.map (n :: ·)
    else some none

/-! ## Chains without hash collisions -/

/-- The chain is strictly ordered by hash. -/
def SortedWith (l : Skiplist β) : Prop := l.Pairwise fun a b => hash a.key < hash b.key

/-- The key's hash is that of no other linked key and below the header's. -/
def HashClearWith (l : Skiplist β) (key : CStr) : Prop :=
  hash key < skiplistMaxSize ∧ ∀ node ∈ l, hash node.key = hash key → node.key = key

variable {hash}

theorem HashClearWith.tail {l : Skiplist β} {key : CStr} {n : SkiplistNode β}
    (clear : HashClearWith hash (n :: l) key) : HashClearWith hash l key :=
  ⟨clear.1, fun node member => clear.2 node (List.mem_cons_of_mem n member)⟩

/-- A key with a smaller hash than every node is not linked. -/
theorem ne_key_of_hash_lt {key : CStr} {l : Skiplist β}
    (larger : ∀ node ∈ l, hash key < hash node.key) : ∀ node ∈ l, node.key ≠ key := by
  intro node member same
  have gt := larger node member
  rw [same] at gt
  exact lt_irrefl _ gt

/-- Nodes behind a larger hash have larger hashes. -/
theorem SortedWith.forall_gt {n : SkiplistNode β} {rest : Skiplist β}
    (sorted : SortedWith hash (n :: rest)) {h : Nat} (larger : h < hash n.key) :
    ∀ node ∈ n :: rest, h < hash node.key := by
  intro node member
  rcases List.mem_cons.mp member with rfl | later
  · exact larger
  · exact lt_trans larger ((List.pairwise_cons.mp sorted).1 node later)

/-- Without a collision `skiplist_search` finds the linked node with the key, or
nothing, and never reaches the header. -/
theorem searchWith_eq {l : Skiplist β} (sorted : SortedWith hash l) {key : CStr}
    (clear : HashClearWith hash l key) :
    searchWith hash l key = some (l.find? fun node => node.key = key) := by
  induction l with
  | nil =>
      have notMax : ¬ skiplistMaxSize = hash key := ne_of_gt clear.1
      simp only [searchWith, List.dropWhile_nil, if_neg notMax, List.find?_nil]
  | cons n rest ih =>
      rcases lt_trichotomy (hash n.key) (hash key) with smaller | same | larger
      · have other : ¬ n.key = key := fun same => by simp [same] at smaller
        have skip : searchWith hash (n :: rest) key = searchWith hash rest key := by
          simp only [searchWith, List.dropWhile_cons, smaller, decide_true, if_true]
        rw [skip, ih (List.pairwise_cons.mp sorted).2 clear.tail,
          List.find?_cons_of_neg (by simpa using other)]
      · have keyEq := clear.2 n List.mem_cons_self same
        have found : searchWith hash (n :: rest) key = some (some n) := by
          simp only [searchWith, List.dropWhile_cons, lt_irrefl, decide_false,
            Bool.false_eq_true, if_false, if_true, walkToKey, keyEq, Option.map_some]
        rw [found, List.find?_cons_of_pos (by simpa using keyEq)]
      · have missing : searchWith hash (n :: rest) key = some none := by
          simp only [searchWith, List.dropWhile_cons, larger.not_gt, decide_false,
            Bool.false_eq_true, if_false, larger.ne']
        rw [missing, List.find?_eq_none.mpr]
        intro node member
        simpa using ne_key_of_hash_lt (sorted.forall_gt larger) node member

/-- Inserting an absent key links one node. -/
theorem insertWith_spec {l : Skiplist β} (sorted : SortedWith hash l) {key : CStr}
    (clear : HashClearWith hash l key) (absent : ∀ node ∈ l, node.key ≠ key) (value : β) :
    SortedWith hash (insertWith hash key value l) ∧
      (insertWith hash key value l).Perm (⟨key, value⟩ :: l) := by
  induction l with
  | nil => exact ⟨List.pairwise_singleton _ _, List.Perm.refl _⟩
  | cons n rest ih =>
      obtain ⟨first, sortedRest⟩ := List.pairwise_cons.mp sorted
      have other : n.key ≠ key := absent n List.mem_cons_self
      by_cases smaller : hash n.key < hash key
      · obtain ⟨sortedNew, perm⟩ :=
          ih sortedRest clear.tail fun node member => absent node (List.mem_cons_of_mem n member)
        rw [insertWith, if_pos smaller]
        refine ⟨List.pairwise_cons.mpr ⟨?_, sortedNew⟩, (perm.cons n).trans (List.Perm.swap _ _ _)⟩
        intro node member
        rcases List.mem_cons.mp (perm.mem_iff.mp member) with rfl | old
        · exact smaller
        · exact first node old
      · have larger : hash key < hash n.key := by
          refine lt_of_le_of_ne (not_lt.mp smaller) ?_
          intro same
          exact other (clear.2 n List.mem_cons_self same.symm)
        rw [insertWith, if_neg smaller, if_neg other]
        exact ⟨List.pairwise_cons.mpr ⟨sorted.forall_gt larger, sorted⟩, List.Perm.refl _⟩

/-- Deleting a linked key unlinks its node; deleting an absent key changes
nothing.  The header's key is not read. -/
theorem deleteWith_spec {l : Skiplist β} (sorted : SortedWith hash l) {key : CStr}
    (clear : HashClearWith hash l key) :
    (∃ node rest, l.find? (fun node => node.key = key) = some node ∧
      deleteWith hash key l = some (some rest) ∧ l.Perm (node :: rest) ∧ SortedWith hash rest) ∨
    (l.find? (fun node => node.key = key) = none ∧ deleteWith hash key l = some none) := by
  induction l with
  | nil =>
      have below : ¬ skiplistMaxSize ≤ hash key := not_le.mpr clear.1
      exact Or.inr ⟨rfl, by rw [deleteWith, if_neg below]⟩
  | cons n rest ih =>
      obtain ⟨first, sortedRest⟩ := List.pairwise_cons.mp sorted
      by_cases keyEq : n.key = key
      · have sameHash : hash n.key = hash key := by rw [keyEq]
        refine Or.inl ⟨n, rest, ?_, ?_, List.Perm.refl _, sortedRest⟩
        · rw [List.find?_cons_of_pos (by simpa using keyEq)]
        · rw [deleteWith, if_pos sameHash.le, if_pos ⟨sameHash, keyEq⟩]
      · have skip : (n :: rest).find? (fun node => node.key = key) =
            rest.find? fun node => node.key = key :=
          List.find?_cons_of_neg (by simpa using keyEq)
        by_cases small : hash n.key ≤ hash key
        · have step : deleteWith hash key (n :: rest) =
              (deleteWith hash key rest).map fun found => found.map (n :: ·) := by
            rw [deleteWith, if_pos small, if_neg fun both => keyEq both.2]
          rw [skip, step]
          rcases ih sortedRest clear.tail with
            ⟨node, rest', found, deleted, perm, sorted'⟩ | missing
          · refine Or.inl ⟨node, n :: rest', found, by rw [deleted]; rfl, ?_, ?_⟩
            · exact (perm.cons n).trans (List.Perm.swap _ _ _)
            · refine List.pairwise_cons.mpr ⟨?_, sorted'⟩
              intro m member
              exact first m (perm.mem_iff.mpr (List.mem_cons_of_mem node member))
          · exact Or.inr ⟨missing.1, by rw [missing.2]; rfl⟩
        · refine Or.inr ⟨?_, by rw [deleteWith, if_neg small]⟩
          rw [List.find?_eq_none]
          intro node member
          simpa using ne_key_of_hash_lt (sorted.forall_gt (not_le.mp small)) node member

end Hash

/-! ## The skiplist's own hash -/

/-- `skiplist_search`. -/
def search (l : Skiplist β) (key : CStr) : Option (Option (SkiplistNode β)) :=
  searchWith skiplistHash l key

/-- `skiplist_insert`. -/
def insert (l : Skiplist β) (key : CStr) (value : β) : Skiplist β :=
  insertWith skiplistHash key value l

/-- A chain with a node in it is not empty. -/
theorem insert_ne_nil (l : Skiplist β) (key : CStr) (value : β) : l.insert key value ≠ [] := by
  rw [insert]
  cases l with
  | nil => exact List.cons_ne_nil _ _
  | cons n rest =>
      rw [insertWith]
      split
      · exact List.cons_ne_nil _ _
      · split <;> exact List.cons_ne_nil _ _

/-- `skiplist_delete`. -/
def delete (l : Skiplist β) (key : CStr) : Option (Option (Skiplist β)) :=
  deleteWith skiplistHash key l

def Sorted (l : Skiplist β) : Prop := SortedWith skiplistHash l

def HashClear (l : Skiplist β) (key : CStr) : Prop := HashClearWith skiplistHash l key

theorem Sorted.search_eq {l : Skiplist β} (sorted : l.Sorted) {key : CStr}
    (clear : l.HashClear key) : l.search key = some (l.find? fun node => node.key = key) :=
  searchWith_eq sorted clear

theorem Sorted.insert {l : Skiplist β} (sorted : l.Sorted) {key : CStr} (clear : l.HashClear key)
    (absent : ∀ node ∈ l, node.key ≠ key) (value : β) :
    (l.insert key value).Sorted ∧ (l.insert key value).Perm (⟨key, value⟩ :: l) :=
  insertWith_spec sorted clear absent value

theorem Sorted.delete {l : Skiplist β} (sorted : l.Sorted) {key : CStr} (clear : l.HashClear key) :
    (∃ node rest, l.find? (fun node => node.key = key) = some node ∧
      l.delete key = some (some rest) ∧ l.Perm (node :: rest) ∧ rest.Sorted) ∨
    (l.find? (fun node => node.key = key) = none ∧ l.delete key = some none) :=
  deleteWith_spec sorted clear

/-- Linked keys are distinct. -/
theorem Sorted.nodup_keys {l : Skiplist β} (sorted : l.Sorted) :
    (l.map SkiplistNode.key).Nodup := by
  rw [List.Nodup, List.pairwise_map]
  refine List.Pairwise.imp ?_ sorted
  intro a b smaller same
  rw [same] at smaller
  exact lt_irrefl _ smaller

/-- Only the unlinked node had its key. -/
theorem Sorted.ne_key_of_mem {l rest : Skiplist β} {node m : SkiplistNode β} (sorted : l.Sorted)
    (perm : l.Perm (node :: rest)) (member : m ∈ rest) : m.key ≠ node.key := by
  have distinct := (perm.map SkiplistNode.key).nodup_iff.mp sorted.nodup_keys
  rw [List.map_cons, List.nodup_cons] at distinct
  exact fun same => distinct.1 (List.mem_map.mpr ⟨m, member, same⟩)

/-- What is left once a node is unlinked are the nodes with other keys. -/
theorem Sorted.filter_ne_key {l rest : Skiplist β} {node : SkiplistNode β} (sorted : l.Sorted)
    (perm : l.Perm (node :: rest)) (sortedRest : rest.Sorted) :
    (l.filter fun m => m.key ≠ node.key) = rest := by
  have filtered : (l.filter fun m => m.key ≠ node.key).Perm rest := by
    refine (perm.filter _).trans (List.Perm.of_eq ?_)
    rw [List.filter_cons_of_neg (by simp), List.filter_eq_self]
    intro m member
    exact decide_eq_true (sorted.ne_key_of_mem perm member)
  refine filtered.eq_of_pairwise ?_ (List.Pairwise.filter _ sorted) sortedRest
  intro a b _ _ less more
  exact absurd less (lt_asymm more)

end Skiplist

end XFireDB
