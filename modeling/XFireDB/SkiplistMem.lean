import XFireDB.Lib.Chain
import XFireDB.Skiplist

/-!
# The skiplist in memory

`skiplist.c` on its nodes: every node has its own array of forward pointers,
and the six chains run through the header.  The nodes a list has seen are
numbered in the order of their allocation, the header first; a node that is
passed to `skiplist_insert` is a fresh one.  A loop that tests more nodes than
there are diverges, and a read through a null or freed pointer is an access
that has no result.

The payload of a node is in the structure around it (`container_of`) and is
never looked at here.  The counter of nodes is an `atomic_t`, a 32-bit integer.
-/

namespace XFireDB

open Lib

/-- A pointer to a node. -/
abbrev NodeAddr : Type := Nat

/-- `struct skiplist_node`; a null pointer in the array is `none`, a null array
is the empty one. -/
structure SkiplistCell where
  key : Option CStr
  hash : Nat
  forward : List (Option NodeAddr)
deriving DecidableEq

/-- `struct skiplist` with the nodes allocated for it. -/
structure SkiplistMem where
  nodes : List SkiplistCell
  level : Nat
  size : Int
deriving DecidableEq

/-- `list->header`. -/
def skiplistHeader : NodeAddr := 0

/-- `SKIPLIST_MAX_LEVELS`. -/
def skiplistMaxLevels : Nat := 6

/-- `raw_skiplist_init`. -/
def rawSkiplistInit : SkiplistMem where
  nodes := [⟨none, skiplistMaxSize, List.replicate (skiplistMaxLevels + 1) (some skiplistHeader)⟩]
  level := 1
  size := 0

namespace SkiplistMem

/-- The array slot `a->forward[i]`. -/
def slot (l : SkiplistMem) (i : Nat) (a : NodeAddr) : Option (Option NodeAddr) :=
  l.nodes[a]?.bind fun c => c.forward[i]?

/-- The node `a->forward[i]` points to. -/
def forward (l : SkiplistMem) (i : Nat) (a : NodeAddr) : Option NodeAddr := (l.slot i a).join

/-- `a->forward[i] = p`.  It is only used on slots that were read or allocated
just before. -/
def setForward (l : SkiplistMem) (a : NodeAddr) (i : Nat) (p : Option NodeAddr) : SkiplistMem :=
  { l with nodes := l.nodes.modify a fun c => { c with forward := c.forward.set i p } }

/-- The loop `while(test(x->forward[i])) x = x->forward[i]`. -/
def walkLevel (l : SkiplistMem) (test : SkiplistCell → Option Bool) (i : Nat) (x : NodeAddr) :
    Except Fault NodeAddr :=
  walk (l.forward i) (fun a => l.nodes[a]?.bind test) l.nodes.length x

/-- The descent over the levels `i` to 1, recording `update[i]` on each. -/
def descend (l : SkiplistMem) (test : SkiplistCell → Option Bool) :
    Nat → NodeAddr → (Nat → NodeAddr) → Except Fault (NodeAddr × (Nat → NodeAddr))
  | 0, x, update => .ok (x, update)
  | i + 1, x, update => do
      let x ← l.walkLevel test (i + 1) x
      l.descend test i x (Function.update update (i + 1) x)

/-- `x->forward[1]` and the node it points to. -/
def next (l : SkiplistMem) (x : NodeAddr) : Except Fault (NodeAddr × SkiplistCell) := do
  let y ← access (l.forward 1 x)
  let c ← access l.nodes[y]?
  .ok (y, c)

end SkiplistMem

/-- The test of `skiplist_search` and `skiplist_insert` on the next node. -/
def hashBelow (hash : Nat) (c : SkiplistCell) : Option Bool := some (c.hash < hash)

/-- `strcmp(c->key, key)` is non-zero. -/
def keyDiffers (key : CStr) (c : SkiplistCell) : Option Bool := c.key.map fun k => k ≠ key

/-- The test of `skiplist_delete` on the next node, its `break` included: the
key is only compared where the hashes are equal. -/
def deletePasses (hash : Nat) (key : CStr) (c : SkiplistCell) : Option Bool :=
  if c.hash ≤ hash then
    if c.hash = hash then keyDiffers key c else some true
  else some false

/-! ## Search -/

def skiplistSearch (l : SkiplistMem) (key : CStr) : Except Fault (Option NodeAddr) := do
  let hash := skiplistHash key
  let (node, _) ← l.descend (hashBelow hash) l.level skiplistHeader fun _ => skiplistHeader
  let (_, c) ← l.next node
  if c.hash = hash then
    let node ← l.walkLevel (keyDiffers key) 1 node
    let (found, c) ← l.next node
    if c.hash = hash then .ok (some found) else .ok none
  else .ok none

/-! ## Insertion -/

/-- One round of the loop that links a new node on level `i`. -/
def linkLevel (node : NodeAddr) (update : Nat → NodeAddr) (l : SkiplistMem) (i : Nat) :
    Except Fault SkiplistMem := do
  let p ← access (l.slot i (update i))
  .ok ((l.setForward node i p).setForward (update i) i (some node))

/-- `skiplist_insert`; `level` is the height `skiplist_rand_level` draws.  The new
node gets a copy of the key, and the process may end where the copy is made. -/
def skiplistInsert (l : SkiplistMem) (key : CStr) (level : Nat) :
    Except Fault (SkiplistMem × Rc) := do
  let hash := skiplistHash key
  let (carriage, update) ←
    l.descend (hashBelow hash) l.level skiplistHeader fun _ => skiplistHeader
  let (_, c) ← l.next carriage
  if c.key = some key then .ok (l, .ok)
  else
    let label ← access (skiplistSetKey key)
    let update := fun i => if l.level < i then skiplistHeader else update i
    let node := l.nodes.length
    let l := { l with
      level := max level l.level
      nodes := l.nodes ++ [⟨some label, hash, List.replicate (level + 1) none⟩] }
    let l ← (List.range' 1 level).foldlM (linkLevel node update) l
    .ok ({ l with size := int32 (l.size + 1) }, .ok)

/-! ## Deletion -/

/-- The loop that unlinks `x` from level `i` on; it breaks at the first level
on which the node is not the next one. -/
def unlinkLevels (x : NodeAddr) (update : Nat → NodeAddr) :
    Nat → Nat → SkiplistMem → Except Fault SkiplistMem
  | 0, _, l => .ok l
  | rounds + 1, i, l => do
      let p ← access (l.slot i (update i))
      if p ≠ some x then .ok l
      else
        let q ← access (l.slot i x)
        unlinkLevels x update rounds (i + 1) (l.setForward (update i) i q)

/-- `skiplist_node_destroy`. -/
def skiplistNodeDestroy (l : SkiplistMem) (x : NodeAddr) : SkiplistMem :=
  { l with nodes := l.nodes.modify x fun c => { c with key := none, forward := [] } }

/-- The loop that lowers `list->level` over empty chains. -/
def lowerLevel (l : SkiplistMem) : Nat → Except Fault Nat
  | 0 => .ok 0
  | 1 => .ok 1
  | i + 2 => do
      let p ← access (l.slot (i + 2) skiplistHeader)
      if p = some skiplistHeader then lowerLevel l (i + 1) else .ok (i + 2)

def skiplistDelete (l : SkiplistMem) (key : CStr) : Except Fault (SkiplistMem × Rc) := do
  let hash := skiplistHash key
  let (x, update) ←
    l.descend (deletePasses hash key) l.level skiplistHeader fun _ => skiplistHeader
  let (x, c) ← l.next x
  if c.hash = hash then
    if c.key = some key then
      let l ← unlinkLevels x update l.level 1 l
      let l := skiplistNodeDestroy l x
      let level ← lowerLevel l l.level
      .ok ({ l with level := level, size := int32 (l.size - 1) }, .ok)
    else .ok (l, .err)
  else .ok (l, .err)

/-! ## Iteration -/

/-- `struct skiplist_iterator`; a null `current` is `none`. -/
structure SkiplistIterator where
  current : Option NodeAddr
  prev : Option NodeAddr
deriving DecidableEq

/-- `skiplist_iterator_new`. -/
def skiplistIteratorNew : SkiplistIterator := ⟨some skiplistHeader, some skiplistHeader⟩

/-- `skiplist_iterator_next`: the node it returns is the new `current`. -/
def skiplistIteratorNext (l : SkiplistMem) (it : SkiplistIterator) :
    Except Fault SkiplistIterator := do
  let current ← access it.current
  let y ← access (l.forward 1 current)
  .ok ⟨if y = skiplistHeader then none else some y, some current⟩

/-- `skiplist_iterator_delete`. -/
def skiplistIteratorDelete (l : SkiplistMem) (it : SkiplistIterator) :
    Except Fault (SkiplistMem × SkiplistIterator) := do
  let current ← access it.current
  let c ← access l.nodes[current]?
  let key ← access c.key
  let (l, rc) ← skiplistDelete l key
  if rc = .ok then .ok (l, { it with current := it.prev }) else .ok (l, it)

end XFireDB
