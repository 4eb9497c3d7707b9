import Vdb.Types
import Vdb.Lib.Search
import Mathlib.Logic.Function.Basic
import Mathlib.Data.Multiset.Filter

/-!
# The B-link tree

The node arena of `BPlusTree` and the three operations that may run concurrently, `insert`,
`find` and `range`.  Every call is broken into the sections it runs under one node lock or under
`root_mutex_`; `BPlusTree.runSection` is what one section does to the tree and where the call
goes next (`Pc`).  A single-threaded call is the sequence of its sections with nothing in between
(`BPlusTree.solo`), and the concurrent executions of `Vdb.BTree.Concurrent` interleave them.

* A `NodeId` indexes the arena, which only grows; `kNoNext` is `none`.  Node ids are exact while
  there are fewer than `2 ^ 32` nodes, as the default of `max_nodes` sees to.
* Keys are only ever compared, so `uint64_t` keys are natural numbers here.
* `std::lower_bound` is `Search.lowerBound`, the halving loop itself, because the keys of an
  internal node need not be sorted while inserts run concurrently.
-/

namespace Vdb

namespace BTree

/-- A key in its order-preserving unsigned form. -/
abbrev Key := ℕ

/-- Index of a node in the arena. -/
abbrev NodeId := ℕ

/-- One stored pair. -/
abbrev Entry := Key × InternalId

structure BTreeConfig where
  /-- Most keys a node holds before it splits. -/
  nodeCapacity : ℕ := 128
  /-- Size of the node arena. -/
  maxNodes : ℕ := 2 ^ 20

structure Node where
  isLeaf : Bool := true
  keys : List Key := []
  /-- Leaf only, parallel to `keys`. -/
  values : List InternalId := []
  /-- Internal only, one longer than `keys`. -/
  children : List NodeId := []
  /-- Right sibling at the same level. -/
  rightLink : Option NodeId := none
  /-- Largest key the subtree can hold; `none` is unbounded. -/
  highKey : Option Key := none
  /-- A parent this node had at some time. -/
  parentHint : Option NodeId := none
  deriving DecidableEq, Repr, Inhabited

/-- The pairs a leaf stores. -/
def Node.entries (n : Node) : List Entry := n.keys.zip n.values

structure BPlusTree where
  cfg : BTreeConfig
  nodes : NodeId → Node
  /-- Nodes allocated so far; `nodes i` is junk from `count` on. -/
  count : ℕ
  root : NodeId
  size : ℕ

/-- A split: the new right sibling, and the key that routes to it. -/
structure SplitResult where
  right : NodeId
  separator : Key
  deriving DecidableEq, Repr

namespace BPlusTree

/-- The empty tree: one empty leaf. -/
def new (cfg : BTreeConfig) : BPlusTree :=
  { cfg, nodes := fun _ => {}, count := 1, root := 0, size := 0 }

variable (t : BPlusTree)

/-- Store `n` at index `i` of the arena. -/
def setNode (i : NodeId) (n : Node) : BPlusTree :=
  { t with nodes := Function.update t.nodes i n }

/-- Append `n` to the arena, at index `t.count`. -/
def push (n : Node) : BPlusTree :=
  { t with nodes := Function.update t.nodes t.count n, count := t.count + 1 }

/-- Set the `parent_hint` of every node in `cs`. -/
def setHints (cs : List NodeId) (h : NodeId) : BPlusTree :=
  { t with nodes := fun i =>
      if i ∈ cs then { t.nodes i with parentHint := some h } else t.nodes i }

/-- `new_leaf_` and `new_internal_` throw `std::length_error` on a full arena. -/
def isFull : Bool := decide (t.cfg.maxNodes ≤ t.count)

/-- `child_index_`: the child of `n` a descent for `key` takes. -/
def childIndex (n : Node) (key : Key) : ℕ := Search.lowerBound n.keys key

/-- The test of `move_right_`: the key lies beyond what the node covers. -/
def exceeds (n : Node) (key : Key) : Bool :=
  match n.highKey with
  | none => false
  | some h => decide (h < key)

/-- Put `(key, id)` into the leaf `cur`, at the first place not below `key`. -/
def insertEntry (cur : NodeId) (key : Key) (id : InternalId) : BPlusTree :=
  let leaf := t.nodes cur
  let pos := Search.lowerBound leaf.keys key
  { t.setNode cur { leaf with
      keys := leaf.keys.insertIdx pos key, values := leaf.values.insertIdx pos id } with
    size := t.size + 1 }

/-- `split_leaf_`; `none` when the arena is full, and then nothing has changed. -/
def splitLeaf (id : NodeId) : Option (BPlusTree × SplitResult) :=
  if t.isFull then none
  else
    let l := t.nodes id
    let mid := (l.keys.length + 1) / 2
    let separator := (l.keys.take mid).getLastD 0
    let r : Node :=
      { isLeaf := true, keys := l.keys.drop mid, values := l.values.drop mid
        rightLink := l.rightLink, highKey := l.highKey }
    let l' : Node := { l with
      keys := l.keys.take mid, values := l.values.take mid
      rightLink := some t.count, highKey := some separator }
    some ((t.push r).setNode id l', ⟨t.count, separator⟩)

/-- `split_internal_`; `none` when the arena is full, and then nothing has changed. -/
def splitInternal (id : NodeId) : Option (BPlusTree × SplitResult) :=
  if t.isFull then none
  else
    let l := t.nodes id
    let mid := l.keys.length / 2
    let separator := l.keys.getD mid 0
    let r : Node :=
      { isLeaf := false, keys := l.keys.drop (mid + 1), children := l.children.drop (mid + 1)
        rightLink := l.rightLink, highKey := l.highKey }
    let l' : Node := { l with
      keys := l.keys.take mid, children := l.children.take (mid + 1)
      rightLink := some t.count, highKey := some separator }
    some (((t.push r).setNode id l').setHints r.children t.count, ⟨t.count, separator⟩)

/-- `child_position_`. -/
def childPosition (n : Node) (child : NodeId) : ℕ := n.children.idxOf child

/-- Splice `(separator, right)` into `parent` next to `child`, and record the parent of `right`. -/
def splice (parent child : NodeId) (sr : SplitResult) : BPlusTree :=
  let p := t.nodes parent
  let ci := childPosition p child
  (t.setNode parent { p with
      keys := p.keys.insertIdx ci sr.separator
      children := p.children.insertIdx (ci + 1) sr.right }).setHints [sr.right] parent

/-- Grow a new root over `child` and its new sibling; `none` when the arena is full. -/
def growRoot (child : NodeId) (sr : SplitResult) : Option BPlusTree :=
  if t.isFull then none
  else some { t.push { isLeaf := false, keys := [sr.separator], children := [child, sr.right] } with
    root := t.count }

/-- The entries of a leaf with `lo ≤ key ≤ hi`, as `range` copies them out. -/
def batch (leaf : Node) (lo hi : Key) : List Entry :=
  (leaf.entries.drop (Search.lowerBound leaf.keys lo)).takeWhile fun e => decide (e.1 ≤ hi)

/-- `range` met a key above `hi` in this leaf. -/
def exceededHi (leaf : Node) (lo hi : Key) : Bool :=
  (leaf.keys.drop (Search.lowerBound leaf.keys lo)).any fun k => decide (hi < k)

end BPlusTree

/-- A call of an operation that may run concurrently with others. -/
inductive Op where
  | insert (key : Key) (id : InternalId)
  | range (lo hi : Key)
  deriving DecidableEq, Repr

/-- `find(key)` is the zero-width range. -/
abbrev Op.find (key : Key) : Op := .range key key

/-- The key an operation descends for. -/
def Op.target : Op → Key
  | .insert key _ => key
  | .range lo _ => lo

/-- Where a call stands between two of its locked sections. -/
inductive Pc where
  /-- About to read `root_`. -/
  | lockRoot
  /-- About to lock `cur` on the way to a leaf, or along the leaves; `out` has been emitted. -/
  | descend (cur : NodeId) (out : List Entry)
  /-- About to lock `cur` in search of the parent of `child` (`move_right_to_child_`). -/
  | relocate (cur child : NodeId) (sr : SplitResult)
  /-- `child` had no hint: about to lock `root_mutex_`. -/
  | growRoot (child : NodeId) (sr : SplitResult)
  /-- `child` was not the root: about to lock it and read its hint again. -/
  | freshHint (child : NodeId) (sr : SplitResult)
  /-- The root has grown: about to set the hint of `child`. -/
  | hintChild (child : NodeId) (sr : SplitResult) (newRoot : NodeId)
  /-- About to set the hint of `right`. -/
  | hintRight (right newRoot : NodeId)
  /-- Returned; a `range` has emitted `out`. -/
  | done (out : List Entry)
  /-- Left by `std::length_error`. -/
  | threw
  /-- The "target lost" assertion of `move_right_to_child_` failed. -/
  | targetLost
  /-- `move_right_` followed a missing right link. -/
  | badLink
  deriving DecidableEq, Repr

namespace BPlusTree

variable (t : BPlusTree)

/-- What follows a split of `child`: its hint was read while it was still locked. -/
def afterSplit (child : NodeId) (sr : SplitResult) : Pc :=
  match (t.nodes child).parentHint with
  | some h => .relocate h child sr
  | none => .growRoot child sr

/-- The leaf section of `insert`. -/
def insertSection (cur : NodeId) (key : Key) (id : InternalId) : BPlusTree × Pc :=
  let t₁ := t.insertEntry cur key id
  if (t₁.nodes cur).keys.length ≤ t.cfg.nodeCapacity then (t₁, .done [])
  else match t₁.splitLeaf cur with
    | none => (t₁, .threw)
    | some (t₂, sr) => (t₂, t₂.afterSplit cur sr)

/-- The leaf section of `range`. -/
def scanSection (cur : NodeId) (lo hi : Key) (out : List Entry) : Pc :=
  let leaf := t.nodes cur
  let out := out ++ batch leaf lo hi
  if exceededHi leaf lo hi then .done out
  else match leaf.rightLink with
    | none => .done out
    | some next => .descend next out

/-- The section under `parent`'s lock that splices in a split child. -/
def spliceSection (parent child : NodeId) (sr : SplitResult) : BPlusTree × Pc :=
  let t₁ := t.splice parent child sr
  if (t₁.nodes parent).keys.length ≤ t.cfg.nodeCapacity then (t₁, .done [])
  else match t₁.splitInternal parent with
    | none => (t₁, .threw)
    | some (t₂, sr') => (t₂, t₂.afterSplit parent sr')

/-- One locked section of a call: its effect on the tree, and where the call goes next. -/
def runSection (op : Op) : Pc → BPlusTree × Pc
  | .lockRoot =>
    match op with
    | .insert _ _ => (t, .descend t.root [])
    | .range lo hi => (t, if hi < lo then .done [] else .descend t.root [])
  | .descend cur out =>
    let n := t.nodes cur
    if exceeds n op.target then
      match n.rightLink with
      | none => (t, .badLink)
      | some right => (t, .descend right out)
    else if n.isLeaf then
      match op with
      | .insert key id => t.insertSection cur key id
      | .range lo hi => (t, t.scanSection cur lo hi out)
    else (t, .descend (n.children.getD (childIndex n op.target) 0) out)
  | .relocate cur child sr =>
    if child ∈ (t.nodes cur).children then t.spliceSection cur child sr
    else match (t.nodes cur).rightLink with
      | none => (t, .targetLost)
      | some right => (t, .relocate right child sr)
  | .growRoot child sr =>
    if t.root = child then
      match t.growRoot child sr with
      | none => (t, .threw)
      | some t' => (t', .hintChild child sr t.count)
    else (t, .freshHint child sr)
  | .freshHint child sr =>
    match (t.nodes child).parentHint with
    | none => (t, .growRoot child sr)
    | some h => (t, .relocate h child sr)
  | .hintChild child sr newRoot => (t.setHints [child] newRoot, .hintRight sr.right newRoot)
  | .hintRight right newRoot => (t.setHints [right] newRoot, .done [])
  | pc => (t, pc)

/-- `n` sections of one call, with no other call running. -/
def solo (op : Op) : ℕ → BPlusTree × Pc → BPlusTree × Pc
  | 0, s => s
  | n + 1, s => solo op n (s.1.runSection op s.2)

end BPlusTree

end BTree

end Vdb
