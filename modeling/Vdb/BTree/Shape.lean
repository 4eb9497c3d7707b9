import Vdb.BTree.Basic
import Vdb.Lib.Spine
import Vdb.Lib.ListEdit
import Mathlib.Algebra.Order.Group.Multiset

/-!
# The B-link invariant

A tree is described by its levels (`Shape`): for each level the list of its nodes in the order of
the right links, and for each node the exclusive lower end of the keys it covers.  `BLink t g`
says that the arena has this shape.  Nothing in it mentions the order of separators inside an
internal node, or that a node has been spliced into a parent: only that every separator is paired
with the child right of it (`BLink.internal`), that the upper end of a node is the lower end of
its right sibling (`BLink.threaded`), and that from the hint of a node its parent is reached by
right links (`BLink.hints`).  That is what survives every interleaving of splits and splices.

`Evolves` collects what a section of one call does to the tree as far as the other calls can see.
-/

namespace Vdb

namespace BTree

/-- The levels of a tree: level `0` holds the leaves, level `top` the root. -/
structure Shape where
  top : ℕ
  /-- The nodes of a level, left to right. -/
  chain : ℕ → List NodeId
  /-- Every key a node covers is above `low`, up to copies of `low` itself. -/
  low : NodeId → Option Key

/-- The shape after the node `x` has been split at `sep`. -/
def Shape.split (g : Shape) (x new : NodeId) (sep : Key) : Shape :=
  { g with
    chain := fun ℓ => ListEdit.behind x new (g.chain ℓ)
    low := Function.update g.low new (some sep) }

/-- The shape after a new root has grown. -/
def Shape.grow (g : Shape) (newRoot : NodeId) : Shape where
  top := g.top + 1
  chain := Function.update g.chain (g.top + 1) [newRoot]
  low := Function.update g.low newRoot none

/-- What a leaf with lower end `low` satisfies. -/
structure LeafOk (n : Node) (low : Option Key) : Prop where
  parallel : n.values.length = n.keys.length
  sorted : n.keys.Pairwise (· ≤ ·)
  low_le : ∀ k ∈ n.keys, ∀ v ∈ low, v ≤ k
  le_high : ∀ k ∈ n.keys, ∀ h ∈ n.highKey, k ≤ h
  bounds : ∀ v ∈ low, ∀ h ∈ n.highKey, v ≤ h

/-- `b` is the right sibling of `a`, and covers the keys where `a` stops. -/
def Joined (t : BPlusTree) (g : Shape) (a b : NodeId) : Prop :=
  (t.nodes a).rightLink = some b ∧ ∃ v, g.low b = some v ∧ (t.nodes a).highKey = some v

/-- `a` is the rightmost node of its level. -/
def Unbounded (t : BPlusTree) (a : NodeId) : Prop :=
  (t.nodes a).rightLink = none ∧ (t.nodes a).highKey = none

/-- Walking right from `h` first meets `child` among the children of `p`. -/
abbrev WalkTo (t : BPlusTree) (child h p : NodeId) : Prop :=
  Spine.Walk (fun x => (t.nodes x).rightLink) (fun x => child ∈ (t.nodes x).children) h p

/-- From `h`, right links lead to the parent of the node `child` of level `ℓ`. -/
def Leads (t : BPlusTree) (g : Shape) (ℓ : ℕ) (child h : NodeId) : Prop :=
  h < t.count ∧ ∃ p ∈ g.chain (ℓ + 1), WalkTo t child h p

/-- The arena `t` has the shape `g`. -/
structure BLink (t : BPlusTree) (g : Shape) : Prop where
  above : ∀ ℓ, g.top < ℓ → g.chain ℓ = []
  root_head : (g.chain g.top).head? = some t.root
  nodup : ∀ ℓ, (g.chain ℓ).Nodup
  level_unique : ∀ ℓ ℓ' x, x ∈ g.chain ℓ → x ∈ g.chain ℓ' → ℓ = ℓ'
  lt_count : ∀ ℓ, ∀ x ∈ g.chain ℓ, x < t.count
  link_lt : ∀ i j, (t.nodes i).rightLink = some j → j < t.count
  head_low : ∀ ℓ, ∀ x ∈ (g.chain ℓ).head?, g.low x = none
  threaded : ∀ ℓ, Spine.Threaded (Joined t g) (Unbounded t) (g.chain ℓ)
  leaf : ∀ x ∈ g.chain 0, (t.nodes x).isLeaf = true ∧ LeafOk (t.nodes x) (g.low x)
  internal : ∀ ℓ, ∀ x ∈ g.chain (ℓ + 1), (t.nodes x).isLeaf = false ∧
    (∀ c ∈ (t.nodes x).children, c ∈ g.chain ℓ) ∧
    (t.nodes x).children.map g.low = g.low x :: (t.nodes x).keys.map some
  parents : ∀ ℓ, ((g.chain (ℓ + 1)).flatMap fun x => (t.nodes x).children).Nodup
  hints : ∀ ℓ, ∀ x ∈ g.chain ℓ, ∀ h ∈ (t.nodes x).parentHint, Leads t g ℓ x h

/-- The empty tree is one unbounded leaf. -/
theorem BLink.new (cfg : BTreeConfig) : BLink (.new cfg)
    ⟨0, fun ℓ => if ℓ = 0 then [0] else [], fun _ => none⟩ := by
  constructor
  case above => exact fun ℓ hℓ => if_neg hℓ.ne'
  case root_head => rfl
  case nodup =>
    intro ℓ
    dsimp only
    split_ifs
    · exact List.nodup_singleton 0
    · exact List.nodup_nil
  case level_unique =>
    intro ℓ ℓ' x h h'
    have hzero : ∀ {k : ℕ}, x ∈ (if k = 0 then [0] else []) → k = 0 := by
      intro k hk
      split_ifs at hk with h0
      · exact h0
      · cases hk
    exact (hzero h).trans (hzero h').symm
  case lt_count =>
    intro ℓ x h
    dsimp only at h
    split_ifs at h
    · rw [List.mem_singleton.1 h]; exact Nat.one_pos
    · cases h
  case link_lt => intro i j h; cases h
  case head_low => exact fun _ _ _ => rfl
  case threaded =>
    intro ℓ
    dsimp only
    split_ifs
    · exact .singleton ⟨rfl, rfl⟩
    · exact ⟨.nil, by rintro a ⟨⟩⟩
  case leaf =>
    intro x _
    exact ⟨rfl, rfl, List.Pairwise.nil, by rintro k ⟨⟩, by rintro k ⟨⟩, by rintro v ⟨⟩⟩
  case internal =>
    intro ℓ x h
    simp at h
  case parents => intro ℓ; simp
  case hints => rintro ℓ x _ h ⟨⟩

/-- The pairs stored in the leaves `xs`. -/
def entriesOf (t : BPlusTree) (xs : List NodeId) : Multiset Entry :=
  ↑(xs.flatMap fun x => (t.nodes x).entries)

/-- `child` has been spliced into a node of the level above. -/
def Spliced (t : BPlusTree) (g : Shape) (ℓ : ℕ) (child : NodeId) : Prop :=
  ∃ p ∈ g.chain (ℓ + 1), child ∈ (t.nodes p).children

/-- What a section of one call does to the tree, as far as the other calls can see. -/
structure Evolves (t : BPlusTree) (g : Shape) (t' : BPlusTree) (g' : Shape) : Prop where
  chain : ∀ ℓ, (g.chain ℓ).Sublist (g'.chain ℓ)
  low : ∀ ℓ, ∀ x ∈ g.chain ℓ, g'.low x = g.low x
  count : t.count ≤ t'.count
  /-- A reader standing at `x` keeps behind it what was behind it, and ahead what was ahead. -/
  scan : ∀ pre x post, g.chain 0 = pre ++ x :: post → ∃ pre' post',
    g'.chain 0 = pre' ++ x :: post' ∧ entriesOf t pre ≤ entriesOf t' pre' ∧
    entriesOf t (x :: post) ≤ entriesOf t' (x :: post')
  leads : ∀ ℓ c h, Leads t g ℓ c h → Leads t' g' ℓ c h

namespace Evolves

variable {t t' t'' : BPlusTree} {g g' g'' : Shape}

theorem refl (t : BPlusTree) (g : Shape) : Evolves t g t g :=
  ⟨fun _ => List.Sublist.refl _, fun _ _ _ => rfl, le_rfl,
    fun pre _ post h => ⟨pre, post, h, le_rfl, le_rfl⟩, fun _ _ _ h => h⟩

theorem trans (h : Evolves t g t' g') (h' : Evolves t' g' t'' g'') : Evolves t g t'' g'' where
  chain ℓ := (h.chain ℓ).trans (h'.chain ℓ)
  low ℓ x hx := (h'.low ℓ x ((h.chain ℓ).subset hx)).trans (h.low ℓ x hx)
  count := h.count.trans h'.count
  scan pre x post hd := by
    obtain ⟨pre', post', hd', h1, h2⟩ := h.scan pre x post hd
    obtain ⟨pre'', post'', hd'', h3, h4⟩ := h'.scan pre' x post' hd'
    exact ⟨pre'', post'', hd'', h1.trans h3, h2.trans h4⟩
  leads ℓ c p hl := h'.leads ℓ c p (h.leads ℓ c p hl)

end Evolves

section Fields

theorem chain_split (g : Shape) (x new : NodeId) (sep : Key) (ℓ : ℕ) :
    (g.split x new sep).chain ℓ = ListEdit.behind x new (g.chain ℓ) := rfl

theorem low_split (g : Shape) (x new y : NodeId) (sep : Key) :
    (g.split x new sep).low y = if y = new then some sep else g.low y :=
  Function.update_apply _ _ _ _

theorem mem_chain_split {g : Shape} {x new y : NodeId} {sep : Key} {ℓ : ℕ} :
    y ∈ (g.split x new sep).chain ℓ ↔ y ∈ g.chain ℓ ∨ y = new ∧ x ∈ g.chain ℓ :=
  ListEdit.mem_behind

theorem head?_chain_split (g : Shape) (x new : NodeId) (sep : Key) (ℓ : ℕ) :
    ((g.split x new sep).chain ℓ).head? = (g.chain ℓ).head? := by
  rw [chain_split]
  cases g.chain ℓ with
  | nil => rfl
  | cons y l => rw [ListEdit.behind_cons, List.head?_cons, List.head?_cons]

theorem chain_grow (g : Shape) (new : NodeId) (ℓ : ℕ) :
    (g.grow new).chain ℓ = if ℓ = g.top + 1 then [new] else g.chain ℓ :=
  Function.update_apply _ _ _ _

theorem low_grow (g : Shape) (new y : NodeId) :
    (g.grow new).low y = if y = new then none else g.low y :=
  Function.update_apply _ _ _ _

variable (t : BPlusTree) (cs : List NodeId) (h i j : NodeId) (n : Node)

@[simp] theorem nodes_setNode : (t.setNode i n).nodes j = if j = i then n else t.nodes j :=
  Function.update_apply _ _ _ _

@[simp] theorem nodes_push : (t.push n).nodes j = if j = t.count then n else t.nodes j :=
  Function.update_apply _ _ _ _

@[simp] theorem count_setNode : (t.setNode i n).count = t.count := rfl
@[simp] theorem count_push : (t.push n).count = t.count + 1 := rfl
@[simp] theorem count_setHints : (t.setHints cs h).count = t.count := rfl
@[simp] theorem root_setNode : (t.setNode i n).root = t.root := rfl
@[simp] theorem root_push : (t.push n).root = t.root := rfl
@[simp] theorem root_setHints : (t.setHints cs h).root = t.root := rfl
@[simp] theorem cfg_setNode : (t.setNode i n).cfg = t.cfg := rfl
@[simp] theorem cfg_push : (t.push n).cfg = t.cfg := rfl
@[simp] theorem cfg_setHints : (t.setHints cs h).cfg = t.cfg := rfl
@[simp] theorem size_setNode : (t.setNode i n).size = t.size := rfl
@[simp] theorem size_push : (t.push n).size = t.size := rfl
@[simp] theorem size_setHints : (t.setHints cs h).size = t.size := rfl

@[simp] theorem setHints_isLeaf : ((t.setHints cs h).nodes j).isLeaf = (t.nodes j).isLeaf := by
  simp only [BPlusTree.setHints]; split_ifs <;> rfl

@[simp] theorem setHints_keys : ((t.setHints cs h).nodes j).keys = (t.nodes j).keys := by
  simp only [BPlusTree.setHints]; split_ifs <;> rfl

@[simp] theorem setHints_values : ((t.setHints cs h).nodes j).values = (t.nodes j).values := by
  simp only [BPlusTree.setHints]; split_ifs <;> rfl

@[simp] theorem setHints_children :
    ((t.setHints cs h).nodes j).children = (t.nodes j).children := by
  simp only [BPlusTree.setHints]; split_ifs <;> rfl

@[simp] theorem setHints_rightLink :
    ((t.setHints cs h).nodes j).rightLink = (t.nodes j).rightLink := by
  simp only [BPlusTree.setHints]; split_ifs <;> rfl

@[simp] theorem setHints_highKey :
    ((t.setHints cs h).nodes j).highKey = (t.nodes j).highKey := by
  simp only [BPlusTree.setHints]; split_ifs <;> rfl

theorem setHints_parentHint : ((t.setHints cs h).nodes j).parentHint =
    if j ∈ cs then some h else (t.nodes j).parentHint := by
  simp only [BPlusTree.setHints]; split_ifs <;> rfl

@[simp] theorem setHints_entries :
    ((t.setHints cs h).nodes j).entries = (t.nodes j).entries := by
  simp only [BPlusTree.setHints]; split_ifs <;> rfl

end Fields

theorem entriesOf_nil (t : BPlusTree) : entriesOf t [] = 0 := rfl

theorem entriesOf_cons (t : BPlusTree) (x : NodeId) (xs : List NodeId) :
    entriesOf t (x :: xs) = ↑(t.nodes x).entries + entriesOf t xs := by
  simp [entriesOf]

theorem entriesOf_append (t : BPlusTree) (xs ys : List NodeId) :
    entriesOf t (xs ++ ys) = entriesOf t xs + entriesOf t ys := by
  simp [entriesOf]

theorem entriesOf_congr {t t' : BPlusTree} {xs : List NodeId}
    (h : ∀ x ∈ xs, (t'.nodes x).entries = (t.nodes x).entries) :
    entriesOf t' xs = entriesOf t xs := by
  induction xs with
  | nil => rfl
  | cons x xs ih =>
    rw [entriesOf_cons, entriesOf_cons, h x List.mem_cons_self,
      ih fun y hy => h y (List.mem_cons_of_mem _ hy)]

theorem mem_entriesOf {t : BPlusTree} {xs : List NodeId} {e : Entry} :
    e ∈ entriesOf t xs ↔ ∃ x ∈ xs, e ∈ (t.nodes x).entries := by
  simp [entriesOf]

theorem Node.fst_mem_keys {n : Node} {e : Entry} (h : e ∈ n.entries) : e.1 ∈ n.keys :=
  (List.of_mem_zip h).1

end BTree

end Vdb
