import Vdb.BTree.WellFormed

/-!
# Removing an entry

`remove` descends without right moves, keeps the ancestors of the leaf it stands at
(`BPlusTree.findLeaf`), walks over the leaves that may hold the key (`BPlusTree.removeWalk`), and
rebalances upwards along the ancestors (`BPlusTree.rebalance`).  A path lists the ancestors
parent first.  The loops of the descents take the number of their rounds as an argument and give
`none` when it does not suffice.

This file shows that on a well-formed tree the walk finds the entry if it is there, with the true
ancestors of its leaf (`removeWalk_spec`).
-/

namespace Vdb

namespace BTree

namespace BPlusTree

variable (t : BPlusTree)

/-- The descent of `remove`. -/
def findLeaf (key : Key) : ℕ → NodeId → List NodeId → Option (NodeId × List NodeId)
  | 0, _, _ => none
  | fuel + 1, cur, path =>
    let n := t.nodes cur
    if n.isLeaf then some (cur, path)
    else findLeaf key fuel (n.children.getD (childIndex n key) 0) (cur :: path)

/-- The first leaf below `node`. -/
def firstLeaf : ℕ → NodeId → List NodeId → Option (NodeId × List NodeId)
  | 0, _, _ => none
  | fuel + 1, node, path =>
    if (t.nodes node).isLeaf then some (node, path)
    else firstLeaf fuel ((t.nodes node).children.headD 0) (node :: path)

/-- `advance_to_next_leaf_`; `some none` when `cur` was the last leaf. -/
def advanceToNextLeaf (fuel : ℕ) : List NodeId → NodeId → Option (Option (NodeId × List NodeId))
  | [], _ => some none
  | parent :: path, cur =>
    let p := t.nodes parent
    let idx := childPosition p cur
    if idx + 1 < p.children.length then
      (t.firstLeaf fuel (p.children.getD (idx + 1) 0) (parent :: path)).map some
    else advanceToNextLeaf fuel path parent

/-- The place of `(key, id)` in a leaf. -/
def entryPlace (leaf : Node) (key : Key) (id : InternalId) : Option ℕ :=
  let lo := Search.lowerBound leaf.keys key
  let hi := Search.upperBound leaf.keys key
  (List.range' lo (hi - lo)).find? fun pos => decide (leaf.values.getD pos 0 = id)

/-- Take the entry at `pos` out of the leaf `cur`. -/
def eraseEntry (cur : NodeId) (pos : ℕ) : BPlusTree :=
  let leaf := t.nodes cur
  { t.setNode cur { leaf with
      keys := leaf.keys.eraseIdx pos, values := leaf.values.eraseIdx pos } with
    size := t.size - 1 }

/-- `borrow_from_right_`. -/
def borrowFromRight (parent : NodeId) (ci : ℕ) : BPlusTree :=
  let p := t.nodes parent
  let ui := p.children.getD ci 0
  let ri := p.children.getD (ci + 1) 0
  let underflow := t.nodes ui
  let right := t.nodes ri
  if underflow.isLeaf then
    let borrowed := right.keys.headD 0
    ((t.setNode ui { underflow with
        keys := underflow.keys ++ [borrowed]
        values := underflow.values ++ [right.values.headD 0]
        highKey := some borrowed }).setNode ri { right with
        keys := right.keys.tail, values := right.values.tail }).setNode parent { p with
        keys := p.keys.set ci borrowed }
  else
    let newSep := right.keys.headD 0
    let moved := right.children.headD 0
    (((t.setNode ui { underflow with
        keys := underflow.keys ++ [p.keys.getD ci 0]
        children := underflow.children ++ [moved]
        highKey := some newSep }).setNode ri { right with
        keys := right.keys.tail, children := right.children.tail }).setNode parent { p with
        keys := p.keys.set ci newSep }).setHints [moved] ui

/-- `borrow_from_left_`. -/
def borrowFromLeft (parent : NodeId) (ci : ℕ) : BPlusTree :=
  let p := t.nodes parent
  let ui := p.children.getD ci 0
  let li := p.children.getD (ci - 1) 0
  let underflow := t.nodes ui
  let left := t.nodes li
  if underflow.isLeaf then
    let loaned := left.keys.dropLast
    ((t.setNode ui { underflow with
        keys := left.keys.getLastD 0 :: underflow.keys
        values := left.values.getLastD 0 :: underflow.values }).setNode li { left with
        keys := loaned, values := left.values.dropLast
        highKey := some (loaned.getLastD 0) }).setNode parent { p with
        keys := p.keys.set (ci - 1) (loaned.getLastD 0) }
  else
    let newSep := left.keys.getLastD 0
    let moved := left.children.getLastD 0
    (((t.setNode ui { underflow with
        keys := p.keys.getD (ci - 1) 0 :: underflow.keys
        children := moved :: underflow.children }).setNode li { left with
        keys := left.keys.dropLast, children := left.children.dropLast
        highKey := some newSep }).setNode parent { p with
        keys := p.keys.set (ci - 1) newSep }).setHints [moved] ui

/-- `merge_with_right_`; the node on the right stays in the arena, out of reach. -/
def mergeWithRight (parent : NodeId) (ci : ℕ) : BPlusTree :=
  let p := t.nodes parent
  let li := p.children.getD ci 0
  let ri := p.children.getD (ci + 1) 0
  let left := t.nodes li
  let right := t.nodes ri
  let parent' := { p with
    keys := p.keys.eraseIdx ci, children := p.children.eraseIdx (ci + 1) }
  if left.isLeaf then
    (t.setNode li { left with
        keys := left.keys ++ right.keys, values := left.values ++ right.values
        rightLink := right.rightLink, highKey := right.highKey }).setNode parent parent'
  else
    ((t.setNode li { left with
        keys := left.keys ++ p.keys.getD ci 0 :: right.keys
        children := left.children ++ right.children
        rightLink := right.rightLink, highKey := right.highKey }).setNode parent
        parent').setHints right.children li

/-- Make the only child of an empty root the root. -/
def collapseRoot (root : NodeId) : BPlusTree :=
  let newRoot := (t.nodes root).children.headD 0
  { t.setNode newRoot { t.nodes newRoot with
      highKey := none, rightLink := none, parentHint := none } with root := newRoot }

/-- `rebalance_after_erase_`. -/
def rebalance (t : BPlusTree) : List NodeId → NodeId → BPlusTree
  | [], node =>
    if !(t.nodes node).isLeaf && (t.nodes node).keys.isEmpty then t.collapseRoot node else t
  | parent :: path, node =>
    let minKeys := t.cfg.nodeCapacity / 2
    let numKeys (i : NodeId) := (t.nodes i).keys.length
    if minKeys ≤ numKeys node then t
    else
      let p := t.nodes parent
      let ci := childPosition p node
      let hasRight := ci + 1 < p.children.length
      let hasLeft := 0 < ci
      if hasRight ∧ minKeys < numKeys (p.children.getD (ci + 1) 0) then
        t.borrowFromRight parent ci
      else if hasLeft ∧ minKeys < numKeys (p.children.getD (ci - 1) 0) then
        t.borrowFromLeft parent ci
      else if hasRight then rebalance (t.mergeWithRight parent ci) path parent
      else rebalance (t.mergeWithRight parent (ci - 1)) path parent

/-- The loop of `remove` over the leaves; `fuel` bounds each descent inside a round. -/
def removeWalk (key : Key) (id : InternalId) (fuel : ℕ) :
    ℕ → NodeId → List NodeId → Option (BPlusTree × Bool)
  | 0, _, _ => none
  | rounds + 1, cur, path =>
    let leaf := t.nodes cur
    match entryPlace leaf key id with
    | some pos => some ((t.eraseEntry cur pos).rebalance path cur, true)
    | none =>
      if Search.upperBound leaf.keys key ≠ leaf.keys.length then some (t, false)
      else
        match t.advanceToNextLeaf fuel path cur with
        | none => none
        | some none => some (t, false)
        | some (some (next, path')) =>
          if (t.nodes next).keys.head? ≠ some key then some (t, false)
          else removeWalk key id fuel rounds next path'

/-- `remove`. -/
def remove (fuel : ℕ) (key : Key) (id : InternalId) : Option (BPlusTree × Bool) :=
  match t.findLeaf key fuel t.root [] with
  | none => none
  | some (cur, path) => t.removeWalk key id fuel fuel cur path

/-! `child_position_` asserts that its node has the child.  The nodes and children that `remove`
calls it with, in this order: -/

/-- The calls of `child_position_` in `advance_to_next_leaf_`. -/
def advanceLookups : List NodeId → NodeId → List (Node × NodeId)
  | [], _ => []
  | parent :: path, cur =>
    let p := t.nodes parent
    (p, cur) :: if childPosition p cur + 1 < p.children.length then []
      else advanceLookups path parent

/-- The calls of `child_position_` in `rebalance_after_erase_`. -/
def rebalanceLookups (t : BPlusTree) : List NodeId → NodeId → List (Node × NodeId)
  | [], _ => []
  | parent :: path, node =>
    let minKeys := t.cfg.nodeCapacity / 2
    let numKeys (i : NodeId) := (t.nodes i).keys.length
    if minKeys ≤ numKeys node then []
    else
      let p := t.nodes parent
      let ci := childPosition p node
      let hasRight := ci + 1 < p.children.length
      let hasLeft := 0 < ci
      (p, node) ::
        if hasRight ∧ minKeys < numKeys (p.children.getD (ci + 1) 0) then []
        else if hasLeft ∧ minKeys < numKeys (p.children.getD (ci - 1) 0) then []
        else if hasRight then rebalanceLookups (t.mergeWithRight parent ci) path parent
        else rebalanceLookups (t.mergeWithRight parent (ci - 1)) path parent

/-- The calls of `child_position_` in the loop of `remove` over the leaves. -/
def removeWalkLookups (key : Key) (id : InternalId) (fuel : ℕ) :
    ℕ → NodeId → List NodeId → List (Node × NodeId)
  | 0, _, _ => []
  | rounds + 1, cur, path =>
    let leaf := t.nodes cur
    match entryPlace leaf key id with
    | some pos => (t.eraseEntry cur pos).rebalanceLookups path cur
    | none =>
      if Search.upperBound leaf.keys key ≠ leaf.keys.length then []
      else t.advanceLookups path cur ++
        match t.advanceToNextLeaf fuel path cur with
        | none => []
        | some none => []
        | some (some (next, path')) =>
          if (t.nodes next).keys.head? ≠ some key then []
          else removeWalkLookups key id fuel rounds next path'

/-- The calls of `child_position_` in `remove`. -/
def removeLookups (fuel : ℕ) (key : Key) (id : InternalId) : List (Node × NodeId) :=
  match t.findLeaf key fuel t.root [] with
  | none => []
  | some (cur, path) => t.removeWalkLookups key id fuel fuel cur path

end BPlusTree

variable {t : BPlusTree} {g : Shape}

/-! ### Descending along the separators -/

/-- A node of a tree at rest covers exactly the keys above its lower end up to its high key. -/
def Holds (t : BPlusTree) (g : Shape) (key : Key) (x : NodeId) : Prop :=
  (∀ v ∈ g.low x, v < key) ∧ ∀ h ∈ (t.nodes x).highKey, key ≤ h

theorem Formed.holds_child (h : Formed t g) {ℓ : ℕ} {x : NodeId} {key : Key}
    (hx : x ∈ g.chain (ℓ + 1)) (hk : Holds t g key x) :
    (t.nodes x).children.getD (BPlusTree.childIndex (t.nodes x) key) 0 ∈ (t.nodes x).children ∧
    Holds t g key ((t.nodes x).children.getD (BPlusTree.childIndex (t.nodes x) key) 0) := by
  set keys := (t.nodes x).keys with hkeys
  set i := Search.lowerBound keys key with hi
  have hle : i ≤ keys.length := Search.lowerBound_le keys key
  have hlen := h.blink.length_children hx
  have hlt : i < (t.nodes x).children.length := by rw [hlen]; exact Nat.lt_succ_of_le hle
  obtain ⟨hleaf, -, hmap⟩ := h.blink.internal ℓ x hx
  have hcov : Covers g key x := ⟨ℓ + 1, hx, hk.1⟩
  obtain ⟨-, -, hlow⟩ := hcov.child h.blink hleaf
  have hget : (t.nodes x).children.getD i 0 = (t.nodes x).children[i] :=
    List.getD_eq_getElem _ _ hlt
  refine ⟨by rw [BPlusTree.childIndex, ← hi, hget]; exact List.getElem_mem hlt, hlow, ?_⟩
  rw [BPlusTree.childIndex, ← hi, hget]
  have hcut : (t.nodes x).children = (t.nodes x).children.take i ++
      (t.nodes x).children[i] :: (t.nodes x).children.drop (i + 1) := by
    rw [List.cons_getElem_drop_succ, List.take_append_drop]
  intro v hv
  by_cases hlast : i = keys.length
  · -- the last child ends where `x` ends
    have hnil : (t.nodes x).children.drop (i + 1) = [] := by
      rw [List.drop_eq_nil_iff, hlen, hlast]
    rw [hnil] at hcut
    obtain ⟨P, Q, hPQ⟩ := List.append_of_mem hx
    obtain ⟨-, -, -, hhigh, -⟩ := h.next_last hPQ hcut
    exact hk.2 v (hhigh ▸ hv)
  · -- any other child ends at the separator behind it
    have hi' : i < keys.length := lt_of_le_of_ne hle hlast
    have hsucc : i + 1 < (t.nodes x).children.length := by
      rw [hlen]; exact Nat.succ_lt_succ hi'
    rw [List.drop_eq_getElem_cons hsucc] at hcut
    obtain ⟨-, w, hw, hhigh⟩ := h.joined_siblings hx hcut
    have hlowd : g.low (t.nodes x).children[i + 1] = some keys[i] := by
      have : ((t.nodes x).children.map g.low)[i + 1]? = (g.low x :: keys.map some)[i + 1]? := by
        rw [hmap]
      simpa [hsucc, hi'] using this
    have hge := Search.le_getD_lowerBound keys (x := key) (by rw [← hi]; exact hlast)
    rw [← hi, List.getD_eq_getElem _ _ hi'] at hge
    rw [hhigh] at hv
    rw [hlowd] at hw
    cases hv
    cases hw
    exact hge

theorem Formed.findLeaf_spec (h : Formed t g) {key : Key} : ∀ (ℓ : ℕ) (x : NodeId)
    (path : List NodeId), Path t g ℓ x path → Holds t g key x →
    ∃ leaf path', Path t g 0 leaf path' ∧ Holds t g key leaf ∧
      ∀ fuel, ℓ < fuel → t.findLeaf key fuel x path = some (leaf, path') := by
  intro ℓ
  induction ℓ with
  | zero =>
    intro x path hp hk
    refine ⟨x, path, hp, hk, fun fuel hf => ?_⟩
    obtain ⟨fuel, rfl⟩ := Nat.exists_eq_succ_of_ne_zero (Nat.ne_of_gt hf)
    rw [BPlusTree.findLeaf]
    rw [if_pos (h.blink.leaf x (hp.mem h.blink)).1]
  | succ ℓ ih =>
    intro x path hp hk
    have hx := hp.mem h.blink
    obtain ⟨hmem, hk'⟩ := h.holds_child hx hk
    obtain ⟨leaf, path', hp', hk', hfind⟩ := ih _ (x :: path) (.child hp hmem) hk'
    refine ⟨leaf, path', hp', hk', fun fuel hf => ?_⟩
    obtain ⟨fuel, rfl⟩ := Nat.exists_eq_succ_of_ne_zero (Nat.ne_zero_of_lt hf)
    rw [BPlusTree.findLeaf]
    rw [if_neg (by rw [(h.blink.internal ℓ x hx).1]; exact Bool.false_ne_true)]
    exact hfind fuel (Nat.lt_of_succ_lt_succ hf)

theorem Formed.holds_root (h : Formed t g) (key : Key) : Holds t g key t.root := by
  have hu : Unbounded t t.root := by
    have := h.blink.threaded g.top
    rw [h.root_alone] at this
    exact this.only
  refine ⟨?_, ?_⟩
  · rw [h.blink.root_low]
    rintro v ⟨⟩
  · rw [hu.2]
    rintro v ⟨⟩

/-! ### The next leaf -/

theorem BLink.childPosition_eq (hb : BLink t g) {ℓ : ℕ} {p c : NodeId} {C D : List NodeId}
    (hp : p ∈ g.chain (ℓ + 1)) (hc : (t.nodes p).children = C ++ c :: D) :
    BPlusTree.childPosition (t.nodes p) c = C.length := by
  have hn := hb.children_nodup hp
  rw [hc] at hn
  rw [BPlusTree.childPosition, hc]
  exact ListEdit.idxOf_append fun hm => (List.nodup_append.1 hn).2.2 c hm c List.mem_cons_self rfl

theorem Formed.firstLeaf_leaf (h : Formed t g) {x : NodeId} {path : List NodeId} {fuel : ℕ}
    (hx : x ∈ g.chain 0) (hf : 0 < fuel) : t.firstLeaf fuel x path = some (x, path) := by
  obtain ⟨fuel, rfl⟩ := Nat.exists_eq_succ_of_ne_zero (Nat.ne_of_gt hf)
  rw [BPlusTree.firstLeaf, if_pos (h.blink.leaf x hx).1]

/-- Climbing from the last node of its level finds nothing; from any other node it comes to the
next one, on the way down from the sibling of an ancestor. -/
theorem Formed.advance_level (h : Formed t g) {ℓ : ℕ} {x : NodeId}
    {path : List NodeId} (hp : Path t g ℓ x path) : ∀ A B, g.chain ℓ = A ++ x :: B →
    (B = [] ∧ ∀ fuel, t.advanceToNextLeaf fuel path x = some none) ∨
    ∃ next B' path' n, B = next :: B' ∧ Path t g ℓ next path' ∧ n + ℓ ≤ g.top ∧
      ∀ fuel, n < fuel → t.advanceToNextLeaf fuel path x =
        (t.firstLeaf (fuel - n) next path').map some := by
  induction hp with
  | root =>
    intro A B hd
    rw [h.root_alone] at hd
    have hlen := congrArg List.length hd
    simp only [List.length_append, List.length_cons, List.length_nil] at hlen
    exact .inl ⟨List.length_eq_zero_iff.1 (by omega), fun _ => rfl⟩
  | @child ℓ p c path hp hc ih =>
    intro A B hd
    have hpm := hp.mem h.blink
    have hn := h.blink.nodup ℓ
    obtain ⟨C, D, hCD⟩ := List.append_of_mem hc
    have hpos := h.blink.childPosition_eq hpm hCD
    have htop : ℓ < g.top := h.lt_top hpm
    cases D with
    | cons d D =>
      obtain ⟨A', B', hd'⟩ := h.chain_siblings hpm hCD
      obtain ⟨-, rfl⟩ := ListEdit.cut_unique (hd.symm.trans hd') (hd ▸ hn)
      refine .inr ⟨d, B', p :: path, 0, rfl, .child hp (by rw [hCD]; simp), by omega, ?_⟩
      intro fuel _
      rw [BPlusTree.advanceToNextLeaf]
      rw [hpos, hCD, if_pos (by simp), Nat.sub_zero]
      congr 1
      rw [List.getD_eq_getElem?_getD, List.getElem?_append_right (by omega)]
      simp
    | nil =>
      obtain ⟨P, Q, hPQ⟩ := List.append_of_mem hpm
      obtain ⟨A', B', hd', -, hnext⟩ := h.next_last hPQ hCD
      obtain ⟨-, rfl⟩ := ListEdit.cut_unique (hd.symm.trans hd') (hd ▸ hn)
      have hclimb : ∀ fuel, t.advanceToNextLeaf fuel (p :: path) c =
          t.advanceToNextLeaf fuel path p := by
        intro fuel
        rw [BPlusTree.advanceToNextLeaf]
        rw [hpos, hCD, if_neg (by simp)]
      rcases ih P Q hPQ with ⟨rfl, hadv⟩ | ⟨q, Q', path', n, rfl, hq, hnℓ, hadv⟩
      · rcases hnext with ⟨-, rfl⟩ | ⟨_, _, _, _, he, -⟩
        · exact .inl ⟨rfl, fun fuel => (hclimb fuel).trans (hadv fuel)⟩
        · cases he
      · rcases hnext with ⟨he, -⟩ | ⟨_, _, d, D, he, hqc, B', rfl⟩
        · cases he
        · cases he
          refine .inr ⟨d, B', q :: path', n + 1, rfl, .child hq (by rw [hqc]; simp), by omega, ?_⟩
          intro fuel hf
          have hqm := hq.mem h.blink
          obtain ⟨m, hm⟩ : ∃ m, fuel - n = m + 1 := ⟨fuel - n - 1, by omega⟩
          rw [hclimb, hadv fuel (Nat.lt_of_succ_lt hf), hm, BPlusTree.firstLeaf,
            if_neg (by rw [(h.blink.internal ℓ q hqm).1]; exact Bool.false_ne_true), hqc]
          rw [show fuel - (n + 1) = m by omega]
          rfl

theorem Formed.advance_spec (h : Formed t g) {x : NodeId} {path A B : List NodeId}
    (hp : Path t g 0 x path) (hd : g.chain 0 = A ++ x :: B) :
    (B = [] ∧ ∀ fuel, t.advanceToNextLeaf fuel path x = some none) ∨
    ∃ next B' path', B = next :: B' ∧ Path t g 0 next path' ∧
      ∀ fuel, g.top < fuel → t.advanceToNextLeaf fuel path x = some (some (next, path')) := by
  rcases h.advance_level hp A B hd with h0 | ⟨next, B', path', n, rfl, hp', hn, hadv⟩
  · exact .inl h0
  · refine .inr ⟨next, B', path', rfl, hp', fun fuel hf => ?_⟩
    rw [hadv fuel (by omega), h.firstLeaf_leaf (hp'.mem h.blink) (by omega)]
    rfl

/-! ### The walk over the leaves -/

theorem getElem?_entries {n : Node} {pos : ℕ} {e : Entry} : n.entries[pos]? = some e ↔
    n.keys[pos]? = some e.1 ∧ n.values[pos]? = some e.2 := by
  rw [Node.entries, List.getElem?_zip_eq_some]

/-- Where the key of a sorted leaf is found it lies between the two bounds. -/
theorem LeafOk.place_bounds {n : Node} {low : Option Key} (hok : LeafOk n low) {key : Key}
    {pos : ℕ} : n.keys[pos]? = some key ↔
      Search.lowerBound n.keys key ≤ pos ∧ pos < Search.upperBound n.keys key := by
  have hle := Search.upperBound_le n.keys key
  constructor
  · intro hk
    obtain ⟨hlt, hget⟩ := List.getElem?_eq_some_iff.1 hk
    constructor
    · by_contra hc
      have hmem : key ∈ n.keys.take (Search.lowerBound n.keys key) :=
        List.mem_take_iff_getElem.2 ⟨pos, by omega, hget⟩
      exact lt_irrefl _ (Search.take_lowerBound_lt hok.sorted key _ hmem)
    · by_contra hc
      have hmem : key ∈ n.keys.drop (Search.upperBound n.keys key) := by
        refine List.mem_drop_iff_getElem.2 ⟨pos - Search.upperBound n.keys key, by omega, ?_⟩
        refine Eq.trans ?_ hget
        congr 1
        omega
      exact lt_irrefl _ (Search.lt_drop_upperBound hok.sorted key _ hmem)
  · rintro ⟨h1, h2⟩
    have hlt : pos < n.keys.length := h2.trans_le hle
    have hdrop : n.keys[pos] ∈ n.keys.drop (Search.lowerBound n.keys key) := by
      refine List.mem_drop_iff_getElem.2 ⟨pos - Search.lowerBound n.keys key, by omega, ?_⟩
      congr 1
      omega
    have htake : n.keys[pos] ∈ n.keys.take (Search.upperBound n.keys key) :=
      List.mem_take_iff_getElem.2 ⟨pos, by omega, rfl⟩
    have hge := Search.le_drop_lowerBound hok.sorted key _ hdrop
    have hle' := Search.take_upperBound_le hok.sorted key _ htake
    rw [List.getElem?_eq_getElem hlt, le_antisymm hle' hge]

theorem entryPlace_some {n : Node} {low : Option Key} (hok : LeafOk n low) {key : Key}
    {id : InternalId} {pos : ℕ} (h : BPlusTree.entryPlace n key id = some pos) :
    n.entries[pos]? = some (key, id) := by
  unfold BPlusTree.entryPlace at h
  have hmem := List.mem_of_find?_eq_some h
  have hval := of_decide_eq_true (List.find?_some (p := fun pos => decide (_ = id)) h)
  rw [List.mem_range'_1] at hmem
  have hk : n.keys[pos]? = some key := hok.place_bounds.2 ⟨hmem.1, by omega⟩
  have hlt := (List.getElem?_eq_some_iff.1 hk).1
  refine getElem?_entries.2 ⟨hk, ?_⟩
  rw [List.getD_eq_getElem _ _ (by rw [hok.parallel]; exact hlt)] at hval
  rw [List.getElem?_eq_getElem (by rw [hok.parallel]; exact hlt), hval]

theorem entryPlace_none {n : Node} {low : Option Key} (hok : LeafOk n low) {key : Key}
    {id : InternalId} (h : BPlusTree.entryPlace n key id = none) : (key, id) ∉ n.entries := by
  intro hmem
  obtain ⟨pos, hpos⟩ := List.getElem?_of_mem hmem
  obtain ⟨hk, hv⟩ := getElem?_entries.1 hpos
  obtain ⟨h1, h2⟩ := hok.place_bounds.1 hk
  dsimp only at h1 h2
  have := List.find?_eq_none.1 h pos (List.mem_range'_1.2 ⟨h1, by omega⟩)
  rw [List.getD_eq_getElem?_getD, hv] at this
  exact this (by simp)

theorem removeWalk_found {key : Key} {id : InternalId} {cur : NodeId} {path : List NodeId} {pos : ℕ}
    (h : BPlusTree.entryPlace (t.nodes cur) key id = some pos) (fuel : ℕ) {rounds : ℕ}
    (hr : 0 < rounds) : t.removeWalk key id fuel rounds cur path =
      some ((t.eraseEntry cur pos).rebalance path cur, true) := by
  obtain ⟨rounds, rfl⟩ := Nat.exists_eq_succ_of_ne_zero hr.ne'
  rw [BPlusTree.removeWalk]
  rw [h]

theorem removeWalk_next {key : Key} {id : InternalId} {cur next : NodeId} {path path' : List NodeId}
    (h : BPlusTree.entryPlace (t.nodes cur) key id = none)
    (hend : Search.upperBound (t.nodes cur).keys key = (t.nodes cur).keys.length) {fuel : ℕ}
    (hadv : t.advanceToNextLeaf fuel path cur = some (some (next, path'))) (rounds : ℕ) :
    t.removeWalk key id fuel (rounds + 1) cur path =
      if (t.nodes next).keys.head? ≠ some key then some (t, false)
      else t.removeWalk key id fuel rounds next path' := by
  rw [BPlusTree.removeWalk]
  rw [h]
  dsimp only
  rw [if_neg (by simpa using hend), hadv]

/-- From a leaf on which everything left of the pair has been passed, the walk finds the pair in
some leaf, with the ancestors of that leaf, or the pair is not in the tree. -/
theorem WellFormed.removeWalk_spec (h : WellFormed t g) (hcap : 2 ≤ t.cfg.nodeCapacity)
    {key : Key} {id : InternalId} : ∀ (B : List NodeId) (cur : NodeId) (path A : List NodeId),
      Path t g 0 cur path → g.chain 0 = A ++ cur :: B → (∀ x ∈ A, (key, id) ∉ (t.nodes x).entries) →
      (∀ v ∈ (t.nodes cur).highKey, key ≤ v) →
      (∃ leaf path' pos, Path t g 0 leaf path' ∧
        (t.nodes leaf).entries[pos]? = some (key, id) ∧
        ∀ fuel rounds, g.top < fuel → B.length < rounds →
          t.removeWalk key id fuel rounds cur path =
            some ((t.eraseEntry leaf pos).rebalance path' leaf, true)) ∨
      ((key, id) ∉ entriesOf t (g.chain 0) ∧ ∀ fuel rounds, g.top < fuel → B.length < rounds →
        t.removeWalk key id fuel rounds cur path = some (t, false)) := by
  intro B
  induction B with
  | nil =>
    intro cur path A hp hd hA _
    have hok := (h.blink.leaf cur (hp.mem h.blink)).2
    cases hplace : BPlusTree.entryPlace (t.nodes cur) key id with
    | some pos =>
      exact .inl ⟨cur, path, pos, hp, entryPlace_some hok hplace,
        fun fuel rounds _ hr => removeWalk_found hplace fuel (Nat.zero_lt_of_lt hr)⟩
    | none =>
      refine .inr ⟨?_, fun fuel rounds _ hr => ?_⟩
      · rw [hd, entriesOf_append, entriesOf_cons, entriesOf_nil, Multiset.mem_add, mem_entriesOf]
        simpa using ⟨hA, entryPlace_none hok hplace⟩
      · obtain ⟨rounds, rfl⟩ := Nat.exists_eq_succ_of_ne_zero (Nat.ne_zero_of_lt hr)
        rcases h.advance_spec hp hd with ⟨-, hadv⟩ | ⟨_, _, _, he, -⟩
        · rw [BPlusTree.removeWalk]
          rw [hplace]
          dsimp only
          split_ifs
          · rfl
          · rw [hadv]
        · cases he
  | cons next B ih =>
    intro cur path A hp hd hA hhigh
    have hcur := hp.mem h.blink
    have hok := (h.blink.leaf cur hcur).2
    cases hplace : BPlusTree.entryPlace (t.nodes cur) key id with
    | some pos =>
      exact .inl ⟨cur, path, pos, hp, entryPlace_some hok hplace,
        fun fuel rounds _ hr => removeWalk_found hplace fuel (Nat.zero_lt_of_lt hr)⟩
    | none =>
      have hnone := entryPlace_none hok hplace
      have habsent : (∀ x ∈ next :: B, (key, id) ∉ (t.nodes x).entries) →
          (key, id) ∉ entriesOf t (g.chain 0) := by
        intro hB hm
        obtain ⟨x, hx, hm⟩ := mem_entriesOf.1 hm
        rw [hd] at hx
        rcases List.mem_append.1 hx with hx | hx
        · exact hA x hx hm
        · rcases List.mem_cons.1 hx with rfl | hx
          · exact hnone hm
          · exact hB x hx hm
      by_cases hend : Search.upperBound (t.nodes cur).keys key = (t.nodes cur).keys.length
      · obtain ⟨path', hp', hadv⟩ : ∃ path', Path t g 0 next path' ∧ ∀ fuel, g.top < fuel →
            t.advanceToNextLeaf fuel path cur = some (some (next, path')) := by
          rcases h.advance_spec hp hd with ⟨he, -⟩ | ⟨_, _, path', he, hp', hadv⟩
          · cases he
          · cases he
            exact ⟨path', hp', hadv⟩
        have hnext := hp'.mem h.blink
        have hok' := (h.blink.leaf next hnext).2
        have hd' : g.chain 0 = (A ++ [cur]) ++ next :: B := by rw [hd]; simp
        obtain ⟨v, hlow, hv⟩ : ∃ v, g.low next = some v ∧ key ≤ v := by
          rcases h.blink.next hd with ⟨he, -⟩ | ⟨_, _, he, -, v, hlow, hh⟩
          · cases he
          · cases he
            exact ⟨v, hlow, hhigh v hh⟩
        cases hkeys : (t.nodes next).keys with
        | nil =>
          -- no leaf next to another one is empty
          have henough := (h.enough next 0 hnext).1
          rw [hkeys] at henough
          rcases henough with hle | halone
          · exact absurd hle (by
              have : 0 < t.cfg.nodeCapacity / 2 := Nat.div_pos hcap (by decide)
              exact Nat.not_le.2 this)
          · rw [hd] at halone
            have := congrArg List.length halone
            simp only [List.length_append, List.length_cons, List.length_nil] at this
            omega
        | cons k ks =>
          have hk : k ∈ (t.nodes next).keys := by rw [hkeys]; exact List.mem_cons_self
          have hkey : key ≤ k := hv.trans (hok'.low_le k hk v hlow)
          by_cases hkk : k = key
          · subst hkk
            have hskip : ∀ fuel rounds, g.top < fuel →
              t.removeWalk k id fuel (rounds + 1) cur path =
                t.removeWalk k id fuel rounds next path' := fun fuel rounds hf => by
              rw [removeWalk_next hplace hend (hadv fuel hf), hkeys, if_neg (by simp)]
            have hrounds : ∀ {rounds : ℕ}, (next :: B).length < rounds →
                ∃ r, rounds = r + 1 ∧ B.length < r := by
              intro rounds hr
              obtain ⟨r, rfl⟩ := Nat.exists_eq_succ_of_ne_zero (Nat.ne_zero_of_lt hr)
              exact ⟨r, rfl, Nat.lt_of_succ_lt_succ hr⟩
            have hA' : ∀ x ∈ A ++ [cur], (k, id) ∉ (t.nodes x).entries := by
              intro x hx
              rcases List.mem_append.1 hx with hx | hx
              · exact hA x hx
              · rw [List.mem_singleton.1 hx]
                exact hnone
            rcases ih next path' (A ++ [cur]) hp' hd' hA' fun w hw => hok'.le_high k hk w hw with
              ⟨leaf, path'', pos, hp'', hpos, hwalk⟩ | ⟨hnot, hwalk⟩
            · refine .inl ⟨leaf, path'', pos, hp'', hpos, fun fuel rounds hf hr => ?_⟩
              obtain ⟨r, rfl, hr'⟩ := hrounds hr
              rw [hskip fuel r hf, hwalk fuel r hf hr']
            · refine .inr ⟨hnot, fun fuel rounds hf hr => ?_⟩
              obtain ⟨r, rfl, hr'⟩ := hrounds hr
              rw [hskip fuel r hf, hwalk fuel r hf hr']
          · have hlt : key < k := lt_of_le_of_ne hkey (Ne.symm hkk)
            refine .inr ⟨habsent fun x hx hm => ?_, fun fuel rounds hf hr => ?_⟩
            · have hkx := Node.fst_mem_keys hm
              rcases List.mem_cons.1 hx with rfl | hx
              · have hs := hok'.sorted
                rw [hkeys] at hs hkx
                rcases List.mem_cons.1 hkx with he | hm'
                · exact hkk he.symm
                · exact absurd ((List.pairwise_cons.1 hs).1 key hm') (Nat.not_le.2 hlt)
              · exact absurd (h.blink.keys_after hd' hx hk hkx) (Nat.not_le.2 hlt)
            · obtain ⟨rounds, rfl⟩ := Nat.exists_eq_succ_of_ne_zero (Nat.ne_zero_of_lt hr)
              rw [removeWalk_next hplace hend (hadv fuel hf), hkeys, if_pos (by simpa using hkk)]
      · have hlt := Search.lt_getD_upperBound hend
        have hidx := lt_of_le_of_ne (Search.upperBound_le (t.nodes cur).keys key) hend
        rw [List.getD_eq_getElem _ _ hidx] at hlt
        refine .inr ⟨habsent fun x hx hm => ?_, fun fuel rounds _ hr => ?_⟩
        · have := h.blink.keys_after hd hx (List.getElem_mem hidx) (Node.fst_mem_keys hm)
          exact absurd this (Nat.not_le.2 hlt)
        · obtain ⟨rounds, rfl⟩ := Nat.exists_eq_succ_of_ne_zero (Nat.ne_zero_of_lt hr)
          rw [BPlusTree.removeWalk]
          rw [hplace]
          dsimp only
          rw [if_pos (by simpa using hend)]

/-- `remove` takes out a copy of the pair and rebalances above its leaf, or the pair is not there
and nothing changes. -/
theorem WellFormed.remove_cases (h : WellFormed t g) (hcap : 2 ≤ t.cfg.nodeCapacity) (key : Key)
    (id : InternalId) :
    (∃ leaf path pos, Path t g 0 leaf path ∧
      (t.nodes leaf).entries[pos]? = some (key, id) ∧ ∀ fuel, t.count < fuel →
      t.remove fuel key id = some ((t.eraseEntry leaf pos).rebalance path leaf, true)) ∨
    ((key, id) ∉ entriesOf t (g.chain 0) ∧ ∀ fuel, t.count < fuel →
      t.remove fuel key id = some (t, false)) := by
  have htop := h.blink.top_lt_count
  obtain ⟨leaf, path, hp, ⟨hlow, hhigh⟩, hfind⟩ :=
    h.findLeaf_spec g.top t.root [] .root (h.holds_root key)
  obtain ⟨A, B, hd⟩ := List.append_of_mem (hp.mem h.blink)
  have hlen := h.blink.length_chain_le 0
  rw [hd, List.length_append, List.length_cons] at hlen
  have hA : ∀ x ∈ A, (key, id) ∉ (t.nodes x).entries := by
    intro x hx hm
    obtain ⟨v, hv, hle⟩ := h.blink.keys_before hd hx (Node.fst_mem_keys hm)
    exact absurd hle (Nat.not_le.2 (hlow v hv))
  rcases h.removeWalk_spec hcap B leaf path A hp hd hA hhigh with
    ⟨leaf', path', pos, hp', hpos, hwalk⟩ | ⟨hnot, hwalk⟩
  · refine .inl ⟨leaf', path', pos, hp', hpos, fun fuel hf => ?_⟩
    rw [BPlusTree.remove, hfind fuel (htop.trans hf)]
    exact hwalk fuel fuel (htop.trans hf) (by omega)
  · refine .inr ⟨hnot, fun fuel hf => ?_⟩
    rw [BPlusTree.remove, hfind fuel (htop.trans hf)]
    exact hwalk fuel fuel (htop.trans hf) (by omega)

end BTree

end Vdb
