import Vdb.BTree.Primitives

/-!
# Linking a new sibling from above

After a split the new sibling is spliced into the parent of the node that was split, or, where
that node was the root, a new root grows over the two.
-/

namespace Vdb

namespace BTree

variable {t : BPlusTree} {g : Shape}

/-! ### Splicing a sibling into its parent -/

section Splice

variable {parent child : NodeId} {sr : SplitResult} {ℓ : ℕ}

theorem splice_children (x : NodeId) : ((t.splice parent child sr).nodes x).children =
    if x = parent then (t.nodes parent).children.insertIdx
      (BPlusTree.childPosition (t.nodes parent) child + 1) sr.right
    else (t.nodes x).children := by
  simp only [BPlusTree.splice, setHints_children, nodes_setNode]
  split_ifs <;> rfl

theorem splice_keys (x : NodeId) : ((t.splice parent child sr).nodes x).keys =
    if x = parent then (t.nodes parent).keys.insertIdx
      (BPlusTree.childPosition (t.nodes parent) child) sr.separator
    else (t.nodes x).keys := by
  simp only [BPlusTree.splice, setHints_keys, nodes_setNode]
  split_ifs <;> rfl

theorem splice_parentHint (x : NodeId) : ((t.splice parent child sr).nodes x).parentHint =
    if x = sr.right then some parent else (t.nodes x).parentHint := by
  simp only [BPlusTree.splice, setHints_parentHint, List.mem_singleton, nodes_setNode]
  split_ifs with h1 h2
  · rfl
  · rw [h2]
  · rfl

@[simp] theorem splice_rightLink (x : NodeId) :
    ((t.splice parent child sr).nodes x).rightLink = (t.nodes x).rightLink := by
  simp only [BPlusTree.splice, setHints_rightLink, nodes_setNode]
  split_ifs with h
  · rw [h]
  · rfl

@[simp] theorem splice_highKey (x : NodeId) :
    ((t.splice parent child sr).nodes x).highKey = (t.nodes x).highKey := by
  simp only [BPlusTree.splice, setHints_highKey, nodes_setNode]
  split_ifs with h
  · rw [h]
  · rfl

@[simp] theorem splice_isLeaf (x : NodeId) :
    ((t.splice parent child sr).nodes x).isLeaf = (t.nodes x).isLeaf := by
  simp only [BPlusTree.splice, setHints_isLeaf, nodes_setNode]
  split_ifs with h
  · rw [h]
  · rfl

@[simp] theorem splice_values (x : NodeId) :
    ((t.splice parent child sr).nodes x).values = (t.nodes x).values := by
  simp only [BPlusTree.splice, setHints_values, nodes_setNode]
  split_ifs with h
  · rw [h]
  · rfl

@[simp] theorem splice_count : (t.splice parent child sr).count = t.count := rfl

@[simp] theorem splice_root : (t.splice parent child sr).root = t.root := rfl

theorem mem_splice_children (hch : child ∈ (t.nodes parent).children) {x c : NodeId} :
    c ∈ ((t.splice parent child sr).nodes x).children ↔
      x = parent ∧ c = sr.right ∨ c ∈ (t.nodes x).children := by
  rw [splice_children]
  split_ifs with h
  · subst h
    refine (List.mem_insertIdx (List.idxOf_lt_length_of_mem hch)).trans ?_
    simp
  · simp [h]

/-- What a splice relies on: the sibling is on the level below, and no node's child yet. -/
structure Splicing (t : BPlusTree) (g : Shape) (ℓ : ℕ) (parent child : NodeId)
    (sr : SplitResult) : Prop where
  parent_mem : parent ∈ g.chain (ℓ + 1)
  child_mem : child ∈ (t.nodes parent).children
  right_mem : sr.right ∈ g.chain ℓ
  right_low : g.low sr.right = some sr.separator
  unspliced : ¬ Spliced t g ℓ sr.right

namespace Splicing

theorem leads (hs : Splicing t g ℓ parent child sr) (hb : BLink t g) {ℓ' : ℕ} {c a : NodeId}
    (hl : Leads t g ℓ' c a) : Leads (t.splice parent child sr) g ℓ' c a := by
  obtain ⟨ha, p, hp, hw⟩ := hl
  refine ⟨ha, p, hp, ?_⟩
  have hc : c ≠ sr.right := by
    rintro rfl
    have hmem := hw.stop_end
    obtain rfl := hb.level_unique _ _ _ ((hb.internal ℓ' p hp).2.1 _ hmem) hs.right_mem
    exact hs.unspliced ⟨p, hp, hmem⟩
  refine hw.congr (fun _ => True) (fun _ _ _ _ => trivial) (fun x _ => splice_rightLink x)
    (fun x _ => ?_) trivial
  rw [mem_splice_children hs.child_mem]
  simp [hc]

theorem entries (hs : Splicing t g ℓ parent child sr) (hb : BLink t g) {x : NodeId}
    (hx : x ∈ g.chain 0) : ((t.splice parent child sr).nodes x).entries = (t.nodes x).entries := by
  have hne : x ≠ parent := by
    rintro rfl
    cases hb.level_unique _ _ _ hx hs.parent_mem
  rw [Node.entries, splice_keys, if_neg hne, splice_values]
  rfl

theorem evolves (hs : Splicing t g ℓ parent child sr) (hb : BLink t g) :
    Evolves t g (t.splice parent child sr) g where
  chain _ := List.Sublist.refl _
  low _ _ _ := rfl
  count := le_rfl
  scan pre x post hd := by
    refine ⟨pre, post, hd, (entriesOf_congr fun y hy => hs.entries hb ?_).ge,
      (entriesOf_congr fun y hy => hs.entries hb ?_).ge⟩
    · rw [hd]; exact List.mem_append_left _ hy
    · rw [hd]; exact List.mem_append_right _ hy
  leads ℓ' c h hl := hs.leads hb hl

/-- A splice puts the sibling behind the child wherever that is a child. -/
theorem children (hs : Splicing t g ℓ parent child sr) (hb : BLink t g) {ℓ' : ℕ} {x : NodeId}
    (hx : x ∈ g.chain (ℓ' + 1)) : ((t.splice parent child sr).nodes x).children =
      ListEdit.behind child sr.right (t.nodes x).children := by
  rw [splice_children]
  split_ifs with h
  · subst h
    exact ListEdit.insertIdx_idxOf_succ hs.child_mem (hb.children_nodup hx)
  · refine (ListEdit.behind_of_notMem fun hm => h ?_).symm
    have hc := (hb.internal ℓ parent hs.parent_mem).2.1 child hs.child_mem
    obtain rfl := hb.level_unique _ _ _ hc ((hb.internal ℓ' x hx).2.1 child hm)
    exact hb.parent_unique hx hs.parent_mem hm hs.child_mem

theorem childrenOf (hs : Splicing t g ℓ parent child sr) (hb : BLink t g) (ℓ' : ℕ) :
    ((g.chain (ℓ' + 1)).flatMap fun x => ((t.splice parent child sr).nodes x).children) =
      ListEdit.behind child sr.right
        ((g.chain (ℓ' + 1)).flatMap fun x => (t.nodes x).children) := by
  rw [ListEdit.flatMap_behind_comm]
  exact List.flatMap_congr fun x hx => hs.children hb hx

theorem parents (hs : Splicing t g ℓ parent child sr) (hb : BLink t g) (ℓ' : ℕ) :
    ((g.chain (ℓ' + 1)).flatMap fun x =>
      ((t.splice parent child sr).nodes x).children).Nodup := by
  rw [hs.childrenOf hb]
  refine ListEdit.nodup_behind (hb.parents ℓ') fun hm => hs.unspliced ?_
  obtain ⟨p, hp, hm⟩ := List.mem_flatMap.1 hm
  obtain rfl := hb.level_unique _ _ _ ((hb.internal ℓ' p hp).2.1 _ hm) hs.right_mem
  exact ⟨p, hp, hm⟩

theorem bLink (hs : Splicing t g ℓ parent child sr) (hb : BLink t g) :
    BLink (t.splice parent child sr) g where
  above := hb.above
  root_head := hb.root_head
  nodup := hb.nodup
  level_unique := hb.level_unique
  lt_count := hb.lt_count
  link_lt i j hij := hb.link_lt i j (by simpa using hij)
  head_low := hb.head_low
  threaded ℓ' := (hb.threaded ℓ').mono (fun a _ b _ hab => by simpa [Joined] using hab)
    (fun a _ ha => by simpa [Unbounded] using ha)
  leaf x hx := by
    have hne : x ≠ parent := by
      rintro rfl
      cases hb.level_unique _ _ _ hx hs.parent_mem
    obtain ⟨h1, h2, h3, h4, h5, h6⟩ := hb.leaf x hx
    refine ⟨by simpa using h1, ?_, ?_, ?_, ?_, by simpa using h6⟩ <;>
      simpa [splice_keys, hne]
  internal ℓ' x hx := by
    obtain ⟨h1, h2, h3⟩ := hb.internal ℓ' x hx
    refine ⟨by simpa using h1, fun c hc => ?_, ?_⟩
    · rcases (mem_splice_children hs.child_mem).1 hc with ⟨rfl, rfl⟩ | hc
      · obtain rfl : ℓ' = ℓ := by simpa using hb.level_unique _ _ _ hx hs.parent_mem
        exact hs.right_mem
      · exact h2 c hc
    · rw [splice_children, splice_keys]
      split_ifs with h
      · subst h
        -- the separator goes in front of the very child it is the lower end of
        rw [List.map_insertIdx, h3, hs.right_low, List.insertIdx_succ_cons, List.map_insertIdx]
      · exact h3
  parents := hs.parents hb
  hints ℓ' x hx a ha := by
    rw [splice_parentHint] at ha
    split_ifs at ha with h
    · subst h
      obtain rfl : parent = a := by simpa using ha
      obtain rfl := hb.level_unique _ _ _ hx hs.right_mem
      exact ⟨hb.lt_count _ _ hs.parent_mem, parent, hs.parent_mem,
        .here ((mem_splice_children hs.child_mem).2 (.inl ⟨rfl, rfl⟩))⟩
    · exact hs.leads hb (hb.hints ℓ' x hx a ha)

end Splicing

end Splice

/-! ### Growing a new root -/

section GrowRoot

variable {t' : BPlusTree} {child : NodeId} {sr : SplitResult}

theorem growRoot_eq_none : t.growRoot child sr = none ↔ t.isFull = true := by
  simp only [BPlusTree.growRoot]
  split_ifs with h <;> simp [h]

theorem growRoot_cfg (h : t.growRoot child sr = some t') :
    t'.cfg = t.cfg ∧ t'.size = t.size := by
  simp only [BPlusTree.growRoot] at h
  split_ifs at h
  cases h
  exact ⟨rfl, rfl⟩

theorem growRoot_spec (h : t.growRoot child sr = some t') :
    t'.count = t.count + 1 ∧ t'.root = t.count ∧
      t'.nodes t.count =
        { isLeaf := false, keys := [sr.separator], children := [child, sr.right] } ∧
      ∀ x, x ≠ t.count → t'.nodes x = t.nodes x := by
  simp only [BPlusTree.growRoot] at h
  split_ifs at h
  cases h
  refine ⟨rfl, rfl, by simp, fun x hx => by simp [hx]⟩

theorem growRoot_leads (h : t.growRoot child sr = some t') (hb : BLink t g) {ℓ : ℕ} {c a : NodeId}
    (hl : Leads t g ℓ c a) : Leads t' (g.grow t.count) ℓ c a := by
  obtain ⟨hcount, -, -, hold⟩ := growRoot_spec h
  obtain ⟨ha, p, hp, hw⟩ := hl
  refine ⟨by rw [hcount]; exact ha.trans (Nat.lt_succ_self _), p, ?_, ?_⟩
  · have hne : ℓ + 1 ≠ g.top + 1 := by
      intro he
      rw [he, hb.above _ (Nat.lt_succ_self _)] at hp
      cases hp
    rwa [chain_grow, if_neg hne]
  · refine hw.congr (fun x => x ≠ t.count) ?_ (fun x hx => by rw [hold x hx])
      (fun x hx => by rw [hold x hx]) ha.ne
    rintro x y - hy rfl
    exact hb.next_fresh x hy

theorem growRoot_evolves (h : t.growRoot child sr = some t') (hb : BLink t g) :
    Evolves t g t' (g.grow t.count) := by
  obtain ⟨hcount, -, -, hold⟩ := growRoot_spec h
  have hne : ∀ x ∈ g.chain 0, x ≠ t.count := fun x hx => (hb.lt_count 0 x hx).ne
  have hent : ∀ xs, (∀ x ∈ xs, x ∈ g.chain 0) → entriesOf t' xs = entriesOf t xs :=
    fun xs hxs => entriesOf_congr fun x hx => by rw [hold x (hne x (hxs x hx))]
  constructor
  case chain =>
    intro ℓ
    rw [chain_grow]
    split_ifs with hℓ
    · rw [hb.above ℓ (by rw [hℓ]; exact Nat.lt_succ_self _)]
      exact List.nil_sublist _
    · exact List.Sublist.refl _
  case low =>
    intro ℓ x hx
    rw [low_grow, if_neg (hb.lt_count ℓ x hx).ne]
  case count => rw [hcount]; exact Nat.le_succ _
  case scan =>
    intro pre x post hd
    have hpre : ∀ y ∈ pre, y ∈ g.chain 0 := fun y hy => by rw [hd]; simp [hy]
    have hpost : ∀ y ∈ x :: post, y ∈ g.chain 0 := fun y hy => by
      rw [hd]; exact List.mem_append_right _ hy
    refine ⟨pre, post, ?_, (hent pre hpre).ge, (hent _ hpost).ge⟩
    rw [chain_grow, if_neg (Nat.succ_ne_zero _).symm, hd]
  case leads => exact fun ℓ c a hl => growRoot_leads h hb hl

/-- A new root over the old one and its right sibling keeps the invariant. -/
theorem growRoot_bLink (h : t.growRoot child sr = some t') (hb : BLink t g) (hc : t.root = child)
    (hr : sr.right ∈ g.chain g.top) (hlow : g.low sr.right = some sr.separator) :
    BLink t' (g.grow t.count) := by
  obtain ⟨hcount, hroot, hnew, hold⟩ := growRoot_spec h
  have hev := growRoot_evolves h hb
  -- a node of the new tree is an old one, or the new root alone on its level
  have hmem : ∀ {ℓ x}, x ∈ (g.grow t.count).chain ℓ →
      x = t.count ∧ ℓ = g.top + 1 ∨ x ∈ g.chain ℓ ∧ x ≠ t.count ∧ ℓ ≠ g.top + 1 := by
    intro ℓ x hx
    rw [chain_grow] at hx
    split_ifs at hx with hℓ
    · exact .inl ⟨List.mem_singleton.1 hx, hℓ⟩
    · exact .inr ⟨hx, (hb.lt_count ℓ x hx).ne, hℓ⟩
  have hlowold : ∀ {ℓ x}, x ∈ g.chain ℓ → (g.grow t.count).low x = g.low x :=
    fun {ℓ x} hx => hev.low ℓ x hx
  have hjoin : ∀ ℓ, Spine.Threaded (Joined t' (g.grow t.count)) (Unbounded t') (g.chain ℓ) := by
    intro ℓ
    refine (hb.threaded ℓ).mono ?_ ?_
    · rintro a ha b hb' ⟨h1, v, h2, h3⟩
      rw [Joined, hold a (hb.lt_count ℓ a ha).ne, hlowold hb']
      exact ⟨h1, v, h2, h3⟩
    · rintro a ha ⟨h1, h2⟩
      rw [Unbounded, hold a (hb.lt_count ℓ a ha).ne]
      exact ⟨h1, h2⟩
  have hne : child ≠ sr.right := by
    rintro rfl
    rw [← hc, hb.root_low] at hlow
    cases hlow
  constructor
  case above =>
    intro ℓ hℓ
    have h1 : ℓ ≠ g.top + 1 := hℓ.ne'
    rw [chain_grow, if_neg h1]
    exact hb.above ℓ ((Nat.lt_succ_self _).trans hℓ)
  case root_head =>
    show ((g.grow t.count).chain (g.top + 1)).head? = _
    rw [chain_grow, if_pos rfl, hroot]
    rfl
  case nodup =>
    intro ℓ
    rw [chain_grow]
    split_ifs
    · exact List.nodup_singleton _
    · exact hb.nodup ℓ
  case level_unique =>
    intro ℓ₁ ℓ₂ x h1 h2
    rcases hmem h1 with ⟨rfl, rfl⟩ | ⟨h1, hx, -⟩ <;> rcases hmem h2 with ⟨h3, h4⟩ | ⟨h2, hx', -⟩
    · exact h4.symm
    · exact absurd rfl hx'
    · exact absurd h3 hx
    · exact hb.level_unique _ _ _ h1 h2
  case lt_count =>
    intro ℓ x hx
    rw [hcount]
    rcases hmem hx with ⟨rfl, -⟩ | ⟨hx, -⟩
    · exact Nat.lt_succ_self _
    · exact (hb.lt_count ℓ x hx).trans (Nat.lt_succ_self _)
  case link_lt =>
    intro i j hij
    rw [hcount]
    by_cases hi : i = t.count
    · rw [hi, hnew] at hij
      cases hij
    · rw [hold i hi] at hij
      exact (hb.link_lt i j hij).trans (Nat.lt_succ_self _)
  case head_low =>
    intro ℓ x hx
    rcases hmem (List.mem_of_mem_head? hx) with ⟨rfl, -⟩ | ⟨hx', -, hℓ⟩
    · rw [low_grow, if_pos rfl]
    · rw [chain_grow, if_neg hℓ] at hx
      rw [hlowold hx']
      exact hb.head_low ℓ x hx
  case threaded =>
    intro ℓ
    rw [chain_grow]
    split_ifs
    · exact .singleton (by rw [Unbounded, hnew]; exact ⟨rfl, rfl⟩)
    · exact hjoin ℓ
  case leaf =>
    intro x hx
    rcases hmem hx with ⟨-, h0⟩ | ⟨hx, hne, -⟩
    · cases h0
    · rw [hlowold hx, hold x hne]
      exact hb.leaf x hx
  case internal =>
    intro ℓ x hx
    rcases hmem hx with ⟨rfl, hℓ⟩ | ⟨hx, hne, hℓ⟩
    · obtain rfl : ℓ = g.top := Nat.succ.inj hℓ
      have hroot' : child ∈ g.chain g.top := hc ▸ hb.root_mem
      have hin : ∀ c ∈ [child, sr.right], c ∈ g.chain g.top := by
        intro c hc
        rcases List.mem_pair.1 hc with rfl | rfl
        · exact hroot'
        · exact hr
      rw [hnew]
      refine ⟨rfl, fun c hc => (hev.chain _).subset (hin c hc), ?_⟩
      have hchild : g.low child = none := hc ▸ hb.root_low
      -- the separator of the new root is the lower bound of its second child
      simp only [List.map_cons, List.map_nil, hlowold hroot', hlowold hr, hlow, hchild]
      rw [low_grow, if_pos rfl]
    · obtain ⟨h1, h2, h3⟩ := hb.internal ℓ x hx
      rw [hold x hne]
      refine ⟨h1, fun c hc => (hev.chain _).subset (h2 c hc), ?_⟩
      rw [List.map_congr_left fun c hc => hlowold (h2 c hc), h3, hlowold hx]
  case parents =>
    intro ℓ
    rw [chain_grow]
    split_ifs with hℓ
    · rw [List.flatMap_singleton, hnew]
      exact List.nodup_cons.2 ⟨by simpa using hne, List.nodup_singleton _⟩
    · rw [List.flatMap_congr fun x hx => by rw [hold x (hb.lt_count _ x hx).ne]]
      exact hb.parents ℓ
  case hints =>
    intro ℓ x hx a ha
    rcases hmem hx with ⟨rfl, -⟩ | ⟨hx, hne, -⟩
    · rw [hnew] at ha
      cases ha
    · rw [hold x hne] at ha
      exact growRoot_leads h hb (hb.hints ℓ x hx a ha)

end GrowRoot

end BTree

end Vdb
