import Vdb.BTree.Rebalance

/-!
# Parents and room

Two things more hold of a tree that one caller works on.  The hint of every node is its parent,
and the root has none (`Homed`); interleaved inserts keep only that right links lead from the hint
to the parent.  And no node holds more keys than it may (`Within`), unless an insert has thrown.

Every change of the tree keeps the first: splits, splices and root growth on the way up, and the
borrows and merges of `rebalance` (`Climb.homed`).
-/

namespace Vdb

namespace BTree

/-- The hint of every child is its parent, but for the nodes `owed`, and the root has no hint. -/
structure Homed (t : BPlusTree) (g : Shape) (owed : List NodeId) : Prop where
  child : ∀ ℓ, ∀ p ∈ g.chain (ℓ + 1), ∀ c ∈ (t.nodes p).children, c ∉ owed →
    (t.nodes c).parentHint = some p
  root : (t.nodes t.root).parentHint = none

/-- No node is overfull. -/
def Within (t : BPlusTree) (g : Shape) : Prop :=
  ∀ ℓ, ∀ x ∈ g.chain ℓ, (t.nodes x).keys.length ≤ t.cfg.nodeCapacity

variable {t t' : BPlusTree} {g g' : Shape} {ℓ : ℕ} {owed : List NodeId} {c p a b : NodeId}
  {C D : List NodeId} {K K' : List Key} {s s' : Key}

/-- The root is the child of no node. -/
theorem BLink.root_not_child (hb : BLink t g) (hp : p ∈ g.chain (ℓ + 1)) :
    t.root ∉ (t.nodes p).children := by
  intro hm
  have htop := hb.level_unique _ _ _ ((hb.internal ℓ p hp).2.1 _ hm) hb.root_mem
  have := hb.level_le_top hp
  omega

/-- A node has one parent. -/
theorem BLink.parent_eq (hb : BLink t g) {ℓ ℓ' : ℕ} {p q : NodeId} (hp : p ∈ g.chain (ℓ + 1))
    (hq : q ∈ g.chain (ℓ' + 1)) (hcp : c ∈ (t.nodes p).children)
    (hcq : c ∈ (t.nodes q).children) : p = q := by
  obtain rfl := hb.level_unique _ _ _ ((hb.internal ℓ p hp).2.1 c hcp)
    ((hb.internal ℓ' q hq).2.1 c hcq)
  exact hb.parent_unique hp hq hcp hcq

/-- The hints of the children `moved` of `owner` have been set, and no other node has a new
child. -/
theorem Homed.rehomed (h : Homed t g owed) (hb : BLink t g) (hb' : BLink t' g')
    (moved : List NodeId) (owner : NodeId) (hroot : t'.root = t.root)
    (hmoved : ∀ x ∈ moved, (t'.nodes x).parentHint = some owner ∧
      ∃ ℓ, owner ∈ g'.chain (ℓ + 1) ∧ x ∈ (t'.nodes owner).children)
    (hstay : ∀ ℓ, ∀ x ∈ g.chain ℓ, x ∉ moved → (t'.nodes x).parentHint = (t.nodes x).parentHint)
    (hold : ∀ ℓ, ∀ q ∈ g'.chain (ℓ + 1), ∀ x ∈ (t'.nodes q).children, x ∉ moved →
      ∃ ℓ', q ∈ g.chain (ℓ' + 1) ∧ x ∈ (t.nodes q).children) : Homed t' g' owed where
  child ℓ q hq x hx ho := by
    by_cases hm : x ∈ moved
    · obtain ⟨hhint, ℓ', hown, hx'⟩ := hmoved x hm
      rw [hhint, hb'.parent_eq hown hq hx' hx]
    · obtain ⟨ℓ', hq', hx'⟩ := hold ℓ q hq x hx hm
      rw [hstay ℓ' x ((hb.internal ℓ' q hq').2.1 x hx') hm]
      exact h.child ℓ' q hq' x hx' ho
  root := by
    have hm : t'.root ∉ moved := by
      intro hm
      obtain ⟨-, ℓ, hown, hx⟩ := hmoved _ hm
      exact hb'.root_not_child hown hx
    rw [hroot] at hm ⊢
    rw [hstay g.top t.root hb.root_mem hm]
    exact h.root

/-! ### Inserting -/

section Insert

variable {cur child parent newRoot : NodeId} {sep key : Key} {id : InternalId} {sr : SplitResult}

theorem Homed.edit (h : Homed t g owed) (he : EditsLeaf t t' cur) : Homed t' g owed where
  child ℓ p hp c hc ho := by
    rw [(he.fields c).2.2.2.2]
    rw [(he.fields p).2.1] at hc
    exact h.child ℓ p hp c hc ho
  root := by
    rw [(he.fields _).2.2.2.2, he.root]
    exact h.root

theorem Homed.split (h : Homed t g owed) (hb : BLink t g)
    (hb' : BLink t' (g.split cur t.count sep)) (hs : SplitsAt t t' cur sep) (hc : cur ∈ g.chain ℓ)
    (hleaf : ℓ = 0 → (t'.nodes t.count).children = []) :
    Homed t' (g.split cur t.count sep) owed := by
  have hnew : t.count ∈ (g.split cur t.count sep).chain ℓ := mem_chain_split.2 (.inr ⟨rfl, hc⟩)
  refine h.rehomed hb hb' (t'.nodes t.count).children t.count hs.root
    (fun x hx => ?_) (fun ℓ' x hx hm => ?_) fun ℓ' q hq x hx hm => ?_
  · obtain ⟨m, rfl⟩ : ∃ m, ℓ = m + 1 := Nat.exists_eq_succ_of_ne_zero fun hℓ => by
      rw [hleaf hℓ] at hx
      cases hx
    have hx' : x ∈ (t.nodes cur).children := by
      rw [hs.children_cur]
      exact List.mem_append_right _ hx
    have hlt := hb.lt_count m x ((hb.internal m cur hc).2.1 x hx')
    exact ⟨by rw [hs.hint x hlt.ne, if_pos hx], m, hnew, hx⟩
  · rw [hs.hint x (hb.lt_count ℓ' x hx).ne, if_neg hm]
  · rcases mem_chain_split.1 hq with hq' | ⟨rfl, -⟩
    · refine ⟨ℓ', hq', ?_⟩
      by_cases hqc : q = cur
      · subst hqc
        rw [hs.children_cur]
        exact List.mem_append_left _ hx
      · rwa [hs.others q hqc (hb.lt_count _ q hq').ne] at hx
    · exact absurd hx hm

theorem Homed.splice (h : Homed t g owed) (hb : BLink t g)
    (hs : Splicing t g ℓ parent child sr) : Homed (t.splice parent child sr) g owed := by
  refine h.rehomed hb (hs.bLink hb) [sr.right] parent rfl
    (fun x hx => ?_) (fun ℓ' x _ hm => ?_) fun ℓ' q hq x hx hm => ⟨ℓ', hq, ?_⟩
  · rw [List.mem_singleton.1 hx]
    exact ⟨by rw [splice_parentHint, if_pos rfl], ℓ, hs.parent_mem,
      (mem_splice_children hs.child_mem).2 (.inl ⟨rfl, rfl⟩)⟩
  · rw [splice_parentHint, if_neg fun he => hm (List.mem_singleton.2 he)]
  · exact ((mem_splice_children hs.child_mem).1 hx).resolve_left fun he =>
      hm (List.mem_singleton.2 he.2)

theorem Homed.growRoot (h : Homed t g []) (hb : BLink t g) (hg : t.growRoot child sr = some t') :
    Homed t' (g.grow t.count) [child, sr.right] := by
  obtain ⟨-, hroot, hnew, hold⟩ := growRoot_spec hg
  constructor
  case child =>
    intro ℓ p hp c hc ho
    rw [chain_grow] at hp
    split_ifs at hp
    · rw [List.mem_singleton.1 hp, hnew] at hc
      exact absurd hc ho
    · rw [hold p (hb.lt_count _ p hp).ne] at hc
      rw [hold c (hb.lt_count ℓ c ((hb.internal ℓ p hp).2.1 c hc)).ne]
      exact h.child ℓ p hp c hc (by simp)
  case root => rw [hroot, hnew]

/-- A node is told its parent. -/
theorem Homed.setHints (h : Homed t g (c :: owed)) (hb : BLink t g) (hp : p ∈ g.chain (ℓ + 1))
    (hc : c ∈ (t.nodes p).children) : Homed (t.setHints [c] p) g owed where
  child ℓ' q hq x hx ho := by
    rw [setHints_children] at hx
    rw [setHints_parentHint]
    split_ifs with he
    · rw [List.mem_singleton.1 he] at hx
      rw [hb.parent_eq hp hq hc hx]
    · exact h.child ℓ' q hq x hx fun hm => (List.mem_cons.1 hm).elim
        (fun he' => he (List.mem_singleton.2 he')) ho
  root := by
    rw [setHints_parentHint, if_neg]
    · exact h.root
    · intro he
      rw [root_setHints] at he
      exact hb.root_not_child hp (List.mem_singleton.1 he ▸ hc)

end Insert

/-! ### Rebalancing -/

section Rebalance

variable {moved absorbed : List NodeId} {owner : NodeId}

theorem Homed.shifts (h : Homed t g owed) (hf : Formed t g) (hf' : Formed t' g')
    (hs : Shifts t t' p a b K s' K' moved owner) (w : Window t g ℓ p a b C D K s K')
    (hm : ℓ = 0 → moved = []) (hchain : g'.chain = g.chain) : Homed t' g' owed := by
  refine h.rehomed hf.blink hf'.blink moved owner hs.root
    (fun x hx => ?_) (fun ℓ' x _ hx => ?_) fun ℓ' q hq x hx hxm => ?_
  · obtain ⟨m, rfl⟩ : ∃ m, ℓ = m + 1 := Nat.exists_eq_succ_of_ne_zero fun hℓ => by
      rw [hm hℓ] at hx
      cases hx
    refine ⟨by rw [hs.hint, if_pos hx], m, ?_, hs.moved_mem x hx⟩
    rw [hchain]
    rcases hs.owner_mem with rfl | rfl
    · exact w.left_mem hf
    · exact w.right_mem hf
  · rw [hs.hint, if_neg hx]
  · rw [hchain] at hq
    refine ⟨ℓ', hq, ?_⟩
    by_cases hqa : q = a
    · subst hqa
      exact (hs.stay x hxm).1.1 hx
    by_cases hqb : q = b
    · subst hqb
      exact (hs.stay x hxm).2.1 hx
    · rwa [hs.children_ne hqa hqb] at hx

theorem Homed.joins (h : Homed t g owed) (hf : Formed t g) (hf' : Formed t' (g.erase b))
    (hj : Joins t t' p a b C D K K' absorbed) (w : Window t g ℓ p a b C D K s K')
    (hm : ℓ = 0 → absorbed = []) : Homed t' (g.erase b) owed := by
  refine h.rehomed hf.blink hf'.blink absorbed a hj.root
    (fun x hx => ?_) (fun ℓ' x _ hx => ?_) fun ℓ' q hq x hx hxm => ?_
  · obtain ⟨m, rfl⟩ : ∃ m, ℓ = m + 1 := Nat.exists_eq_succ_of_ne_zero fun hℓ => by
      rw [hm hℓ] at hx
      cases hx
    refine ⟨by rw [hj.hint, if_pos hx], m, hf.mem_chain_erase.2 ⟨w.left_mem hf, w.ne hf⟩, ?_⟩
    rw [hj.left.2.2.2]
    exact List.mem_append_right _ hx
  · rw [hj.hint, if_neg hx]
  · refine ⟨ℓ', (hf.mem_chain_erase.1 hq).1, ?_⟩
    by_cases hqa : q = a
    · rw [hqa, hj.left.2.2.2] at hx
      rw [hqa]
      exact (List.mem_append.1 hx).resolve_right hxm
    by_cases hqp : q = p
    · rw [hqp, hj.parent] at hx
      rw [hqp, w.children]
      simp only [List.mem_append, List.mem_cons] at hx ⊢
      tauto
    · rwa [hj.children_other hqa hqp] at hx

/-- The only child of an empty root loses its hint with its parent. -/
theorem Homed.collapseRoot (h : Homed t g owed) (hf : Formed t g)
    (hroot : (t.nodes t.root).isLeaf = false) (hkeys : (t.nodes t.root).keys = []) :
    Homed (t.collapseRoot t.root) g.shrink owed := by
  obtain ⟨m, c, htop, hc, -⟩ := hf.only_child hroot hkeys
  have hnode : ∀ x, (t.collapseRoot t.root).nodes x = if x = c then { t.nodes c with
      highKey := none, rightLink := none, parentHint := none } else t.nodes x := by
    intro x
    simp only [BPlusTree.collapseRoot, hc, List.headD_cons, nodes_setNode]
  have hchildren : ∀ x, ((t.collapseRoot t.root).nodes x).children = (t.nodes x).children := by
    intro x
    rw [hnode]
    split_ifs with he
    · rw [he]
    · rfl
  constructor
  case child =>
    intro ℓ p hp x hx ho
    obtain ⟨hℓ, hp⟩ := mem_chain_shrink.1 hp
    rw [hchildren] at hx
    rw [hnode, if_neg]
    · exact h.child ℓ p hp x hx ho
    · -- the parent of `c` is the root, and that is gone
      rintro rfl
      have hmem := htop ▸ hf.blink.root_mem
      have hpar := hf.blink.parent_eq hp hmem hx (by rw [hc]; exact List.mem_singleton_self x)
      exact hℓ (hf.blink.level_unique _ _ _ hp (hpar ▸ hf.blink.root_mem))
  case root =>
    have hroot' : (t.collapseRoot t.root).root = c := by
      simp only [BPlusTree.collapseRoot, hc, List.headD_cons]
    rw [hroot', hnode, if_pos rfl]

theorem Within.lends {x y : NodeId} (h : Within t g) (hl : Lends t t' x y) (hcfg : t'.cfg = t.cfg)
    (hchain : g'.chain = g.chain) (hx : (t.nodes x).keys.length < t.cfg.nodeCapacity) :
    Within t' g' := by
  intro ℓ z hz
  rw [hchain] at hz
  have hle := h ℓ z hz
  rw [hcfg]
  by_cases hzx : z = x
  · rw [hzx, hl.taker]
    exact hx
  by_cases hzy : z = y
  · rw [hzy] at hle ⊢
    exact (Nat.le_succ _).trans (hl.lender.le.trans hle)
  · rwa [hl.others z hzx hzy]

theorem Within.merged (h : Within t g) (hm : Merged t t' ℓ p a b) (hf : Formed t g)
    (hcfg : t'.cfg = t.cfg) (ha : (t'.nodes a).keys.length ≤ t.cfg.nodeCapacity) :
    Within t' (g.erase b) := by
  intro ℓ' z hz
  have hle := h ℓ' z (hf.mem_chain_erase.1 hz).1
  rw [hcfg]
  by_cases hza : z = a
  · rwa [hza]
  by_cases hzp : z = p
  · rw [hzp] at hle ⊢
    exact (Nat.le_succ _).trans (hm.parent.le.trans hle)
  · rwa [hm.keys z hza hzp]

/-- **Every round of `rebalance`** keeps the hints right and the nodes within their capacity. -/
theorem Climb.keeps {path : List NodeId} : ∀ {t : BPlusTree} {g : Shape} {ℓ : ℕ} {x : NodeId},
    Climb t g ℓ x path → Homed t g [] → Within t g → ∃ g', Formed (t.rebalance path x) g' ∧
      Homed (t.rebalance path x) g' [] ∧ Within (t.rebalance path x) g' := by
  induction path with
  | nil =>
    intro t g ℓ x hc hh hw
    have hf := hc.formed
    cases hc.path
    rw [BPlusTree.rebalance]
    split_ifs with hempty
    · obtain ⟨hleaf, hkeys⟩ : (t.nodes t.root).isLeaf = false ∧ (t.nodes t.root).keys = [] := by
        simpa using hempty
      obtain ⟨hf', hsame, hk⟩ := hf.collapseRoot_spec hleaf hkeys
      refine ⟨g.shrink, hf', hh.collapseRoot hf hleaf hkeys, fun ℓ z hz => ?_⟩
      rw [hk, hsame.cfg]
      exact hw ℓ z (mem_chain_shrink.1 hz).2
    · exact ⟨g, hf, hh, hw⟩
  | cons p path ih =>
    intro t g ℓ x hc hh hw
    have hf := hc.formed
    have hhalf := hc.half_pos
    have hcap : t.cfg.nodeCapacity / 2 ≤ t.cfg.nodeCapacity := Nat.div_le_self _ _
    generalize ht' : t.rebalance (p :: path) x = t'
    generalize hls : t.rebalanceLookups (p :: path) x = ls
    have hround : Round t g ℓ p x path t' ls := ht' ▸ hls ▸ hc.round
    cases hround with
    | enough => exact ⟨g, hf, hh, hw⟩
    | right hx w hy =>
      obtain ⟨k, moved, g', hs, hm, hf', hchain, hsame, hl⟩ :=
        hf.borrowFromRight_shifts w (by omega)
      exact ⟨g', hf', hh.shifts hf hf' hs w hm hchain,
        hw.lends hl hsame.cfg hchain (hx.trans_le hcap)⟩
    | left hx w hy =>
      obtain ⟨k, moved, g', hs, hm, hf', hchain, hsame, hl⟩ :=
        hf.borrowFromLeft_shifts w (by omega)
      exact ⟨g', hf', hh.shifts hf hf' hs w hm hchain,
        hw.lends hl hsame.cfg hchain (hx.trans_le hcap)⟩
    | @merge a b C D K K' s hx w hab =>
      obtain ⟨absorbed, hj, habs, hle, hf', hsame, -, hm⟩ := hf.mergeWithRight_joins w
      have hfit : (t.nodes a).keys.length + (t.nodes b).keys.length + 1 ≤ t.cfg.nodeCapacity := by
        rcases hab with ⟨rfl, hb⟩ | ⟨rfl, ha⟩ <;> omega
      exact ih (hc.merge w (hab.imp And.left And.left)) (hh.joins hf hf' hj w habs)
        (hw.merged hm hf hsame.cfg (hle.trans hfit))

/-- Every `child_position_` of `rebalance` finds its child. -/
theorem Climb.lookups {path : List NodeId} : ∀ {t : BPlusTree} {g : Shape} {ℓ : ℕ} {x : NodeId},
    Climb t g ℓ x path → ∀ q ∈ t.rebalanceLookups path x, q.2 ∈ q.1.children := by
  induction path with
  | nil =>
    intro t g ℓ x _ q hq
    cases hq
  | cons p path ih =>
    intro t g ℓ x hc
    have hmem := hc.parent.2
    generalize ht' : t.rebalance (p :: path) x = t'
    generalize hls : t.rebalanceLookups (p :: path) x = ls
    have hround : Round t g ℓ p x path t' ls := ht' ▸ hls ▸ hc.round
    cases hround with
    | enough => simp
    | right => simpa using hmem
    | left => simpa using hmem
    | merge hx w hab =>
      have hrest := ih (hc.merge w (hab.imp And.left And.left))
      exact List.forall_mem_cons.2 ⟨hmem, hrest⟩

end Rebalance

/-! ### Removing -/

section Remove

variable {x : NodeId} {path : List NodeId}

theorem Homed.eraseEntry {cur : NodeId} {pos : ℕ} (h : Homed t g []) :
    Homed (t.eraseEntry cur pos) g [] :=
  h.edit (eraseEntry_edits t cur pos)

theorem Within.eraseEntry (h : Within t g) (cur : NodeId) (pos : ℕ) :
    Within (t.eraseEntry cur pos) g := by
  intro ℓ y hy
  refine le_trans ?_ (h ℓ y hy)
  by_cases hc : y = cur
  · rw [hc, eraseEntry_cur]
    exact ((t.nodes cur).keys.eraseIdx_sublist pos).length_le
  · rw [(eraseEntry_edits t cur pos).others y hc]

/-- `remove` keeps the hints right and the nodes within their capacity. -/
theorem WellFormed.remove_keeps (h : WellFormed t g) (hcap : 2 ≤ t.cfg.nodeCapacity)
    (hh : Homed t g []) (hw : Within t g) (key : Key) (id : InternalId) :
    ∃ t' found g', (∀ fuel, t.count < fuel → t.remove fuel key id = some (t', found)) ∧
      Formed t' g' ∧ Homed t' g' [] ∧ Within t' g' := by
  rcases h.remove_cases hcap key id with ⟨leaf, path, pos, hp, -, hrem⟩ | ⟨-, hrem⟩
  · obtain ⟨g', hf, hh', hw'⟩ := (h.eraseEntry hcap hp pos).keeps hh.eraseEntry
      (hw.eraseEntry leaf pos)
    exact ⟨_, true, g', hrem, hf, hh', hw'⟩
  · exact ⟨t, false, g, hrem, h.toFormed, hh, hw⟩

/-- Every `child_position_` of `advance_to_next_leaf_` finds its child. -/
theorem Path.advanceLookups (hp : Path t g ℓ x path) :
    ∀ q ∈ t.advanceLookups path x, q.2 ∈ q.1.children := by
  induction hp with
  | root =>
    intro q hq
    cases hq
  | @child ℓ p c path hp hc ih =>
    rw [BPlusTree.advanceLookups]
    refine List.forall_mem_cons.2 ⟨hc, ?_⟩
    split_ifs
    · intro q hq
      cases hq
    · exact ih

theorem WellFormed.removeWalkLookups (h : WellFormed t g) (hcap : 2 ≤ t.cfg.nodeCapacity)
    (key : Key) (id : InternalId) {fuel : ℕ} (hfuel : g.top < fuel) (rounds : ℕ) :
    ∀ {cur : NodeId} {path : List NodeId}, Path t g 0 cur path →
      ∀ q ∈ t.removeWalkLookups key id fuel rounds cur path, q.2 ∈ q.1.children := by
  induction rounds with
  | zero =>
    intro cur path _ q hq
    cases hq
  | succ rounds ih =>
    intro cur path hp
    rw [BPlusTree.removeWalkLookups]
    cases BPlusTree.entryPlace (t.nodes cur) key id with
    | some pos => exact (h.eraseEntry hcap hp pos).lookups
    | none =>
      dsimp only
      split_ifs
      · intro q hq
        cases hq
      · refine List.forall_mem_append.2 ⟨hp.advanceLookups, ?_⟩
        obtain ⟨A, B, hd⟩ := List.append_of_mem (hp.mem h.blink)
        rcases h.advance_spec hp hd with ⟨-, hadv⟩ | ⟨next, _, path', -, hp', hadv⟩
        · rw [hadv]
          intro q hq
          cases hq
        · rw [hadv fuel hfuel]
          dsimp only
          split_ifs
          · intro q hq
            cases hq
          · exact ih hp'

/-- **Every `child_position_` of `remove`** finds its child. -/
theorem WellFormed.removeLookups (h : WellFormed t g) (hcap : 2 ≤ t.cfg.nodeCapacity)
    (key : Key) (id : InternalId) {fuel : ℕ} (hfuel : t.count < fuel) :
    ∀ q ∈ t.removeLookups fuel key id, q.2 ∈ q.1.children := by
  have htop := h.blink.top_lt_count.trans hfuel
  obtain ⟨leaf, path, hp, -, hfind⟩ :=
    h.findLeaf_spec g.top t.root [] .root (h.holds_root key)
  rw [BPlusTree.removeLookups, hfind fuel htop]
  exact h.removeWalkLookups hcap key id htop fuel hp

end Remove

/-! ### Shapes of one tree -/

/-- What is internal in one shape of a tree is internal in every other. -/
theorem Formed.mem_of_formed (h : Formed t g) (h' : Formed t g') (hp : p ∈ g'.chain ℓ) :
    ∃ ℓ', p ∈ g.chain ℓ' := by
  have hle := h'.blink.level_le_top hp
  have hd : p ∈ t.depth (g'.top - ℓ) := by
    rw [h'.depth_eq _ (Nat.sub_le _ _), Nat.sub_sub_self hle]
    exact hp
  rcases Nat.lt_or_ge g.top (g'.top - ℓ) with hlt | hge
  · rw [h.depth_eq_nil _ hlt] at hd
    cases hd
  · rw [h.depth_eq _ hge] at hd
    exact ⟨_, hd⟩

theorem Homed.of_formed (hh : Homed t g []) (h : Formed t g) (h' : Formed t g') :
    Homed t g' [] where
  child ℓ p hp c hc ho := by
    obtain ⟨ℓ', hp'⟩ := h.mem_of_formed h' hp
    cases ℓ' with
    | zero =>
      have hleaf := (h.blink.leaf p hp').1
      rw [(h'.blink.internal ℓ p hp).1] at hleaf
      cases hleaf
    | succ m => exact hh.child m p hp' c hc ho
  root := hh.root

theorem Within.of_formed (hw : Within t g) (h : Formed t g) (h' : Formed t g') : Within t g' := by
  intro ℓ x hx
  obtain ⟨ℓ', hx'⟩ := h.mem_of_formed h' hx
  exact hw ℓ' x hx'

end BTree

end Vdb
