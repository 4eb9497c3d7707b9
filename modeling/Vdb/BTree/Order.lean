import Vdb.BTree.Section

/-!
# Siblings in the order of their right links

The B-link invariant leaves two things open that a sequential tree needs: that the children of a
level, read left to right, are the nodes of the level below, and that nodes are at least half
full.  `Tidy t g pend owed` says so of a tree in which the nodes `pend` still wait to be linked
from above and the nodes `owed` to be told their parent.

A section keeps the tree tidy if the splice it may make is in order (`InOrder`): no node between
`promoted_child` and `right` has been linked from above before.  Two splits of one node that reach
the parent in the other order leave their new nodes swapped for good.
-/

namespace Vdb

namespace BTree

/-- The children of the nodes of level `ℓ + 1`, left to right. -/
def childrenOf (t : BPlusTree) (g : Shape) (ℓ : ℕ) : List NodeId :=
  (g.chain (ℓ + 1)).flatMap fun x => (t.nodes x).children

/-- A tree that is a B+-tree but for the nodes `pend`, which have no parent yet, and the nodes
`owed`, which may not know it yet. -/
structure Tidy (t : BPlusTree) (g : Shape) (pend owed : List NodeId) : Prop where
  below : ∀ ℓ < g.top, childrenOf t g ℓ = (g.chain ℓ).filter (· ∉ pend)
  root_alone : (g.chain g.top).filter (· ∉ pend) = [t.root]
  hinted : ∀ ℓ < g.top, ∀ x ∈ g.chain ℓ, x ∉ pend → x ∉ owed → (t.nodes x).parentHint ≠ none
  half_full : ∀ ℓ, ∀ x ∈ g.chain ℓ,
    t.cfg.nodeCapacity / 2 ≤ (t.nodes x).keys.length ∨ g.chain ℓ = [x]
  nonempty : ∀ ℓ, ∀ x ∈ g.chain (ℓ + 1), 0 < (t.nodes x).keys.length

/-- The nodes strictly between `x` and `right`, following right links. -/
def BPlusTree.between (t : BPlusTree) (right : NodeId) : ℕ → NodeId → List NodeId
  | 0, _ => []
  | fuel + 1, x =>
    match (t.nodes x).rightLink with
    | none => []
    | some y => if y = right then [] else y :: between t right fuel y

/-- `x` is the child of some node. -/
def BPlusTree.IsChild (t : BPlusTree) (x : NodeId) : Prop :=
  ∃ p < t.count, x ∈ (t.nodes p).children

instance (t : BPlusTree) (x : NodeId) : Decidable (t.IsChild x) :=
  inferInstanceAs (Decidable (∃ p < t.count, x ∈ (t.nodes p).children))

/-- The section that comes next links its pending node from above, if at all, where its level has
it: a splice finds no node between `child` and `right` linked already, and a new root still fits
into the arena. -/
def BPlusTree.InOrder (t : BPlusTree) : Pc → Prop
  | .relocate cur child sr => child ∈ (t.nodes cur).children →
      ∀ x ∈ t.between sr.right t.count child, ¬ t.IsChild x
  | .growRoot child _ => t.root = child → t.isFull = false
  | _ => True

instance (t : BPlusTree) (pc : Pc) : Decidable (t.InOrder pc) := by
  unfold BPlusTree.InOrder
  cases pc <;> infer_instance

/-- The nodes a call still has to tell their parent. -/
def Pc.owed : Pc → List NodeId
  | .hintChild child sr _ => [child, sr.right]
  | .hintRight right _ => [right]
  | _ => []

variable {t t' : BPlusTree} {g : Shape} {pend owed : List NodeId}

theorem mem_childrenOf {ℓ : ℕ} {c : NodeId} : c ∈ childrenOf t g ℓ ↔ Spliced t g ℓ c :=
  List.mem_flatMap

/-- Between two nodes of a level lie the nodes the level has between them. -/
theorem BLink.between_eq (hb : BLink t g) {ℓ : ℕ} {right : NodeId} {B : List NodeId} :
    ∀ (M : List NodeId) (A : List NodeId) (x : NodeId) (fuel : ℕ),
      g.chain ℓ = A ++ x :: (M ++ right :: B) → M.length < fuel →
      t.between right fuel x = M := by
  intro M
  induction M with
  | nil =>
    intro A x fuel hd hfuel
    obtain ⟨fuel, rfl⟩ := Nat.exists_eq_succ_of_ne_zero (Nat.ne_of_gt hfuel)
    rcases hb.next hd with ⟨h, -⟩ | ⟨y, post, h, hlink, -⟩
    · cases h
    · cases h
      rw [BPlusTree.between, hlink]
      exact if_pos rfl
  | cons y M ih =>
    intro A x fuel hd hfuel
    obtain ⟨fuel, rfl⟩ := Nat.exists_eq_succ_of_ne_zero (Nat.ne_zero_of_lt hfuel)
    have hne : y ≠ right := by
      rintro rfl
      have hn := hb.nodup ℓ
      rw [hd] at hn
      have := (List.nodup_cons.1 (List.nodup_append.1 hn).2.1).2
      exact (List.nodup_cons.1 this).1 (by simp)
    rcases hb.next hd with ⟨h, -⟩ | ⟨z, post, h, hlink, -⟩
    · cases h
    · cases h
      rw [BPlusTree.between, hlink]
      dsimp only
      rw [if_neg hne, ih (A ++ [x]) y fuel (by rw [hd]; simp) (Nat.lt_of_succ_lt_succ hfuel)]

theorem BLink.ne_of_between (hb : BLink t g) {ℓ : ℕ} {a b x : NodeId} {A M B : List NodeId}
    (hd : g.chain ℓ = A ++ a :: (M ++ b :: B)) (hx : x ∈ M) : x ≠ b := by
  rintro rfl
  have hn := hb.nodup ℓ
  rw [hd] at hn
  have := (List.nodup_cons.1 (List.nodup_append.1 hn).2.1).2
  exact (List.nodup_append.1 this).2.2 x hx x List.mem_cons_self rfl

theorem BLink.length_chain_le (hb : BLink t g) (ℓ : ℕ) : (g.chain ℓ).length ≤ t.count := by
  have hsub : g.chain ℓ ⊆ List.range t.count := fun x hx => List.mem_range.2 (hb.lt_count ℓ x hx)
  simpa using ((hb.nodup ℓ).subperm hsub).length_le

namespace Tidy

/-! ### The changes of the tree -/

theorem setHints (h : Tidy t g pend owed) {cs owed' : List NodeId} (a : NodeId)
    (ho : ∀ x ∈ owed, x ∈ cs ∨ x ∈ owed') : Tidy (t.setHints cs a) g pend owed' where
  below ℓ hℓ := by simpa [childrenOf] using h.below ℓ hℓ
  root_alone := h.root_alone
  hinted ℓ hℓ x hx hp hx' := by
    rw [setHints_parentHint]
    split_ifs with hc
    · exact Option.some_ne_none a
    · refine h.hinted ℓ hℓ x hx hp fun hm => ?_
      rcases ho x hm with hm | hm
      · exact hc hm
      · exact hx' hm
  half_full ℓ x hx := by simpa using h.half_full ℓ x hx
  nonempty ℓ x hx := by simpa using h.nonempty ℓ x hx

theorem insertEntry (h : Tidy t g pend owed) (cur : NodeId) (key : Key) (id : InternalId) :
    Tidy (t.insertEntry cur key id) g pend owed := by
  have hedit := insertEntry_edits t cur key id
  have hlen : ∀ x, (t.nodes x).keys.length ≤
      ((t.insertEntry cur key id).nodes x).keys.length := by
    intro x
    by_cases hx : x = cur
    · subst hx
      rw [insertEntry_cur]
      simp only [List.length_insertIdx]
      split_ifs <;> simp
    · rw [insertEntry_nodes_ne hx]
  constructor
  case below => simpa only [childrenOf, (hedit.fields _).2.1] using h.below
  case root_alone => exact h.root_alone
  case hinted => simpa only [(hedit.fields _).2.2.2.2] using h.hinted
  case half_full => exact fun ℓ x hx => (h.half_full ℓ x hx).imp_left fun hl => hl.trans (hlen x)
  case nonempty => exact fun ℓ x hx => (h.nonempty ℓ x hx).trans_le (hlen x)

theorem split (h : Tidy t g pend owed) {cur : NodeId} {sep : Key} {ℓ : ℕ}
    (hs : SplitsAt t t' cur sep) (hb : BLink t g) (hc : cur ∈ g.chain ℓ)
    (hcfg : t'.cfg = t.cfg)
    (hcur : t.cfg.nodeCapacity / 2 ≤ (t'.nodes cur).keys.length)
    (hnew : t.cfg.nodeCapacity / 2 ≤ (t'.nodes t.count).keys.length)
    (hpos : ∀ ℓ', ℓ = ℓ' + 1 →
      0 < (t'.nodes cur).keys.length ∧ 0 < (t'.nodes t.count).keys.length) :
    Tidy t' (g.split cur t.count sep) (t.count :: pend) owed := by
  have hold : ∀ {ℓ' x}, x ∈ g.chain ℓ' → x ≠ cur → t'.nodes x =
      { t.nodes x with parentHint := (t'.nodes x).parentHint } :=
    fun hx hne => hs.others _ hne (hb.lt_count _ _ hx).ne
  have hfilter : ∀ ℓ', ((g.split cur t.count sep).chain ℓ').filter (· ∉ t.count :: pend) =
      (g.chain ℓ').filter (· ∉ pend) := by
    intro ℓ'
    refine ListEdit.filter_behind (by simp) fun x hx => ?_
    have : x ≠ t.count := (hb.lt_count ℓ' x hx).ne
    simp [this]
  constructor
  case below =>
    intro ℓ' hℓ'
    rw [hfilter, ← h.below ℓ' hℓ']
    exact hs.parents hb (ℓ' + 1)
  case root_alone =>
    rw [hs.root]
    exact (hfilter g.top).trans h.root_alone
  case hinted =>
    intro ℓ' hℓ' x hx hp ho
    rcases mem_chain_split.1 hx with hx' | ⟨rfl, -⟩
    · rw [hs.hint x (hb.lt_count ℓ' x hx').ne]
      split_ifs
      · exact Option.some_ne_none _
      · exact h.hinted ℓ' hℓ' x hx' (fun hm => hp (List.mem_cons_of_mem _ hm)) ho
    · exact absurd List.mem_cons_self hp
  case half_full =>
    intro ℓ' x hx
    rw [hcfg]
    rcases mem_chain_split.1 hx with hx' | ⟨rfl, -⟩
    · by_cases hxc : x = cur
      · subst hxc
        exact .inl hcur
      · rcases h.half_full ℓ' x hx' with hl | hl
        · rw [hold hx' hxc]
          exact .inl hl
        · -- `x` is alone on its level, so nothing there is split
          refine .inr ?_
          rw [chain_split, hl, ListEdit.behind_of_notMem]
          simpa using fun he => hxc he.symm
    · exact .inl hnew
  case nonempty =>
    intro ℓ' x hx
    rcases mem_chain_split.1 hx with hx' | ⟨rfl, hx'⟩
    · by_cases hxc : x = cur
      · subst hxc
        exact (hpos ℓ' (hb.level_unique _ _ _ hc hx')).1
      · rw [hold hx' hxc]
        exact h.nonempty ℓ' x hx'
    · exact (hpos ℓ' (hb.level_unique _ _ _ hc hx')).2

theorem splice {parent child : NodeId} {sr : SplitResult} {ℓ : ℕ}
    (h : Tidy t g (sr.right :: pend) owed) (hb : BLink t g)
    (hs : Splicing t g ℓ parent child sr) (hr : sr.right ∉ pend)
    (ha : [child, sr.right].Sublist (g.chain ℓ))
    (hin : ∀ x ∈ t.between sr.right t.count child, ¬ Spliced t g ℓ x) :
    Tidy (t.splice parent child sr) g pend owed := by
  have hℓ : ℓ < g.top := Nat.lt_of_succ_le (hb.level_le_top hs.parent_mem)
  have hchild : child ∈ (g.chain ℓ).filter (· ∉ sr.right :: pend) := by
    rw [← h.below ℓ hℓ]
    exact mem_childrenOf.2 ⟨parent, hs.parent_mem, hs.child_mem⟩
  obtain ⟨hcl, hcp⟩ := List.mem_filter.1 hchild
  have hfilter : (g.chain ℓ).filter (· ∉ pend) =
      ListEdit.behind child sr.right ((g.chain ℓ).filter (· ∉ sr.right :: pend)) := by
    refine ListEdit.filter_notMem_behind (hb.nodup ℓ) ha
      (fun hm => (of_decide_eq_true hcp) (List.mem_cons_of_mem _ hm)) hr fun A M B hd x hx => ?_
    have hlen := hb.length_chain_le ℓ
    rw [hd] at hlen
    have hM : t.between sr.right t.count child = M := hb.between_eq M A child t.count hd (by
      simp only [List.length_append, List.length_cons] at hlen
      omega)
    have hne := hb.ne_of_between hd hx
    by_contra hxp
    refine hin x (hM ▸ hx) (mem_childrenOf.1 ?_)
    rw [h.below ℓ hℓ]
    exact List.mem_filter.2 ⟨by rw [hd]; simp [hx], by simp [hne, hxp]⟩
  have hother : ∀ ℓ', ℓ' ≠ ℓ → (g.chain ℓ').filter (· ∉ pend) =
      (g.chain ℓ').filter (· ∉ sr.right :: pend) := by
    intro ℓ' hne
    refine List.filter_congr fun x hx => ?_
    have : x ≠ sr.right := by
      rintro rfl
      exact hne (hb.level_unique _ _ _ hx hs.right_mem)
    simp [this]
  have hlen : ∀ x, (t.nodes x).keys.length ≤
      ((t.splice parent child sr).nodes x).keys.length := by
    intro x
    rw [splice_keys]
    split_ifs with hx
    · subst hx
      rw [List.length_insertIdx]
      split_ifs <;> simp
    · exact le_rfl
  constructor
  case below =>
    intro ℓ' hℓ'
    refine (hs.childrenOf hb ℓ').trans ?_
    have hbelow := h.below ℓ' hℓ'
    unfold childrenOf at hbelow
    rw [hbelow]
    by_cases he : ℓ' = ℓ
    · subst he
      exact hfilter.symm
    · rw [hother ℓ' he, ListEdit.behind_of_notMem]
      exact fun hm => he (hb.level_unique _ _ _ (List.mem_filter.1 hm).1 hcl)
  case root_alone =>
    rw [hother g.top hℓ.ne', splice_root]
    exact h.root_alone
  case hinted =>
    intro ℓ' hℓ' x hx hp ho
    rw [splice_parentHint]
    split_ifs with hxr
    · exact Option.some_ne_none _
    · exact h.hinted ℓ' hℓ' x hx (by simp [hxr, hp]) ho
  case half_full => exact fun ℓ x hx => (h.half_full ℓ x hx).imp_left fun hl => hl.trans (hlen x)
  case nonempty => exact fun ℓ x hx => (h.nonempty ℓ x hx).trans_le (hlen x)

theorem growRoot {child : NodeId} {sr : SplitResult} (h : Tidy t g (sr.right :: pend) owed)
    (hb : BLink t g) (hg : t.growRoot child sr = some t') (hroot : t.root = child)
    (hr : sr.right ∉ pend) (hmem : sr.right ∈ g.chain g.top)
    (hfresh : t.count ∉ pend) (hcfg : t'.cfg = t.cfg) :
    Tidy t' (g.grow t.count) pend (child :: sr.right :: owed) := by
  obtain ⟨-, hroot', hnew, hold⟩ := growRoot_spec hg
  have hold' : ∀ {ℓ x}, x ∈ g.chain ℓ → t'.nodes x = t.nodes x :=
    fun hx => hold _ (hb.lt_count _ _ hx).ne
  have hchain : ∀ ℓ, ℓ ≤ g.top → (g.grow t.count).chain ℓ = g.chain ℓ := fun ℓ hℓ => by
    rw [chain_grow, if_neg (Nat.lt_succ_of_le hℓ).ne]
  have htop : (g.grow t.count).chain (g.top + 1) = [t.count] := by rw [chain_grow, if_pos rfl]
  -- the old root is not pending, since it is what its level has that is not
  have hrootp : t.root ∉ sr.right :: pend := by
    have : t.root ∈ (g.chain g.top).filter (· ∉ sr.right :: pend) := by
      rw [h.root_alone]
      exact List.mem_singleton_self _
    exact of_decide_eq_true (List.mem_filter.1 this).2
  have hother : ∀ ℓ, ℓ < g.top → (g.chain ℓ).filter (· ∉ pend) =
      (g.chain ℓ).filter (· ∉ sr.right :: pend) := by
    intro ℓ hℓ
    refine List.filter_congr fun x hx => ?_
    have : x ≠ sr.right := by
      rintro rfl
      exact hℓ.ne (hb.level_unique _ _ _ hx hmem)
    simp [this]
  constructor
  case below =>
    intro ℓ hℓ
    rcases Nat.lt_succ_iff_lt_or_eq.1 hℓ with hℓ | rfl
    · rw [hchain ℓ hℓ.le, hother ℓ hℓ, ← h.below ℓ hℓ, childrenOf, childrenOf, hchain (ℓ + 1) hℓ]
      exact List.flatMap_congr fun x hx => by rw [hold' hx]
    · -- on the old top level only the root and its new sibling are not pending
      rw [childrenOf, htop, List.flatMap_singleton, hnew, hchain g.top le_rfl]
      have hpair : [t.root, sr.right].Sublist (g.chain g.top) := by
        obtain ⟨rest, hrest⟩ : ∃ rest, g.chain g.top = t.root :: rest := by
          have := hb.root_head
          cases hd : g.chain g.top with
          | nil => rw [hd] at this; cases this
          | cons x rest => rw [hd] at this; cases this; exact ⟨rest, rfl⟩
        rw [hrest] at hmem ⊢
        have hin := (List.mem_cons.1 hmem).resolve_left fun he => hrootp (by simp [he])
        exact (List.singleton_sublist.2 hin).cons_cons _
      rw [ListEdit.filter_notMem_behind (hb.nodup g.top) hpair
        (fun hm => hrootp (List.mem_cons_of_mem _ hm)) hr, h.root_alone, ListEdit.behind_cons,
        if_pos rfl, hroot]
      · rfl
      · intro A M B hd x hx
        by_contra hxp
        have hxf : x ∈ (g.chain g.top).filter (· ∉ sr.right :: pend) :=
          List.mem_filter.2 ⟨by rw [hd]; simp [hx], by simp [hb.ne_of_between hd hx, hxp]⟩
        rw [h.root_alone, List.mem_singleton] at hxf
        subst hxf
        have hn := hb.nodup g.top
        rw [hd] at hn
        exact (List.nodup_cons.1 (List.nodup_append.1 hn).2.1).1 (by simp [hx])
  case root_alone =>
    show ((g.grow t.count).chain (g.top + 1)).filter (· ∉ pend) = _
    rw [htop, hroot']
    simp [hfresh]
  case hinted =>
    intro ℓ hℓ x hx hp ho
    rcases Nat.lt_succ_iff_lt_or_eq.1 hℓ with hℓ | rfl
    · rw [hchain ℓ hℓ.le] at hx
      rw [hold' hx]
      refine h.hinted ℓ hℓ x hx (fun hm => ?_) fun hm => ho (by simp [hm])
      rcases List.mem_cons.1 hm with rfl | hm
      · exact ho (by simp)
      · exact hp hm
    · rw [hchain g.top le_rfl] at hx
      exfalso
      by_cases hxr : x = sr.right
      · exact ho (by simp [hxr])
      · have : x ∈ (g.chain g.top).filter (· ∉ sr.right :: pend) := by
          refine List.mem_filter.2 ⟨hx, ?_⟩
          simp [hxr, hp]
        rw [h.root_alone, List.mem_singleton, hroot] at this
        exact ho (by simp [this])
  case half_full =>
    intro ℓ x hx
    rw [hcfg]
    by_cases hℓ : ℓ = g.top + 1
    · subst hℓ
      rw [htop] at hx ⊢
      exact .inr (by rw [List.mem_singleton.1 hx])
    · have hchain' : (g.grow t.count).chain ℓ = g.chain ℓ := by rw [chain_grow, if_neg hℓ]
      rw [hchain'] at hx ⊢
      rw [hold' hx]
      exact h.half_full ℓ x hx
  case nonempty =>
    intro ℓ x hx
    by_cases hℓ : ℓ = g.top
    · subst hℓ
      rw [htop] at hx
      rw [List.mem_singleton.1 hx, hnew]
      exact Nat.one_pos
    · have hchain' : (g.grow t.count).chain (ℓ + 1) = g.chain (ℓ + 1) := by
        rw [chain_grow, if_neg fun he => hℓ (Nat.succ.inj he)]
      rw [hchain'] at hx
      rw [hold' hx]
      exact h.nonempty ℓ x hx

/-- Only which nodes are pending or owed matters. -/
theorem congr (h : Tidy t g pend owed) {pend' owed' : List NodeId}
    (hp : ∀ x, x ∈ pend' ↔ x ∈ pend) (ho : ∀ x ∈ owed, x ∈ owed') : Tidy t g pend' owed' := by
  have hf : ∀ xs : List NodeId, xs.filter (· ∉ pend') = xs.filter (· ∉ pend) := fun xs =>
    List.filter_congr fun x _ => by simp [hp x]
  exact ⟨fun ℓ hℓ => (h.below ℓ hℓ).trans (hf _).symm, (hf _).trans h.root_alone,
    fun ℓ hℓ x hx h1 h2 => h.hinted ℓ hℓ x hx (fun hm => h1 ((hp x).2 hm)) fun hm => h2 (ho x hm),
    h.half_full, h.nonempty⟩

end Tidy

/-! ### The sections -/

section Sections

variable {before : Multiset Entry} {op : Op} {pc : Pc} {key : Key} {id : InternalId}
  {cur child parent : NodeId} {sr : SplitResult} {ℓ : ℕ}

theorem owed_afterSplit : (t.afterSplit child sr).owed = [] := by
  unfold BPlusTree.afterSplit
  cases (t.nodes child).parentHint <;> rfl

theorem insertSection_tidy (hb : BLink t g) (hc : cur ∈ g.chain 0)
    (hlow : ∀ v ∈ g.low cur, v < key) (hhigh : BPlusTree.exceeds (t.nodes cur) key = false)
    (ht : Tidy t g pend owed) :
    Tidy (t.insertSection cur key id).1 (g.next t (t.insertSection cur key id).2)
      ((t.insertSection cur key id).2.pendingRight.toList ++ pend)
      ((t.insertSection cur key id).2.owed ++ owed) := by
  have hb₁ := hb.insertEntry id hc hlow hhigh
  have ht₁ := ht.insertEntry cur key id
  unfold BPlusTree.insertSection
  dsimp only
  split_ifs with hfit
  · exact ht₁
  · cases hsplit : (t.insertEntry cur key id).splitLeaf cur with
    | none => exact ht₁
    | some res =>
      obtain ⟨t₂, sr⟩ := res
      dsimp only
      have hcount : cur ≠ (t.insertEntry cur key id).count := (hb.lt_count 0 cur hc).ne
      have hne : ((t.insertEntry cur key id).nodes cur).keys ≠ [] := by
        rintro h
        rw [h] at hfit
        exact hfit (Nat.zero_le _)
      obtain ⟨hs, hr, A, B, hkeys, hlen, hl, hnew⟩ := splitLeaf_spec hsplit hcount hne
      have hnext : g.next t (t₂.afterSplit cur sr) = g.split cur t.count sr.separator :=
        next_afterSplit hr
      rw [hnext, pendingRight_afterSplit, owed_afterSplit, hr]
      have hlen' := congrArg List.length hkeys
      rw [List.length_append, List.length_cons] at hlen'
      refine ht₁.split hs hb₁ hc (splitLeaf_cfg hsplit).1 ?_ ?_ (by rintro _ ⟨⟩)
      · rw [hl]
        simp only [List.length_append, List.length_singleton]
        exact (by omega : t.cfg.nodeCapacity / 2 ≤ A.length + 1)
      · rw [hnew]
        exact (by omega : t.cfg.nodeCapacity / 2 ≤ B.length)

theorem spliceSection_tidy (hb : BLink t g) (hcap : 2 ≤ t.cfg.nodeCapacity)
    (hp : Pending t g ℓ child sr) (hparent : parent ∈ g.chain (ℓ + 1))
    (hch : child ∈ (t.nodes parent).children) (hr : sr.right ∉ pend)
    (hin : ∀ x ∈ t.between sr.right t.count child, ¬ t.IsChild x)
    (ht : Tidy t g (sr.right :: pend) owed) :
    Tidy (t.spliceSection parent child sr).1 (g.next t (t.spliceSection parent child sr).2)
      ((t.spliceSection parent child sr).2.pendingRight.toList ++ pend)
      ((t.spliceSection parent child sr).2.owed ++ owed) := by
  have hs₁ : Splicing t g ℓ parent child sr :=
    ⟨hparent, hch, hp.right_mem, hp.right_low, hp.unspliced⟩
  have hb₁ := hs₁.bLink hb
  have ht₁ := ht.splice hb hs₁ hr hp.after fun x hx ⟨p, hp, hm⟩ =>
    hin x hx ⟨p, hb.lt_count _ p hp, hm⟩
  unfold BPlusTree.spliceSection
  dsimp only
  split_ifs with hfit
  · exact ht₁
  · cases hsplit : (t.splice parent child sr).splitInternal parent with
    | none => exact ht₁
    | some res =>
      obtain ⟨t₂, sr'⟩ := res
      dsimp only
      have hcount : parent ≠ (t.splice parent child sr).count := (hb.lt_count _ _ hparent).ne
      have hne : ((t.splice parent child sr).nodes parent).keys ≠ [] := by
        rintro h
        rw [h] at hfit
        exact hfit (Nat.zero_le _)
      have hfresh : (t.splice parent child sr).count ∉
          ((t.splice parent child sr).nodes parent).children :=
        fun hm => hb₁.nodes_fresh ((hb₁.internal ℓ parent hparent).2.1 _ hm)
      obtain ⟨hs, hr', A, B, hkeys, hlen, -, hl, -, -, hnew, -⟩ :=
        splitInternal_spec hsplit hcount hne hfresh
      have hnext : g.next t (t₂.afterSplit parent sr') = g.split parent t.count sr'.separator :=
        next_afterSplit hr'
      rw [hnext, pendingRight_afterSplit, owed_afterSplit, hr']
      have hlen' := congrArg List.length hkeys
      rw [List.length_append, List.length_cons] at hlen'
      rw [hlen'] at hlen hfit
      refine ht₁.split hs hb₁ hparent (splitInternal_cfg hsplit).1 ?_ ?_ ?_
      · rw [hl]
        exact (by omega : t.cfg.nodeCapacity / 2 ≤ A.length)
      · rw [hnew]
        exact (by omega : t.cfg.nodeCapacity / 2 ≤ B.length)
      · rintro ℓ' -
        rw [hl, hnew]
        constructor <;> omega

/-- At this place a call neither has a node to link nor a parent to announce. -/
def Pc.Reads (g : Shape) (t : BPlusTree) (pc : Pc) : Prop :=
  pc.pendingRight = none ∧ pc.owed = [] ∧ g.next t pc = g

/-- A query changes nothing. -/
theorem runSection_range_reads {lo hi : Key} (hc : CallOk t g before (.range lo hi) pc) :
    (t.runSection (.range lo hi) pc).1 = t ∧
      (t.runSection (.range lo hi) pc).2.Reads g t := by
  have hdesc : ∀ x out, (Pc.descend x out).Reads g t := fun _ _ => ⟨rfl, rfl, rfl⟩
  have hdone : ∀ out, (Pc.done out).Reads g t := fun _ => ⟨rfl, rfl, rfl⟩
  cases pc with
  | lockRoot =>
    refine ⟨rfl, ?_⟩
    rw [BPlusTree.runSection]
    split_ifs
    · exact hdone []
    · exact hdesc t.root []
  | descend cur out =>
    rw [BPlusTree.runSection]
    split_ifs
    · cases (t.nodes cur).rightLink with
      | none => exact ⟨rfl, rfl, rfl, rfl⟩
      | some right => exact ⟨rfl, hdesc right out⟩
    · refine ⟨rfl, ?_⟩
      unfold BPlusTree.scanSection
      dsimp only
      split_ifs
      · exact hdone _
      · cases (t.nodes cur).rightLink with
        | none => exact hdone _
        | some next => exact hdesc next _
    · exact ⟨rfl, hdesc _ out⟩
  | done out => exact ⟨rfl, hdone out⟩
  | _ => exact hc.elim

/-- **Every section** whose splice is in order keeps the tree tidy. -/
theorem runSection_tidy (hb : BLink t g) (hcap : 2 ≤ t.cfg.nodeCapacity)
    (hc : CallOk t g before op pc) (hin : t.InOrder pc)
    (hpend : ∀ r ∈ pend, r < t.count) (hr : ∀ r ∈ pc.pendingRight, r ∉ pend)
    (ht : Tidy t g (pc.pendingRight.toList ++ pend) (pc.owed ++ owed)) :
    Tidy (t.runSection op pc).1 (g.next t (t.runSection op pc).2)
      ((t.runSection op pc).2.pendingRight.toList ++ pend)
      ((t.runSection op pc).2.owed ++ owed) := by
  cases op with
  | insert key id =>
    cases pc with
    | lockRoot => exact ht
    | descend cur out =>
      have hcov : Covers g (Op.insert key id).target cur := hc
      by_cases hex : BPlusTree.exceeds (t.nodes cur) key = true
      · obtain ⟨right, hlink, -⟩ := hcov.right hb hex
        rw [runSection_right (.insert key id) hex hlink]
        exact ht
      · rw [Bool.not_eq_true] at hex
        cases hl : (t.nodes cur).isLeaf with
        | true =>
          obtain ⟨hmem, hlow⟩ := hcov.leaf hb hl
          rw [runSection_insert key id hex hl]
          exact insertSection_tidy hb hmem hlow hex ht
        | false =>
          rw [runSection_child (.insert key id) hex hl]
          exact ht
    | relocate cur child sr =>
      obtain ⟨ℓ, hp, hcur, p, hpar, hw⟩ := hc
      rw [BPlusTree.runSection]
      cases hw with
      | here hm =>
        rw [if_pos hm]
        exact spliceSection_tidy hb hcap hp hpar hm (hr _ rfl) (hin hm) ht
      | @step _ right _ hn hlink hw =>
        have hlink' : (t.nodes cur).rightLink = some right := hlink
        rw [if_neg hn, hlink']
        dsimp only
        rw [next_relocate hb hp]
        exact ht
    | growRoot child sr =>
      obtain ⟨ℓ, hp⟩ := hc
      rw [BPlusTree.runSection]
      by_cases hroot : t.root = child
      · rw [if_pos hroot]
        cases hgrow : t.growRoot child sr with
        | none =>
          have hfull := growRoot_eq_none.1 hgrow
          rw [hin hroot] at hfull
          cases hfull
        | some t' =>
          obtain rfl : ℓ = g.top := hb.level_unique _ _ _ hp.child_mem (hroot ▸ hb.root_mem)
          have hnext : g.next t (.hintChild child sr t.count) = g.grow t.count := if_pos rfl
          dsimp only
          rw [hnext]
          exact Tidy.growRoot ht hb hgrow hroot (hr _ rfl) hp.right_mem
            (fun hm => lt_irrefl _ (hpend _ hm)) (growRoot_cfg hgrow).1
      · rw [if_neg hroot]
        exact ht
    | freshHint child sr =>
      obtain ⟨ℓ, hp⟩ := hc
      rw [BPlusTree.runSection]
      cases hh : (t.nodes child).parentHint with
      | none =>
        dsimp only
        rw [next_growRoot hb hp]
        exact ht
      | some h =>
        dsimp only
        rw [next_relocate hb hp]
        exact ht
    | hintChild child sr newRoot =>
      refine ht.setHints newRoot fun x hx => ?_
      show x ∈ [child] ∨ x ∈ [sr.right] ++ owed
      simpa [Pc.owed] using hx
    | hintRight right newRoot =>
      refine ht.setHints newRoot fun x hx => ?_
      show x ∈ [right] ∨ x ∈ [] ++ owed
      simpa [Pc.owed] using hx
    | done out => exact ht
    | threw => exact ht
    | targetLost => exact hc.elim
    | badLink => exact hc.elim
  | range lo hi =>
    obtain ⟨h1, h2⟩ := runSection_range_reads (t := t) hc
    obtain ⟨h3, h4, h5⟩ := h2
    obtain ⟨h6, h7⟩ : pc.pendingRight = none ∧ pc.owed = [] := by
      cases pc <;> first | exact ⟨rfl, rfl⟩ | exact hc.elim
    rw [h1, h3, h4, h5]
    rwa [h6, h7] at ht

end Sections

end BTree

end Vdb
