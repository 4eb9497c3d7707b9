import Vdb.BTree.Primitives

/-!
# Splitting a node

Both splits shrink a node `cur` and give the rest of it to the fresh node `t.count`.  What they
have in common is `SplitsAt`, and it is enough for the links, the hints and the pairing of nodes
with their parents (`SplitsAt.bLink`, `SplitsAt.evolves`).  The two differ in what the halves must
satisfy, `SplitsAt.HalvesOk`.
-/

namespace Vdb

namespace BTree

variable {t : BPlusTree} {g : Shape}

/-- `t'` is `t` with the node `cur` split at `sep`. -/
structure SplitsAt (t t' : BPlusTree) (cur : NodeId) (sep : Key) : Prop where
  count : t'.count = t.count + 1
  root : t'.root = t.root
  link_cur : (t'.nodes cur).rightLink = some t.count
  high_cur : (t'.nodes cur).highKey = some sep
  link_new : (t'.nodes t.count).rightLink = (t.nodes cur).rightLink
  high_new : (t'.nodes t.count).highKey = (t.nodes cur).highKey
  children_cur : (t.nodes cur).children = (t'.nodes cur).children ++ (t'.nodes t.count).children
  hint_new : (t'.nodes t.count).parentHint = none
  hint : ∀ x, x ≠ t.count → (t'.nodes x).parentHint =
    if x ∈ (t'.nodes t.count).children then some t.count else (t.nodes x).parentHint
  others : ∀ x, x ≠ cur → x ≠ t.count →
    t'.nodes x = { t.nodes x with parentHint := (t'.nodes x).parentHint }

namespace SplitsAt

variable {t' : BPlusTree} {cur : NodeId} {sep : Key} {ℓ : ℕ}

theorem leads (hs : SplitsAt t t' cur sep) (hb : BLink t g) (hc : cur ∈ g.chain ℓ) {ℓ' : ℕ}
    {c a : NodeId} (hl : Leads t g ℓ' c a) :
    Leads t' (g.split cur t.count sep) ℓ' c a := by
  obtain ⟨ha, p, hp, hw⟩ := hl
  obtain ⟨p', hw', hp'⟩ : ∃ p', WalkTo t' c a p' ∧ (p' = p ∨ p' = t.count ∧ p = cur) :=
    hw.split hs.link_cur hs.link_new (by rw [hs.children_cur, List.mem_append])
      (fun x h1 h2 => by rw [hs.others x h1 h2]) (fun x h1 h2 => by rw [hs.others x h1 h2])
      hb.next_fresh (hb.lt_count ℓ cur hc).ne ha.ne
  refine ⟨by rw [hs.count]; exact ha.trans (Nat.lt_succ_self _), p', ?_, hw'⟩
  rw [mem_chain_split]
  rcases hp' with rfl | ⟨rfl, rfl⟩
  · exact .inl hp
  · exact .inr ⟨rfl, hp⟩

theorem threaded (hs : SplitsAt t t' cur sep) (hb : BLink t g) (hc : cur ∈ g.chain ℓ) (ℓ' : ℕ) :
    Spine.Threaded (Joined t' (g.split cur t.count sep)) (Unbounded t')
      ((g.split cur t.count sep).chain ℓ') := by
  have hlow : ∀ ℓ', ∀ y ∈ g.chain ℓ', (g.split cur t.count sep).low y = g.low y :=
    fun ℓ' y hy => by rw [low_split, if_neg (hb.lt_count ℓ' y hy).ne]
  have hjoin : ∀ ℓ', ∀ x ∈ g.chain ℓ', ∀ y ∈ g.chain ℓ', x ≠ cur → Joined t g x y →
      Joined t' (g.split cur t.count sep) x y := by
    rintro ℓ' x hx y hy hne ⟨h1, v, h2, h3⟩
    have hx' := hs.others x hne (hb.lt_count ℓ' x hx).ne
    refine ⟨by rw [hx']; exact h1, v, by rw [hlow ℓ' y hy, h2], by rw [hx']; exact h3⟩
  have hlast : ∀ ℓ', ∀ x ∈ g.chain ℓ', x ≠ cur → Unbounded t x → Unbounded t' x := by
    rintro ℓ' x hx hne ⟨h1, h2⟩
    have hx' := hs.others x hne (hb.lt_count ℓ' x hx).ne
    exact ⟨by rw [hx']; exact h1, by rw [hx']; exact h2⟩
  rw [chain_split]
  by_cases hm : cur ∈ g.chain ℓ'
  · obtain ⟨pre, post, hd⟩ := List.append_of_mem hm
    have hn := hb.nodup ℓ'
    have ht := hb.threaded ℓ'
    have hmem : ∀ x ∈ pre ++ cur :: post, x ∈ g.chain ℓ' := fun x hx => by rwa [hd]
    rw [hd] at hn ht ⊢
    obtain ⟨-, h2, h3⟩ := List.nodup_append.1 hn
    have hpre : ∀ x ∈ pre, x ≠ cur := fun x hx => h3 x hx cur List.mem_cons_self
    have hpost : ∀ x ∈ post, x ≠ cur := fun x hx he => (List.nodup_cons.1 h2).1 (he ▸ hx)
    rw [ListEdit.behind_cut hn]
    refine ht.insert ?_ ⟨hs.link_cur, sep, by rw [low_split, if_pos rfl], hs.high_cur⟩ ?_ ?_ ?_ ?_
    · intro x hx y hy
      exact hjoin ℓ' x (hmem x (List.mem_append_left _ hx)) y (hmem y (by
        rcases List.mem_append.1 hy with hy | hy
        · exact List.mem_append_left _ hy
        · exact List.mem_append_right _ (List.mem_singleton.1 hy ▸ List.mem_cons_self))) (hpre x hx)
    · rintro y hy ⟨h1, v, h2, h3⟩
      have hy' : y ∈ g.chain ℓ' := hmem y (by simp [List.mem_of_mem_head? hy])
      exact ⟨hs.link_new.trans h1, v, by rw [hlow ℓ' y hy', h2], hs.high_new.trans h3⟩
    · rintro - ⟨h1, h2⟩
      exact ⟨hs.link_new.trans h1, hs.high_new.trans h2⟩
    · exact fun x hx y hy => hjoin ℓ' x (hmem x (by simp [hx])) y (hmem y (by simp [hy]))
        (hpost x hx)
    · exact fun x hx => hlast ℓ' x (hmem x (by simp [hx])) (hpost x hx)
  · have hne : ∀ x ∈ g.chain ℓ', x ≠ cur := by
      rintro x hx rfl
      exact hm hx
    rw [ListEdit.behind_of_notMem hm]
    exact (hb.threaded ℓ').mono (fun x hx y hy => hjoin ℓ' x hx y hy (hne x hx))
      fun x hx => hlast ℓ' x hx (hne x hx)

theorem parents (hs : SplitsAt t t' cur sep) (hb : BLink t g) (ℓ' : ℕ) :
    ((g.split cur t.count sep).chain ℓ').flatMap (fun x => (t'.nodes x).children) =
      (g.chain ℓ').flatMap fun x => (t.nodes x).children := by
  have hne : ∀ x ∈ g.chain ℓ', x ≠ cur → (t'.nodes x).children = (t.nodes x).children :=
    fun x hx hne => by rw [hs.others x hne (hb.lt_count ℓ' x hx).ne]
  rw [chain_split]
  exact ListEdit.flatMap_behind hne fun _ => hs.children_cur

/-- What the halves of a node satisfy at level `ℓ`. -/
def HalvesOk (t t' : BPlusTree) (g : Shape) (cur : NodeId) (sep : Key) : ℕ → Prop
  | 0 => ((t'.nodes cur).isLeaf = true ∧ LeafOk (t'.nodes cur) (g.low cur)) ∧
      (t'.nodes t.count).isLeaf = true ∧ LeafOk (t'.nodes t.count) (some sep) ∧
      (t'.nodes t.count).children = []
  | _ + 1 => ((t'.nodes cur).isLeaf = false ∧
      (t'.nodes cur).children.map g.low = g.low cur :: (t'.nodes cur).keys.map some) ∧
      (t'.nodes t.count).isLeaf = false ∧
      (t'.nodes t.count).children.map g.low = some sep :: (t'.nodes t.count).keys.map some

theorem low_old (hb : BLink t g) {ℓ' : ℕ} {y : NodeId} (hy : y ∈ g.chain ℓ') :
    (g.split cur t.count sep).low y = g.low y := by
  rw [low_split, if_neg (hb.lt_count ℓ' y hy).ne]

theorem map_low_old (hb : BLink t g) {ℓ' : ℕ} {l : List NodeId} (hl : ∀ c ∈ l, c ∈ g.chain ℓ') :
    l.map (g.split cur t.count sep).low = l.map g.low :=
  List.map_congr_left fun c hc => low_old hb (hl c hc)

theorem leaf (hs : SplitsAt t t' cur sep) (hb : BLink t g) (hc : cur ∈ g.chain ℓ)
    (hok : HalvesOk t t' g cur sep ℓ) : ∀ x ∈ (g.split cur t.count sep).chain 0,
      (t'.nodes x).isLeaf = true ∧
      LeafOk (t'.nodes x) ((g.split cur t.count sep).low x) := by
  intro x hx
  rcases mem_chain_split.1 hx with hx' | ⟨rfl, hx'⟩
  · rw [low_old hb hx']
    by_cases h : x = cur
    · subst h
      obtain rfl : ℓ = 0 := hb.level_unique _ _ _ hc hx'
      exact hok.1
    · rw [hs.others x h (hb.lt_count 0 x hx').ne]
      obtain ⟨h1, h2, h3, h4, h5, h6⟩ := hb.leaf x hx'
      exact ⟨h1, h2, h3, h4, h5, h6⟩
  · obtain rfl : ℓ = 0 := hb.level_unique _ _ _ hc hx'
    rw [low_split, if_pos rfl]
    exact ⟨hok.2.1, hok.2.2.1⟩

theorem internal (hs : SplitsAt t t' cur sep) (hb : BLink t g) (hc : cur ∈ g.chain ℓ)
    (hok : HalvesOk t t' g cur sep ℓ) :
    ∀ ℓ', ∀ x ∈ (g.split cur t.count sep).chain (ℓ' + 1), (t'.nodes x).isLeaf = false ∧
      (∀ c ∈ (t'.nodes x).children, c ∈ (g.split cur t.count sep).chain ℓ') ∧
      (t'.nodes x).children.map (g.split cur t.count sep).low =
        (g.split cur t.count sep).low x :: (t'.nodes x).keys.map some := by
  intro ℓ' x hx
  -- the children of both halves were children of `cur`
  have hcut : ∀ c, cur ∈ g.chain (ℓ' + 1) →
      c ∈ (t'.nodes cur).children ∨ c ∈ (t'.nodes t.count).children → c ∈ g.chain ℓ' := by
    intro c hc' h
    refine (hb.internal ℓ' cur hc').2.1 c ?_
    rw [hs.children_cur, List.mem_append]
    exact h
  rcases mem_chain_split.1 hx with hx' | ⟨rfl, hx'⟩
  · rw [low_old hb hx']
    by_cases h : x = cur
    · subst h
      obtain rfl : ℓ = ℓ' + 1 := hb.level_unique _ _ _ hc hx'
      have hin : ∀ c ∈ (t'.nodes x).children, c ∈ g.chain ℓ' := fun c h => hcut c hx' (.inl h)
      refine ⟨hok.1.1, fun c h => mem_chain_split.2 (.inl (hin c h)), ?_⟩
      rw [map_low_old hb hin]
      exact hok.1.2
    · rw [hs.others x h (hb.lt_count _ x hx').ne]
      obtain ⟨h1, h2, h3⟩ := hb.internal ℓ' x hx'
      refine ⟨h1, fun c h => mem_chain_split.2 (.inl (h2 c h)), ?_⟩
      rw [map_low_old hb h2]
      exact h3
  · obtain rfl : ℓ = ℓ' + 1 := hb.level_unique _ _ _ hc hx'
    have hin : ∀ c ∈ (t'.nodes t.count).children, c ∈ g.chain ℓ' :=
      fun c h => hcut c hc (.inr h)
    refine ⟨hok.2.1, fun c h => mem_chain_split.2 (.inl (hin c h)), ?_⟩
    rw [low_split, if_pos rfl, map_low_old hb hin]
    exact hok.2.2

theorem hints (hs : SplitsAt t t' cur sep) (hb : BLink t g) (hc : cur ∈ g.chain ℓ)
    (hok : HalvesOk t t' g cur sep ℓ) : ∀ ℓ', ∀ x ∈ (g.split cur t.count sep).chain ℓ',
      ∀ h ∈ (t'.nodes x).parentHint, Leads t' (g.split cur t.count sep) ℓ' x h := by
  intro ℓ' x hx a ha
  rcases mem_chain_split.1 hx with hx' | ⟨rfl, -⟩
  · rw [hs.hint x (hb.lt_count ℓ' x hx').ne] at ha
    split_ifs at ha with hmoved
    · obtain rfl : t.count = a := by simpa using ha
      refine ⟨by rw [hs.count]; exact Nat.lt_succ_self _, t.count, ?_, .here hmoved⟩
      have hcur : x ∈ (t.nodes cur).children := by
        rw [hs.children_cur]; exact List.mem_append_right _ hmoved
      cases ℓ with
      | zero =>
        rw [hok.2.2.2] at hmoved
        cases hmoved
      | succ k =>
        obtain rfl := hb.level_unique _ _ _ hx' ((hb.internal k cur hc).2.1 x hcur)
        exact mem_chain_split.2 (.inr ⟨rfl, hc⟩)
    · exact hs.leads hb hc (hb.hints ℓ' x hx' a ha)
  · rw [hs.hint_new] at ha
    cases ha

/-- A split keeps the invariant. -/
theorem bLink (hs : SplitsAt t t' cur sep) (hb : BLink t g) (hc : cur ∈ g.chain ℓ)
    (hok : HalvesOk t t' g cur sep ℓ) : BLink t' (g.split cur t.count sep) where
  above ℓ' hℓ' := by
    have h : g.chain ℓ' = [] := hb.above ℓ' hℓ'
    rw [chain_split, h, ListEdit.behind_nil]
  root_head := by
    rw [hs.root, head?_chain_split]
    exact hb.root_head
  nodup ℓ' := by
    rw [chain_split]
    exact ListEdit.nodup_behind (hb.nodup ℓ') hb.nodes_fresh
  level_unique ℓ₁ ℓ₂ x h1 h2 := by
    rw [mem_chain_split] at h1 h2
    rcases h1 with h1 | ⟨rfl, h1⟩ <;> rcases h2 with h2 | ⟨hx, h2⟩
    · exact hb.level_unique _ _ _ h1 h2
    · subst hx; exact absurd h1 hb.nodes_fresh
    · exact absurd h2 hb.nodes_fresh
    · exact hb.level_unique _ _ _ h1 h2
  lt_count ℓ' x hx := by
    rw [hs.count]
    rcases mem_chain_split.1 hx with hx | ⟨rfl, -⟩
    · exact (hb.lt_count ℓ' x hx).trans (Nat.lt_succ_self _)
    · exact Nat.lt_succ_self _
  link_lt i j hij := by
    rw [hs.count]
    by_cases h1 : i = cur
    · subst h1
      rw [hs.link_cur] at hij
      cases hij; exact Nat.lt_succ_self _
    · refine (?_ : j < t.count).trans (Nat.lt_succ_self _)
      by_cases h2 : i = t.count
      · subst h2; exact hb.link_lt cur j (hs.link_new ▸ hij)
      · rw [hs.others i h1 h2] at hij; exact hb.link_lt i j hij
  head_low ℓ' x hx := by
    rw [head?_chain_split] at hx
    rw [low_old hb (List.mem_of_mem_head? hx)]
    exact hb.head_low ℓ' x hx
  threaded := hs.threaded hb hc
  leaf := hs.leaf hb hc hok
  internal := hs.internal hb hc hok
  parents ℓ' := by
    rw [hs.parents hb]
    exact hb.parents ℓ'
  hints := hs.hints hb hc hok

/-- The pairs of both halves are those of the node. -/
theorem entriesOf_behind (hs : SplitsAt t t' cur sep) {xs : List NodeId} (hx : t.count ∉ xs)
    (he : cur ∈ xs → (t.nodes cur).entries =
      (t'.nodes cur).entries ++ (t'.nodes t.count).entries) :
    entriesOf t' (ListEdit.behind cur t.count xs) = entriesOf t xs := by
  refine congrArg _ (ListEdit.flatMap_behind (fun x hx' hne => ?_) he)
  have hnew : x ≠ t.count := by
    rintro rfl
    exact hx hx'
  rw [hs.others x hne hnew]
  rfl

theorem entriesOf_chain (hs : SplitsAt t t' cur sep) (hb : BLink t g) (hc : cur ∈ g.chain ℓ)
    (he : ℓ = 0 → (t.nodes cur).entries =
      (t'.nodes cur).entries ++ (t'.nodes t.count).entries) :
    entriesOf t' ((g.split cur t.count sep).chain 0) = entriesOf t (g.chain 0) := by
  rw [chain_split]
  exact hs.entriesOf_behind hb.nodes_fresh fun hm => he (hb.level_unique _ _ _ hc hm)

theorem evolves (hs : SplitsAt t t' cur sep) (hb : BLink t g) (hc : cur ∈ g.chain ℓ)
    (he : ℓ = 0 → (t.nodes cur).entries =
      (t'.nodes cur).entries ++ (t'.nodes t.count).entries) :
    Evolves t g t' (g.split cur t.count sep) where
  chain ℓ' := by
    rw [chain_split]
    exact ListEdit.sublist_behind
  low ℓ' x hx := low_old hb hx
  count := by rw [hs.count]; exact Nat.le_succ _
  leads ℓ' c h hl := hs.leads hb hc hl
  scan pre x post hd := by
    have hx : t.count ∉ g.chain 0 := hb.nodes_fresh
    have he' : ∀ xs, (∀ x ∈ xs, x ∈ g.chain 0) →
        entriesOf t' (ListEdit.behind cur t.count xs) = entriesOf t xs := fun xs hxs =>
      hs.entriesOf_behind (fun hm => hx (hxs _ hm))
        fun hm => he (hb.level_unique _ _ _ hc (hxs _ hm))
    have hpre : ∀ y ∈ pre, y ∈ g.chain 0 := fun y hy => by rw [hd]; simp [hy]
    have hpost : ∀ y ∈ x :: post, y ∈ g.chain 0 := fun y hy => by
      rw [hd]; exact List.mem_append_right _ hy
    refine ⟨ListEdit.behind cur t.count pre,
      (if x = cur then [t.count] else []) ++ ListEdit.behind cur t.count post, ?_,
      (he' pre hpre).ge, ?_⟩
    · rw [chain_split, hd, ListEdit.behind_append, ListEdit.behind_cons]
    · rw [← ListEdit.behind_cons]
      exact (he' (x :: post) hpost).ge

end SplitsAt

section Split

variable {t' : BPlusTree} {cur : NodeId} {sr : SplitResult} {low : Option Key}

theorem splitLeaf_eq_none : t.splitLeaf cur = none ↔ t.isFull = true := by
  simp only [BPlusTree.splitLeaf]
  split_ifs with h <;> simp [h]

theorem splitInternal_eq_none : t.splitInternal cur = none ↔ t.isFull = true := by
  simp only [BPlusTree.splitInternal]
  split_ifs with h <;> simp [h]

theorem splitLeaf_cfg (h : t.splitLeaf cur = some (t', sr)) :
    t'.cfg = t.cfg ∧ t'.size = t.size := by
  simp only [BPlusTree.splitLeaf] at h
  split_ifs at h
  cases h
  exact ⟨rfl, rfl⟩

theorem count_splitLeaf (h : t.splitLeaf cur = some (t', sr)) : t'.count = t.count + 1 := by
  simp only [BPlusTree.splitLeaf] at h
  split_ifs at h
  cases h
  rfl

theorem splitInternal_cfg (h : t.splitInternal cur = some (t', sr)) :
    t'.cfg = t.cfg ∧ t'.size = t.size := by
  simp only [BPlusTree.splitInternal] at h
  split_ifs at h
  cases h
  exact ⟨rfl, rfl⟩

theorem count_splitInternal (h : t.splitInternal cur = some (t', sr)) : t'.count = t.count + 1 := by
  simp only [BPlusTree.splitInternal] at h
  split_ifs at h
  cases h
  rfl

/-- What a leaf split leaves behind. -/
theorem splitLeaf_spec (h : t.splitLeaf cur = some (t', sr)) (hc : cur ≠ t.count)
    (hk : (t.nodes cur).keys ≠ []) : SplitsAt t t' cur sr.separator ∧ sr.right = t.count ∧
      ∃ A B, (t.nodes cur).keys = A ++ sr.separator :: B ∧
        A.length + 1 = ((t.nodes cur).keys.length + 1) / 2 ∧
        t'.nodes cur = { t.nodes cur with
          keys := A ++ [sr.separator], values := (t.nodes cur).values.take (A.length + 1)
          rightLink := some t.count, highKey := some sr.separator } ∧
        t'.nodes t.count = {
          isLeaf := true, keys := B, values := (t.nodes cur).values.drop (A.length + 1)
          rightLink := (t.nodes cur).rightLink, highKey := (t.nodes cur).highKey } := by
  simp only [BPlusTree.splitLeaf] at h
  split_ifs at h
  cases h
  set ks := (t.nodes cur).keys
  set mid := (ks.length + 1) / 2 with hmid
  have hpos : 0 < ks.length := List.length_pos_iff.2 hk
  have hne : ks.take mid ≠ [] := by
    rw [← List.length_pos_iff, List.length_take]
    omega
  have hlast : (ks.take mid).getLastD 0 = (ks.take mid).getLast hne := by
    rw [List.getLastD_eq_getLast?, List.getLast?_eq_some_getLast hne, Option.getD_some]
  have hlen : (ks.take mid).dropLast.length + 1 = mid := by
    rw [List.length_dropLast, List.length_take]
    omega
  have htake : (ks.take mid).dropLast ++ [(ks.take mid).getLastD 0] = ks.take mid := by
    rw [hlast, List.dropLast_concat_getLast]
  refine ⟨?_, rfl, (ks.take mid).dropLast, ks.drop mid, ?_, hlen, ?_, ?_⟩
  · constructor
    case hint =>
      intro x hx
      by_cases hxc : x = cur
      · simp [hc.symm, hxc]
      · simp [hx, hc.symm, hxc]
    all_goals simp +contextual [hc.symm]
  · rw [List.append_cons, htake, List.take_append_drop]
  · rw [hlen, htake]
    simp
  · rw [hlen]
    simp [hc.symm]

/-- What an internal split leaves behind. -/
theorem splitInternal_spec (h : t.splitInternal cur = some (t', sr)) (hc : cur ≠ t.count)
    (hk : (t.nodes cur).keys ≠ []) (hch : t.count ∉ (t.nodes cur).children) :
    SplitsAt t t' cur sr.separator ∧ sr.right = t.count ∧
      ∃ A B, (t.nodes cur).keys = A ++ sr.separator :: B ∧
        A.length = (t.nodes cur).keys.length / 2 ∧
        (t'.nodes cur).isLeaf = (t.nodes cur).isLeaf ∧ (t'.nodes cur).keys = A ∧
        (t'.nodes cur).children = (t.nodes cur).children.take (A.length + 1) ∧
        (t'.nodes t.count).isLeaf = false ∧ (t'.nodes t.count).keys = B ∧
        (t'.nodes t.count).children = (t.nodes cur).children.drop (A.length + 1) := by
  simp only [BPlusTree.splitInternal] at h
  split_ifs at h
  cases h
  set ks := (t.nodes cur).keys
  set mid := ks.length / 2 with hmid
  have hpos : 0 < ks.length := List.length_pos_iff.2 hk
  have hlt : mid < ks.length := Nat.div_lt_self hpos (by decide)
  have hlen : (ks.take mid).length = mid := List.length_take_of_le hlt.le
  have hnew : t.count ∉ (t.nodes cur).children.drop (mid + 1) :=
    fun hm => hch (List.mem_of_mem_drop hm)
  refine ⟨?_, rfl, ks.take mid, ks.drop (mid + 1), ?_, hlen, ?_⟩
  · constructor
    case hint =>
      intro x hx
      by_cases hxc : x = cur
      · simp [setHints_parentHint, hc.symm, hxc]
      · simp [setHints_parentHint, hx, hc.symm, hxc]
    case hint_new => simp [setHints_parentHint, hc.symm, hnew]
    case others =>
      intro x h1 h2
      simp only [BPlusTree.setHints, nodes_setNode, nodes_push, h1, h2, if_false]
      split_ifs <;> rfl
    all_goals simp +contextual [hc.symm]
  · have hget : ks.getD mid 0 = ks[mid] := List.getD_eq_getElem ks 0 hlt
    rw [hget, List.cons_getElem_drop_succ, List.take_append_drop]
  · rw [hlen]
    simp [hc.symm]

theorem splitLeaf_entries (h : t.splitLeaf cur = some (t', sr)) (hc : cur ≠ t.count)
    (hk : (t.nodes cur).keys ≠ []) : (t.nodes cur).entries =
      (t'.nodes cur).entries ++ (t'.nodes t.count).entries := by
  obtain ⟨-, -, A, B, he, -, hl, hr⟩ := splitLeaf_spec h hc hk
  have hA : A ++ [sr.separator] = (t.nodes cur).keys.take (A.length + 1) := by
    rw [he, List.take_length_add_append]
    rfl
  have hB : B = (t.nodes cur).keys.drop (A.length + 1) := by simp [he]
  rw [hl, hr]
  simp only [Node.entries]
  rw [hA, hB, List.zip, ← List.take_zipWith, ← List.drop_zipWith, List.take_append_drop]

theorem splitLeaf_halves (h : t.splitLeaf cur = some (t', sr)) (hc : cur ≠ t.count)
    (hk : (t.nodes cur).keys ≠ []) (hleaf : (t.nodes cur).isLeaf = true)
    (hok : LeafOk (t.nodes cur) (g.low cur)) :
    SplitsAt.HalvesOk t t' g cur sr.separator 0 := by
  obtain ⟨-, -, A, B, he, -, hl, hr⟩ := splitLeaf_spec h hc hk
  obtain ⟨hpar, hs, hlow, hhigh, hbd⟩ := hok
  have hsep : sr.separator ∈ (t.nodes cur).keys := by rw [he]; simp
  have hA : ∀ k ∈ A ++ [sr.separator], k ∈ (t.nodes cur).keys := fun k hk => by
    rw [he, List.append_cons]; exact List.mem_append_left _ hk
  have hB : ∀ k ∈ B, k ∈ (t.nodes cur).keys := fun k hk => by rw [he]; simp [hk]
  have hlen := congrArg List.length he
  rw [List.length_append, List.length_cons] at hlen
  rw [he, List.append_cons] at hs
  obtain ⟨hsA, hsB, hsAB⟩ := List.pairwise_append.1 hs
  have hmax : ∀ k ∈ A ++ [sr.separator], k ≤ sr.separator := by
    intro k hk
    rcases List.mem_append.1 hk with hk | hk
    · exact (List.pairwise_append.1 hsA).2.2 k hk _ (List.mem_singleton_self _)
    · exact (List.mem_singleton.1 hk).le
  have hmin : ∀ k ∈ B, sr.separator ≤ k := fun k hk => hsAB _ (by simp) k hk
  rw [SplitsAt.HalvesOk, hl, hr]
  refine ⟨⟨hleaf, ?_, hsA, fun k hk => hlow k (hA k hk), ?_, ?_⟩, rfl,
    ⟨?_, hsB, ?_, fun k hk => hhigh k (hB k hk), ?_⟩, rfl⟩
  · simp only [List.length_take, List.length_append, List.length_singleton]
    omega
  · rintro k hk _ ⟨⟩
    exact hmax k hk
  · rintro v hv _ ⟨⟩
    exact hlow _ hsep v hv
  · simp only [List.length_drop]
    omega
  · rintro k hk _ ⟨⟩
    exact hmin k hk
  · rintro _ ⟨⟩ v hv
    exact hhigh _ hsep v hv

theorem splitInternal_halves (h : t.splitInternal cur = some (t', sr)) (hc : cur ≠ t.count)
    (hk : (t.nodes cur).keys ≠ []) (hch : t.count ∉ (t.nodes cur).children)
    (hleaf : (t.nodes cur).isLeaf = false)
    (hmap : (t.nodes cur).children.map g.low = g.low cur :: (t.nodes cur).keys.map some)
    (ℓ : ℕ) : SplitsAt.HalvesOk t t' g cur sr.separator (ℓ + 1) := by
  obtain ⟨-, -, A, B, he, -, hl1, hl2, hl3, hr1, hr2, hr3⟩ := splitInternal_spec h hc hk hch
  refine ⟨⟨hl1.trans hleaf, ?_⟩, hr1, ?_⟩
  · rw [hl2, hl3, List.map_take, hmap, he]
    simp
  · rw [hr2, hr3, List.map_drop, hmap, he]
    simp

end Split

end BTree

end Vdb
