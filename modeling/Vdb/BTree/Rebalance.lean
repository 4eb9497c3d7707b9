import Vdb.BTree.Remove
import Vdb.BTree.Siblings
import Mathlib.Data.List.Perm.Basic

/-!
# Rebalancing

`rebalance` restores the minimum fill along the ancestors of the leaf an entry was taken from.
Both borrows move the boundary between two siblings, a merge joins them and passes the shortage on
to the parent, and an internal root without keys gives way to its only child.  On every well-formed
tree `remove` therefore takes out exactly one copy of the pair (`WellFormed.remove_spec`).
-/

namespace Vdb

namespace BTree

variable {t t' : BPlusTree} {g g' : Shape} {ℓ : ℕ} {p a b : NodeId} {C D : List NodeId}
  {K K' : List Key} {s s' : Key} {moved : List NodeId} {owner : NodeId}

theorem setNode_comm {i j : NodeId} (h : i ≠ j) (m n : Node) :
    (t.setNode i m).setNode j n = (t.setNode j n).setNode i m := by
  simp only [BPlusTree.setNode]
  rw [Function.update_comm h]

theorem setHints_nil (h : NodeId) : t.setHints [] h = t := by
  simp [BPlusTree.setHints]

namespace Window

variable (w : Window t g ℓ p a b C D K s K')

include w

theorem getD_left : (t.nodes p).children.getD C.length 0 = a := by
  rw [w.children]
  simp

theorem getD_right : (t.nodes p).children.getD (C.length + 1) 0 = b := by
  rw [w.children, List.getD_eq_getElem?_getD, List.getElem?_append_right (Nat.le_succ _)]
  simp

theorem getD_key : (t.nodes p).keys.getD C.length 0 = s := by
  rw [w.keys, ← w.length]
  simp

theorem set_key (k : Key) : (t.nodes p).keys.set C.length k = K ++ k :: K' := by
  rw [w.keys, ← w.length]
  simp

theorem erase_key : (t.nodes p).keys.eraseIdx C.length = K ++ K' := by
  rw [w.keys, ← w.length, List.eraseIdx_append_of_length_le le_rfl]
  simp

theorem erase_right : (t.nodes p).children.eraseIdx (C.length + 1) = C ++ a :: D := by
  rw [w.children, List.eraseIdx_append_of_length_le (Nat.le_succ _)]
  simp

variable (h : Formed t g)

include h

/-- The left sibling ends at the separator. -/
theorem high_left : (t.nodes a).highKey = some s := by
  obtain ⟨-, v, hlow, hhigh⟩ := w.joined h
  rw [w.low_right h] at hlow
  rw [hhigh, ← hlow]

/-- Siblings changed as `hna` and `hnb` allow, with a new separator. -/
theorem shifts {na nb : Node} {moved : List NodeId} {owner : NodeId}
    (hna : na.isLeaf = (t.nodes a).isLeaf ∧ na.rightLink = (t.nodes a).rightLink ∧
      na.highKey = some s' ∧ na.parentHint = (t.nodes a).parentHint)
    (hnb : nb.isLeaf = (t.nodes b).isLeaf ∧ nb.rightLink = (t.nodes b).rightLink ∧
      nb.highKey = (t.nodes b).highKey ∧ nb.parentHint = (t.nodes b).parentHint)
    (hchildren : na.children ++ nb.children = (t.nodes a).children ++ (t.nodes b).children)
    (hstay : ∀ c, c ∉ moved → (c ∈ na.children ↔ c ∈ (t.nodes a).children) ∧
      (c ∈ nb.children ↔ c ∈ (t.nodes b).children))
    (howner : owner = a ∧ (∀ c ∈ moved, c ∈ na.children) ∨
      owner = b ∧ ∀ c ∈ moved, c ∈ nb.children) :
    Shifts t ((((t.setNode a na).setNode b nb).setNode p
      { t.nodes p with keys := K ++ s' :: K' }).setHints moved owner) p a b K s' K' moved
      owner := by
  have hab := w.ne h
  have hap := w.left_ne_parent h
  have hbp := w.right_ne_parent h
  constructor
  case count => rfl
  case root => rfl
  case parent => simp only [BPlusTree.setHints]; split_ifs <;> simp
  case left => simpa [hab, hap] using ⟨hna.1, hna.2.1, hna.2.2.1⟩
  case right => simpa [hbp] using ⟨hnb.1, hnb.2.1, hnb.2.2.1⟩
  case children => simpa [hab, hap, hbp] using hchildren
  case hint =>
    intro x
    rw [setHints_parentHint]
    split_ifs with hx
    · rfl
    simp only [nodes_setNode]
    split_ifs with hxp hxb hxa
    · rw [hxp]
    · rw [hxb, hnb.2.2.2]
    · rw [hxa, hna.2.2.2]
    · rfl
  case stay => simpa [hab, hap, hbp] using hstay
  case owner_mem => exact howner.imp And.left And.left
  case moved_mem =>
    rcases howner with ⟨rfl, hm⟩ | ⟨rfl, hm⟩
    · simpa [hab, hap] using hm
    · simpa [hbp] using hm
  case others =>
    intro x hxa hxb hxp
    simp only [BPlusTree.setHints]
    split_ifs <;> simp [hxa, hxb, hxp]

/-- Siblings joined as `hna` allows. -/
theorem joins {na : Node} {absorbed : List NodeId}
    (hna : na.isLeaf = (t.nodes a).isLeaf ∧ na.rightLink = (t.nodes b).rightLink ∧
      na.highKey = (t.nodes b).highKey ∧ na.children = (t.nodes a).children ++ absorbed)
    (hhint : na.parentHint = (t.nodes a).parentHint) :
    Joins t (((t.setNode a na).setNode p { t.nodes p with
      keys := K ++ K', children := C ++ a :: D }).setHints absorbed a) p a b C D K K' absorbed := by
  have hap := w.left_ne_parent h
  constructor
  case count => rfl
  case root => rfl
  case parent => simp only [BPlusTree.setHints]; split_ifs <;> simp
  case left => simpa [hap] using hna
  case hint =>
    intro x
    rw [setHints_parentHint]
    split_ifs with hx
    · rfl
    simp only [nodes_setNode]
    split_ifs with hxp hxa
    · rw [hxp]
    · rw [hxa, hhint]
    · rfl
  case others =>
    intro x hxa hxp
    simp only [BPlusTree.setHints]
    split_ifs <;> simp [hxa, hxp]

end Window

/-! ### The contents of the siblings -/

/-- The keys of two neighbouring leaves, read in one go. -/
theorem LeafOk.keys_append {m n : Node} {low : Option Key} (hm : LeafOk m low)
    (hn : LeafOk n (some s)) (hs : m.highKey = some s) :
    (m.keys ++ n.keys).Pairwise (· ≤ ·) ∧ (∀ k ∈ m.keys ++ n.keys, ∀ v ∈ low, v ≤ k) ∧
      (∀ k ∈ m.keys ++ n.keys, ∀ v ∈ n.highKey, k ≤ v) ∧
      ∀ v ∈ low, ∀ w ∈ n.highKey, v ≤ w := by
  have hle : ∀ k ∈ m.keys, k ≤ s := fun k hk => hm.le_high k hk s hs
  have hge : ∀ k ∈ n.keys, s ≤ k := fun k hk => hn.low_le k hk s rfl
  refine ⟨List.pairwise_append.2 ⟨hm.sorted, hn.sorted,
    fun k hk l hl => (hle k hk).trans (hge l hl)⟩, fun k hk v hv => ?_, fun k hk v hv => ?_,
    fun v hv w hw => (hm.bounds v hv s hs).trans (hn.bounds s rfl w hw)⟩
  · rcases List.mem_append.1 hk with hk | hk
    · exact hm.low_le k hk v hv
    · exact (hm.bounds v hv s hs).trans (hge k hk)
  · rcases List.mem_append.1 hk with hk | hk
    · exact (hle k hk).trans (hn.bounds s rfl v hv)
    · exact hn.le_high k hk v hv

/-- Two leaves may share their keys in another way, with the last key of the left one between. -/
theorem LeafOk.shift {m n m' n' : Node} {low : Option Key} (hm : LeafOk m low)
    (hn : LeafOk n (some s)) (hs : m.highKey = some s)
    (hkeys : m'.keys ++ n'.keys = m.keys ++ n.keys) (hm' : m'.values.length = m'.keys.length)
    (hn' : n'.values.length = n'.keys.length) (hlast : m'.keys.getLast? = some s')
    (hleft : m'.highKey = some s') (hright : n'.highKey = n.highKey) :
    LeafOk m' low ∧ LeafOk n' (some s') := by
  obtain ⟨hsort, hlow, hhigh, -⟩ := hm.keys_append hn hs
  rw [← hkeys] at hsort hlow hhigh
  obtain ⟨hsm, hsn, hmn⟩ := List.pairwise_append.1 hsort
  have hmem : s' ∈ m'.keys := List.mem_of_getLast? hlast
  obtain ⟨ks, hks⟩ := List.getLast?_eq_some_iff.1 hlast
  have hle : ∀ k ∈ m'.keys, k ≤ s' := by
    intro k hk
    rw [hks] at hk hsm
    rcases List.mem_append.1 hk with hk | hk
    · exact (List.pairwise_append.1 hsm).2.2 k hk s' (List.mem_singleton_self s')
    · exact (List.mem_singleton.1 hk).le
  refine ⟨⟨hm', hsm, fun k hk => hlow k (List.mem_append_left _ hk), ?_, ?_⟩,
    hn', hsn, ?_, ?_, ?_⟩
  · intro k hk v hv
    rw [hleft] at hv
    cases hv
    exact hle k hk
  · intro v hv w hw
    rw [hleft] at hw
    cases hw
    exact hlow _ (List.mem_append_left _ hmem) v hv
  · rintro k hk v ⟨⟩
    exact hmn _ hmem k hk
  · intro k hk v hv
    rw [hright] at hv
    exact hhigh k (List.mem_append_right _ hk) v hv
  · rintro v ⟨⟩ w hw
    rw [hright] at hw
    exact hhigh _ (List.mem_append_left _ hmem) w hw

/-- Two leaves joined are a leaf. -/
theorem LeafOk.join {m n m' : Node} {low : Option Key} (hm : LeafOk m low)
    (hn : LeafOk n (some s)) (hs : m.highKey = some s) (hkeys : m'.keys = m.keys ++ n.keys)
    (hvalues : m'.values = m.values ++ n.values) (hhigh : m'.highKey = n.highKey) :
    LeafOk m' low := by
  obtain ⟨h1, h2, h3, h4⟩ := hm.keys_append hn hs
  constructor
  · rw [hkeys, hvalues, List.length_append, List.length_append, hm.parallel, hn.parallel]
  · rwa [hkeys]
  · rwa [hkeys]
  · rwa [hkeys, hhigh]
  · rwa [hhigh]

namespace Window

variable (w : Window t g ℓ p a b C D K s K') (h : Formed t g)

include w h

/-- The lower ends of the children of both siblings. -/
theorem map_low_children {m : ℕ} (hℓ : ℓ = m + 1) :
    ((t.nodes a).children ++ (t.nodes b).children).map g.low =
      g.low a :: ((t.nodes a).keys ++ s :: (t.nodes b).keys).map some := by
  subst hℓ
  rw [List.map_append, (h.blink.internal m a (w.left_mem h)).2.2,
    (h.blink.internal m b (w.right_mem h)).2.2, w.low_right h]
  simp

/-- What the siblings must satisfy after a borrow: the keys, with the separator between them at
internal nodes, are as before. -/
theorem siblingsOk (hs : Shifts t t' p a b K s' K' moved owner)
    (hleaf : ℓ = 0 → (t'.nodes a).keys ++ (t'.nodes b).keys =
        (t.nodes a).keys ++ (t.nodes b).keys ∧
      (t'.nodes a).values.length = (t'.nodes a).keys.length ∧
      (t'.nodes b).values.length = (t'.nodes b).keys.length ∧
      (t'.nodes a).keys.getLast? = some s')
    (hint : 0 < ℓ → (t'.nodes a).keys ++ s' :: (t'.nodes b).keys =
        (t.nodes a).keys ++ s :: (t.nodes b).keys ∧
      (t'.nodes a).children.length = (t'.nodes a).keys.length + 1) :
    Shifts.SiblingsOk t' g a b s' ℓ := by
  cases ℓ with
  | zero =>
    obtain ⟨hkeys, hpa, hpb, hlast⟩ := hleaf rfl
    have hb := (h.blink.leaf b (w.right_mem h)).2
    rw [w.low_right h] at hb
    exact (h.blink.leaf a (w.left_mem h)).2.shift hb (w.high_left h) hkeys hpa hpb hlast
      hs.left.2.2 hs.right.2.2
  | succ m =>
    obtain ⟨hkeys, hlen⟩ := hint (Nat.succ_pos m)
    have hmap := w.map_low_children h rfl
    rw [← hs.children, ← hkeys] at hmap
    have hshift : ((t'.nodes a).children ++ (t'.nodes b).children).map (g.shift b s').low =
        ((t'.nodes a).children ++ (t'.nodes b).children).map g.low := by
      refine List.map_congr_left fun c hc => low_shift_ne ?_
      rintro rfl
      exact absurd (h.blink.level_unique _ _ _ (w.right_mem h)
        (hs.mem_below w h rfl (List.mem_append.1 hc))) (Nat.succ_ne_self m)
    rw [← hshift, List.map_append] at hmap
    have hcut : (t'.nodes a).children.map (g.shift b s').low ++
        (t'.nodes b).children.map (g.shift b s').low =
        (g.low a :: (t'.nodes a).keys.map some) ++ (some s' :: (t'.nodes b).keys.map some) := by
      rw [hmap]
      simp
    exact List.append_inj hcut (by simp [hlen])

end Window

/-! ### Borrowing -/

/-- Rebalancing changes nothing that a caller sees. -/
structure SameContents (t : BPlusTree) (g : Shape) (t' : BPlusTree) (g' : Shape) : Prop where
  cfg : t'.cfg = t.cfg
  size : t'.size = t.size
  count : t'.count = t.count
  contents : entriesOf t' (g'.chain 0) = entriesOf t (g.chain 0)

/-- The node `y` has given one key to `x`. -/
structure Lends (t t' : BPlusTree) (x y : NodeId) : Prop where
  taker : (t'.nodes x).keys.length = (t.nodes x).keys.length + 1
  lender : (t'.nodes y).keys.length + 1 = (t.nodes y).keys.length
  others : ∀ z, z ≠ x → z ≠ y → (t'.nodes z).keys.length = (t.nodes z).keys.length

theorem Shifts.keys_length (hs : Shifts t t' p a b K s' K' moved owner)
    (w : Window t g ℓ p a b C D K s K') {x : NodeId} (hxa : x ≠ a) (hxb : x ≠ b) :
    (t'.nodes x).keys.length = (t.nodes x).keys.length := by
  by_cases hxp : x = p
  · rw [hxp, hs.parent, w.keys]
    simp
  · rw [hs.others x hxa hxb hxp]

/-- What a borrow gives back, in terms of the new siblings `na` and `nb`. -/
theorem Window.borrowed (w : Window t g ℓ p a b C D K s K') (h : Formed t g) {na nb : Node}
    (ht : t' = (((t.setNode a na).setNode b nb).setNode p
      { t.nodes p with keys := K ++ s' :: K' }).setHints moved owner)
    (hs : Shifts t t' p a b K s' K' moved owner) (hm : ℓ = 0 → moved = [])
    (hleaf : ℓ = 0 → na.keys ++ nb.keys = (t.nodes a).keys ++ (t.nodes b).keys ∧
      na.values ++ nb.values = (t.nodes a).values ++ (t.nodes b).values ∧
      na.values.length = na.keys.length ∧ na.keys.getLast? = some s')
    (hint : 0 < ℓ → na.keys ++ s' :: nb.keys = (t.nodes a).keys ++ s :: (t.nodes b).keys ∧
      na.children.length = na.keys.length + 1) :
    ∃ g', Formed t' g' ∧ g'.chain = g.chain ∧ SameContents t g t' g' ∧
      (t'.nodes a).keys = na.keys ∧ (t'.nodes b).keys = nb.keys ∧
      ∀ x, x ≠ a → x ≠ b → (t'.nodes x).keys.length = (t.nodes x).keys.length := by
  have hab := w.ne h
  have hap := w.left_ne_parent h
  have hbp := w.right_ne_parent h
  have hka : (t'.nodes a).keys = na.keys := by rw [ht]; simp [hab, hap]
  have hkb : (t'.nodes b).keys = nb.keys := by rw [ht]; simp [hbp]
  have hva : (t'.nodes a).values = na.values := by rw [ht]; simp [hab, hap]
  have hvb : (t'.nodes b).values = nb.values := by rw [ht]; simp [hbp]
  have hca : (t'.nodes a).children = na.children := by rw [ht]; simp [hab, hap]
  have hpar : ℓ = 0 → (t.nodes a).values.length = (t.nodes a).keys.length ∧
      (t.nodes b).values.length = (t.nodes b).keys.length := by
    rintro rfl
    exact ⟨(h.blink.leaf a (w.left_mem h)).2.parallel, (h.blink.leaf b (w.right_mem h)).2.parallel⟩
  have hparb : ℓ = 0 → nb.values.length = nb.keys.length := by
    intro hℓ
    obtain ⟨hk, hv, hlen, -⟩ := hleaf hℓ
    have hk' := congrArg List.length hk
    have hv' := congrArg List.length hv
    simp only [List.length_append] at hk' hv'
    have := hpar hℓ
    omega
  have hok : Shifts.SiblingsOk t' g a b s' ℓ := by
    refine w.siblingsOk h hs (fun hℓ => ?_) fun hℓ => ?_
    · obtain ⟨hk, -, hlen, hlast⟩ := hleaf hℓ
      rw [hka, hkb, hva, hvb]
      exact ⟨hk, hlen, hparb hℓ, hlast⟩
    · rw [hka, hkb, hca]
      exact hint hℓ
  have hcont : entriesOf t' (g.chain 0) = entriesOf t (g.chain 0) := by
    refine hs.contents w h fun hℓ => ?_
    obtain ⟨hk, hv, hlen, -⟩ := hleaf hℓ
    rw [Node.entries, Node.entries, hka, hkb, hva, hvb, ← List.zip_append hlen.symm, hk, hv,
      List.zip_append (hpar hℓ).1.symm]
    rfl
  exact ⟨g.shift b s', hs.formed w h hok hm, rfl, ⟨by rw [ht]; rfl, by rw [ht]; rfl, hs.count,
    hcont⟩, hka, hkb, fun x hxa hxb => hs.keys_length w hxa hxb⟩

theorem Formed.borrowFromRight_shifts (h : Formed t g) (w : Window t g ℓ p a b C D K s K')
    (hb : 1 < (t.nodes b).keys.length) :
    ∃ k moved g', Shifts t (t.borrowFromRight p C.length) p a b K k K' moved a ∧
      (ℓ = 0 → moved = []) ∧ Formed (t.borrowFromRight p C.length) g' ∧ g'.chain = g.chain ∧
      SameContents t g (t.borrowFromRight p C.length) g' ∧
      Lends t (t.borrowFromRight p C.length) a b := by
  obtain ⟨k, ks, hk⟩ := List.exists_cons_of_length_pos (Nat.zero_lt_of_lt hb)
  cases ℓ with
  | zero =>
    have hpa := (h.blink.leaf a (w.left_mem h)).2.parallel
    have hpb := (h.blink.leaf b (w.right_mem h)).2.parallel
    obtain ⟨v, vs, hv⟩ := List.exists_cons_of_length_pos (l := (t.nodes b).values)
      (by rw [hpb]; exact Nat.zero_lt_of_lt hb)
    have ht : t.borrowFromRight p C.length = (((t.setNode a { t.nodes a with
        keys := (t.nodes a).keys ++ [k], values := (t.nodes a).values ++ [v]
        highKey := some k }).setNode b { t.nodes b with keys := ks, values := vs }).setNode p
        { t.nodes p with keys := K ++ k :: K' }).setHints [] a := by
      simp only [BPlusTree.borrowFromRight, w.getD_left, w.getD_right, w.set_key,
        (h.blink.leaf a (w.left_mem h)).1, hk, hv, if_true, List.headD_cons, List.tail_cons,
        setHints_nil]
    have hs : Shifts t (t.borrowFromRight p C.length) p a b K k K' [] a := by
      rw [ht]
      exact w.shifts h (by simp) (by simp) rfl (by simp) (by simp)
    obtain ⟨g', hf, hchain, hsame, hka, hkb, ho⟩ := w.borrowed h ht hs (fun _ => rfl)
      (fun _ => by simp [hk, hv, hpa]) (by simp)
    exact ⟨k, [], g', hs, fun _ => rfl, hf, hchain, hsame, by simp [hka], by simp [hkb, hk], ho⟩
  | succ m =>
    obtain ⟨c, cs, hc⟩ := List.exists_cons_of_length_pos (l := (t.nodes b).children)
      (by rw [h.blink.length_children (w.right_mem h)]; exact Nat.succ_pos _)
    have hla := h.blink.length_children (w.left_mem h)
    have ht : t.borrowFromRight p C.length = (((t.setNode a { t.nodes a with
        keys := (t.nodes a).keys ++ [s], children := (t.nodes a).children ++ [c]
        highKey := some k }).setNode b { t.nodes b with keys := ks, children := cs }).setNode p
        { t.nodes p with keys := K ++ k :: K' }).setHints [c] a := by
      simp only [BPlusTree.borrowFromRight, w.getD_left, w.getD_right, w.getD_key, w.set_key,
        (h.blink.internal m a (w.left_mem h)).1, hk, hc, Bool.false_eq_true, if_false,
        List.headD_cons, List.tail_cons]
    have hs : Shifts t (t.borrowFromRight p C.length) p a b K k K' [c] a := by
      rw [ht]
      exact w.shifts h (by simp) (by simp) (by simp [hc]) (by simp +contextual [hc]) (by simp)
    obtain ⟨g', hf, hchain, hsame, hka, hkb, ho⟩ := w.borrowed h ht hs (by simp) (by simp)
      fun _ => by simp [hk, hla]
    exact ⟨k, [c], g', hs, nofun, hf, hchain, hsame, by simp [hka], by simp [hkb, hk], ho⟩

theorem Formed.borrowFromRight_spec (h : Formed t g) (w : Window t g ℓ p a b C D K s K')
    (hb : 1 < (t.nodes b).keys.length) :
    ∃ g', Formed (t.borrowFromRight p C.length) g' ∧ g'.chain = g.chain ∧
      SameContents t g (t.borrowFromRight p C.length) g' ∧
      Lends t (t.borrowFromRight p C.length) a b :=
  let ⟨_, _, g', _, _, hspec⟩ := h.borrowFromRight_shifts w hb
  ⟨g', hspec⟩

theorem Formed.borrowFromLeft_shifts (h : Formed t g) (w : Window t g ℓ p a b C D K s K')
    (ha : 1 < (t.nodes a).keys.length) :
    ∃ k moved g', Shifts t (t.borrowFromLeft p (C.length + 1)) p a b K k K' moved b ∧
      (ℓ = 0 → moved = []) ∧ Formed (t.borrowFromLeft p (C.length + 1)) g' ∧ g'.chain = g.chain ∧
      SameContents t g (t.borrowFromLeft p (C.length + 1)) g' ∧
      Lends t (t.borrowFromLeft p (C.length + 1)) b a := by
  have hab := w.ne h
  obtain ⟨ks, k, hk⟩ := (List.eq_nil_or_concat' _).resolve_left
    (List.ne_nil_of_length_pos (Nat.zero_lt_of_lt ha))
  cases ℓ with
  | zero =>
    have hpa := (h.blink.leaf a (w.left_mem h)).2.parallel
    obtain ⟨vs, v, hv⟩ := (List.eq_nil_or_concat' _).resolve_left
      (List.ne_nil_of_length_pos (l := (t.nodes a).values)
        (by rw [hpa]; exact Nat.zero_lt_of_lt ha))
    obtain ⟨ks', k', rfl⟩ := (List.eq_nil_or_concat' _).resolve_left
      (List.ne_nil_of_length_pos (l := ks) (by simpa [hk] using ha))
    have ht : t.borrowFromLeft p (C.length + 1) = (((t.setNode a { t.nodes a with
        keys := ks' ++ [k'], values := vs, highKey := some k' }).setNode b { t.nodes b with
        keys := k :: (t.nodes b).keys, values := v :: (t.nodes b).values }).setNode p
        { t.nodes p with keys := K ++ k' :: K' }).setHints [] b := by
      simp only [BPlusTree.borrowFromLeft, Nat.add_sub_cancel, w.getD_left, w.getD_right,
        w.set_key, (h.blink.leaf b (w.right_mem h)).1, hk, hv, if_true, List.dropLast_concat,
        List.getLastD_concat, setHints_nil, setNode_comm hab]
    have hs : Shifts t (t.borrowFromLeft p (C.length + 1)) p a b K k' K' [] b := by
      rw [ht]
      exact w.shifts h (by simp) (by simp) rfl (by simp) (by simp)
    rw [hk, hv] at hpa
    obtain ⟨g', hf, hchain, hsame, hka, hkb, ho⟩ := w.borrowed h ht hs (fun _ => rfl)
      (fun _ => by simpa [hk, hv] using hpa) (by simp)
    exact ⟨k', [], g', hs, fun _ => rfl, hf, hchain, hsame, by simp [hkb], by simp [hka, hk],
      fun z hb ha => ho z ha hb⟩
  | succ m =>
    obtain ⟨cs, c, hc⟩ := (List.eq_nil_or_concat' _).resolve_left
      (List.ne_nil_of_length_pos (l := (t.nodes a).children)
        (by rw [h.blink.length_children (w.left_mem h)]; exact Nat.succ_pos _))
    have hla := h.blink.length_children (w.left_mem h)
    have ht : t.borrowFromLeft p (C.length + 1) = (((t.setNode a { t.nodes a with
        keys := ks, children := cs, highKey := some k }).setNode b { t.nodes b with
        keys := s :: (t.nodes b).keys, children := c :: (t.nodes b).children }).setNode p
        { t.nodes p with keys := K ++ k :: K' }).setHints [c] b := by
      simp only [BPlusTree.borrowFromLeft, Nat.add_sub_cancel, w.getD_left, w.getD_right,
        w.getD_key, w.set_key, (h.blink.internal m b (w.right_mem h)).1, hk, hc,
        Bool.false_eq_true, if_false, List.dropLast_concat, List.getLastD_concat,
        setNode_comm hab]
    have hs : Shifts t (t.borrowFromLeft p (C.length + 1)) p a b K k K' [c] b := by
      rw [ht]
      exact w.shifts h (by simp) (by simp) (by simp [hc]) (by simp +contextual [hc]) (by simp)
    rw [hk, hc] at hla
    obtain ⟨g', hf, hchain, hsame, hka, hkb, ho⟩ := w.borrowed h ht hs (by simp) (by simp)
      fun _ => by simpa [hk] using hla
    exact ⟨k, [c], g', hs, nofun, hf, hchain, hsame, by simp [hkb], by simp [hka, hk],
      fun z hb ha => ho z ha hb⟩

theorem Formed.borrowFromLeft_spec (h : Formed t g) (w : Window t g ℓ p a b C D K s K')
    (ha : 1 < (t.nodes a).keys.length) :
    ∃ g', Formed (t.borrowFromLeft p (C.length + 1)) g' ∧ g'.chain = g.chain ∧
      SameContents t g (t.borrowFromLeft p (C.length + 1)) g' ∧
      Lends t (t.borrowFromLeft p (C.length + 1)) b a :=
  let ⟨_, _, g', _, _, hspec⟩ := h.borrowFromLeft_shifts w ha
  ⟨g', hspec⟩

/-! ### Merging -/

/-- `b` and its separator are gone from `p`, and `a` holds the keys of both. -/
structure Merged (t t' : BPlusTree) (ℓ : ℕ) (p a b : NodeId) : Prop where
  survivor : (t.nodes a).keys.length + (t.nodes b).keys.length ≤ (t'.nodes a).keys.length
  survivor_pos : 0 < ℓ → 0 < (t'.nodes a).keys.length
  parent : (t'.nodes p).keys.length + 1 = (t.nodes p).keys.length
  keys : ∀ x, x ≠ a → x ≠ p → (t'.nodes x).keys = (t.nodes x).keys
  children : ∀ x, x ≠ a → x ≠ p → (t'.nodes x).children = (t.nodes x).children

theorem Joins.merged {absorbed : List NodeId} (hj : Joins t t' p a b C D K K' absorbed)
    (w : Window t g ℓ p a b C D K s K')
    (hle : (t.nodes a).keys.length + (t.nodes b).keys.length ≤ (t'.nodes a).keys.length)
    (hpos : 0 < ℓ → 0 < (t'.nodes a).keys.length) : Merged t t' ℓ p a b where
  survivor := hle
  survivor_pos := hpos
  parent := by
    rw [hj.parent, w.keys]
    simp [Nat.add_assoc]
  keys x hxa hxp := by rw [hj.others x hxa hxp]
  children x hxa hxp := by rw [hj.others x hxa hxp]

theorem Formed.mergeWithRight_joins (h : Formed t g) (w : Window t g ℓ p a b C D K s K') :
    ∃ absorbed, Joins t (t.mergeWithRight p C.length) p a b C D K K' absorbed ∧
      (ℓ = 0 → absorbed = []) ∧
      ((t.mergeWithRight p C.length).nodes a).keys.length ≤
        (t.nodes a).keys.length + (t.nodes b).keys.length + 1 ∧
      Formed (t.mergeWithRight p C.length) (g.erase b) ∧
      SameContents t g (t.mergeWithRight p C.length) (g.erase b) ∧
      (t.mergeWithRight p C.length).root = t.root ∧
      Merged t (t.mergeWithRight p C.length) ℓ p a b := by
  have hap := w.left_ne_parent h
  cases ℓ with
  | zero =>
    have hok := (h.blink.leaf a (w.left_mem h)).2
    have hokb := (h.blink.leaf b (w.right_mem h)).2
    rw [w.low_right h] at hokb
    set na : Node := { t.nodes a with
      keys := (t.nodes a).keys ++ (t.nodes b).keys
      values := (t.nodes a).values ++ (t.nodes b).values
      rightLink := (t.nodes b).rightLink, highKey := (t.nodes b).highKey } with hna
    have ht : t.mergeWithRight p C.length = (((t.setNode a na).setNode p { t.nodes p with
        keys := K ++ K', children := C ++ a :: D }).setHints [] a) := by
      simp only [BPlusTree.mergeWithRight, w.getD_left, w.getD_right, w.erase_key, w.erase_right,
        (h.blink.leaf a (w.left_mem h)).1, if_true, setHints_nil, hna]
    have hj : Joins t (t.mergeWithRight p C.length) p a b C D K K' [] := by
      rw [ht]
      exact w.joins h (by simp [hna]) rfl
    have hnode : (t.mergeWithRight p C.length).nodes a = na := by
      rw [ht, setHints_nil]
      simp [hap]
    refine ⟨[], hj, fun _ => rfl, ?_, hj.formed w h ⟨?_, rfl⟩, ⟨by rw [ht]; rfl, by rw [ht]; rfl,
      hj.count, hj.contents w h fun _ => ?_⟩, hj.root,
      hj.merged w ?_ (fun h0 => absurd h0 (lt_irrefl 0))⟩
    · rw [hnode]
      exact (List.length_append).le.trans (Nat.le_succ _)
    · rw [hnode]
      exact hok.join hokb (w.high_left h) rfl rfl rfl
    · rw [hnode]
      exact List.zip_append hok.parallel.symm
    · rw [hnode]
      exact (List.length_append).ge
  | succ m =>
    set na : Node := { t.nodes a with
      keys := (t.nodes a).keys ++ s :: (t.nodes b).keys
      children := (t.nodes a).children ++ (t.nodes b).children
      rightLink := (t.nodes b).rightLink, highKey := (t.nodes b).highKey } with hna
    have ht : t.mergeWithRight p C.length = (((t.setNode a na).setNode p { t.nodes p with
        keys := K ++ K', children := C ++ a :: D }).setHints (t.nodes b).children a) := by
      simp only [BPlusTree.mergeWithRight, w.getD_left, w.getD_right, w.erase_key, w.erase_right,
        w.getD_key, (h.blink.internal m a (w.left_mem h)).1, Bool.false_eq_true, if_false, hna]
    have hj : Joins t (t.mergeWithRight p C.length) p a b C D K K' (t.nodes b).children := by
      rw [ht]
      exact w.joins h (by simp [hna]) rfl
    have hkeys : ((t.mergeWithRight p C.length).nodes a).keys = na.keys := by
      rw [ht]
      simp [hap]
    have hlen : na.keys.length =
        (t.nodes a).keys.length + (t.nodes b).keys.length + 1 := by
      rw [hna]
      simp [Nat.add_assoc]
    refine ⟨_, hj, nofun, (congrArg List.length hkeys).trans hlen |>.le, hj.formed w h ⟨rfl, ?_⟩,
      ⟨by rw [ht]; rfl, by rw [ht]; rfl, hj.count, hj.contents w h (by simp)⟩, hj.root,
      hj.merged w ?_ fun _ => ?_⟩
    · rw [hj.left.2.2.2, hkeys, w.map_low_children h rfl]
    · rw [hkeys, hlen]
      exact Nat.le_succ _
    · rw [hkeys, hlen]
      exact Nat.succ_pos _

theorem Formed.mergeWithRight_spec (h : Formed t g) (w : Window t g ℓ p a b C D K s K') :
    Formed (t.mergeWithRight p C.length) (g.erase b) ∧
      SameContents t g (t.mergeWithRight p C.length) (g.erase b) ∧
      (t.mergeWithRight p C.length).root = t.root ∧
      Merged t (t.mergeWithRight p C.length) ℓ p a b :=
  let ⟨_, _, _, _, hspec⟩ := h.mergeWithRight_joins w
  hspec

/-! ### The root -/

/-- The shape without the empty root. -/
def Shape.shrink (g : Shape) : Shape where
  top := g.top - 1
  chain := Function.update g.chain g.top []
  low := g.low

theorem chain_shrink (g : Shape) (ℓ : ℕ) :
    g.shrink.chain ℓ = if ℓ = g.top then [] else g.chain ℓ :=
  Function.update_apply _ _ _ _

theorem mem_chain_shrink {g : Shape} {ℓ : ℕ} {x : NodeId} :
    x ∈ g.shrink.chain ℓ ↔ ℓ ≠ g.top ∧ x ∈ g.chain ℓ := by
  rw [chain_shrink]
  split_ifs with hℓ <;> simp [hℓ]

/-- The only child of an empty root is alone on its level. -/
theorem Formed.only_child (h : Formed t g) (hroot : (t.nodes t.root).isLeaf = false)
    (hkeys : (t.nodes t.root).keys = []) :
    ∃ m c, g.top = m + 1 ∧ (t.nodes t.root).children = [c] ∧ g.chain m = [c] := by
  have hmem := h.blink.root_mem
  cases hm : g.top with
  | zero =>
    rw [hm] at hmem
    rw [(h.blink.leaf _ hmem).1] at hroot
    cases hroot
  | succ m =>
    rw [hm] at hmem
    have hlen := h.blink.length_children hmem
    rw [hkeys] at hlen
    obtain ⟨c, hc⟩ := List.length_eq_one_iff.1 hlen
    refine ⟨m, c, rfl, hc, ?_⟩
    rw [← h.below m (by omega), childrenOf, ← hm, h.root_alone]
    simpa using hc

/-- An internal root without keys gives way to its only child. -/
theorem Formed.collapseRoot_spec (h : Formed t g) (hroot : (t.nodes t.root).isLeaf = false)
    (hkeys : (t.nodes t.root).keys = []) :
    Formed (t.collapseRoot t.root) g.shrink ∧
      SameContents t g (t.collapseRoot t.root) g.shrink ∧
      ∀ x, ((t.collapseRoot t.root).nodes x).keys = (t.nodes x).keys := by
  obtain ⟨m, c, htop, hc, hm⟩ := h.only_child hroot hkeys
  set t' := t.collapseRoot t.root with ht'
  have hu : Unbounded t c := by
    have := h.blink.threaded m
    rw [hm] at this
    exact this.only
  have hroot' : t'.root = c := by
    rw [ht', BPlusTree.collapseRoot, hc]
    rfl
  have hhint : ∀ x, (t'.nodes x).parentHint = if x = c then none else (t.nodes x).parentHint := by
    intro x
    simp only [ht', BPlusTree.collapseRoot, hc, List.headD_cons, nodes_setNode]
    split_ifs <;> rfl
  -- the links of the child were those of a root already
  have hnode : ∀ x, t'.nodes x = { t.nodes x with parentHint := (t'.nodes x).parentHint } := by
    intro x
    simp only [ht', BPlusTree.collapseRoot, hc, List.headD_cons, nodes_setNode]
    split_ifs with hx
    · rw [hx, hu.1, hu.2]
    · rfl
  have hchildren : ∀ x, (t'.nodes x).children = (t.nodes x).children := fun x => by rw [hnode]
  have hne : ∀ ℓ x, x ∈ g.chain ℓ → ℓ ≠ m → x ≠ c := by
    rintro ℓ x hx hℓ rfl
    exact hℓ (h.blink.level_unique _ _ _ hx (by rw [hm]; simp))
  have hbelow : ∀ ℓ < m, childrenOf t' g.shrink ℓ = childrenOf t g ℓ := by
    intro ℓ hℓ
    rw [childrenOf, childrenOf, chain_shrink, if_neg (by omega)]
    exact List.flatMap_congr fun x _ => hchildren x
  have hstop : g.shrink.top = m := by
    show g.top - 1 = m
    omega
  refine ⟨⟨?_, ?_, ?_, ?_⟩, ⟨rfl, rfl, rfl, ?_⟩, fun x => by rw [hnode]⟩
  · constructor
    case above =>
      intro ℓ hℓ
      rw [hstop] at hℓ
      rw [chain_shrink]
      split_ifs with hℓ'
      · rfl
      · exact h.blink.above ℓ (by omega)
    case root_head =>
      rw [hstop, chain_shrink, if_neg (by omega), hm, hroot']
      rfl
    case nodup =>
      intro ℓ
      rw [chain_shrink]
      split_ifs
      · exact List.nodup_nil
      · exact h.blink.nodup ℓ
    case level_unique =>
      exact fun ℓ ℓ' x hx hx' => h.blink.level_unique ℓ ℓ' x (mem_chain_shrink.1 hx).2
        (mem_chain_shrink.1 hx').2
    case lt_count => exact fun ℓ x hx => h.blink.lt_count ℓ x (mem_chain_shrink.1 hx).2
    case link_lt =>
      intro i j hij
      rw [hnode] at hij
      exact h.blink.link_lt i j hij
    case head_low =>
      intro ℓ x hx
      rw [chain_shrink] at hx
      split_ifs at hx
      · cases hx
      · exact h.blink.head_low ℓ x hx
    case threaded =>
      intro ℓ
      rw [chain_shrink]
      split_ifs
      · exact ⟨.nil, by rintro a ⟨⟩⟩
      · refine (h.blink.threaded ℓ).mono (fun x _ y _ hxy => ?_) fun x _ hx => ?_
        · rw [Joined, hnode]
          exact hxy
        · rw [Unbounded, hnode]
          exact hx
    case leaf =>
      intro x hx
      obtain ⟨h1, h2, h3, h4, h5, h6⟩ := h.blink.leaf x (mem_chain_shrink.1 hx).2
      rw [hnode]
      exact ⟨h1, h2, h3, h4, h5, h6⟩
    case internal =>
      intro ℓ x hx
      obtain ⟨hℓ, hx⟩ := mem_chain_shrink.1 hx
      obtain ⟨h1, h2, h3⟩ := h.blink.internal ℓ x hx
      have hlt := h.lt_top hx
      rw [hnode]
      exact ⟨h1, fun c hc => mem_chain_shrink.2 ⟨by omega, h2 c hc⟩, h3⟩
    case parents =>
      intro ℓ
      rw [chain_shrink]
      split_ifs
      · exact List.nodup_nil
      · rw [List.flatMap_congr fun x _ => hchildren x]
        exact h.blink.parents ℓ
    case hints =>
      intro ℓ x hx y hy
      obtain ⟨hℓ, hx⟩ := mem_chain_shrink.1 hx
      rw [hhint] at hy
      split_ifs at hy with hxc
      · cases hy
      · obtain ⟨hlt, p, hp, hw⟩ := h.blink.hints ℓ x hx y hy
        have hℓm : ℓ ≠ m := by
          rintro rfl
          rw [hm] at hx
          exact hxc (List.mem_singleton.1 hx)
        refine ⟨hlt, p, mem_chain_shrink.2 ⟨by omega, hp⟩, ?_⟩
        refine hw.congr (fun _ => True) (fun _ _ _ _ => trivial) (fun x _ => ?_) (fun x _ => ?_)
          trivial
        · rw [hnode]
        · rw [hchildren]
  · intro ℓ hℓ
    rw [hstop] at hℓ
    rw [hbelow ℓ hℓ, h.below ℓ (by omega), chain_shrink, if_neg (by omega)]
  · rw [hstop, chain_shrink, if_neg (by omega), hm, hroot']
  · intro ℓ hℓ x hx
    rw [hstop] at hℓ
    obtain ⟨-, hx⟩ := mem_chain_shrink.1 hx
    rw [hhint, if_neg (hne ℓ x hx hℓ.ne)]
    exact h.hinted ℓ (by omega) x hx
  · rw [chain_shrink, if_neg (by omega)]
    refine entriesOf_congr fun x _ => ?_
    rw [hnode]
    rfl

/-! ### Climbing -/

theorem SameContents.refl (t : BPlusTree) (g : Shape) : SameContents t g t g :=
  ⟨rfl, rfl, rfl, rfl⟩

theorem SameContents.trans {t'' : BPlusTree} {g'' : Shape} (h : SameContents t g t' g')
    (h' : SameContents t' g' t'' g'') : SameContents t g t'' g'' :=
  ⟨h'.cfg.trans h.cfg, h'.size.trans h.size, h'.count.trans h.count,
    h'.contents.trans h.contents⟩

theorem EnoughAt.of_half (hcap : 2 ≤ t.cfg.nodeCapacity) {x : NodeId}
    (hx : t.cfg.nodeCapacity / 2 ≤ (t.nodes x).keys.length) : EnoughAt t g x :=
  fun _ _ => ⟨.inl hx, fun _ => (Nat.div_pos hcap (by decide)).trans_le hx⟩

/-- A node that keeps its keys and its place still holds enough. -/
theorem EnoughAt.mono {x : NodeId} (h : EnoughAt t g x) (hcfg : t'.cfg = t.cfg)
    (hkeys : (t.nodes x).keys.length ≤ (t'.nodes x).keys.length)
    (hmem : ∀ ℓ, x ∈ g'.chain ℓ → x ∈ g.chain ℓ)
    (halone : ∀ ℓ, g.chain ℓ = [x] → x ∈ g'.chain ℓ → g'.chain ℓ = [x]) : EnoughAt t' g' x := by
  intro ℓ hx
  obtain ⟨h1, h2⟩ := h ℓ (hmem ℓ hx)
  rw [hcfg]
  exact ⟨h1.imp (·.trans hkeys) fun h => halone ℓ h hx, fun h0 => (h2 h0).trans_le hkeys⟩

theorem Path.congr {x : NodeId} {path : List NodeId} (h : Path t g ℓ x path)
    (hroot : t'.root = t.root) (htop : g'.top = g.top) (hmem : ∀ ℓ', ∀ q ∈ path, q ∈ g.chain ℓ' →
      (t'.nodes q).children = (t.nodes q).children) (hb : BLink t g) : Path t' g' ℓ x path := by
  induction h with
  | root =>
    rw [← hroot, ← htop]
    exact .root
  | @child ℓ p c path hp hc ih =>
    refine .child (ih fun ℓ' q hq => hmem ℓ' q (List.mem_cons_of_mem _ hq)) ?_
    rw [hmem _ p List.mem_cons_self (hp.mem hb)]
    exact hc

/-- The ancestors of a node are above it. -/
theorem Path.level {x : NodeId} {path : List NodeId} (h : Path t g ℓ x path) (hb : BLink t g) :
    ∀ q ∈ path, ∃ ℓ', ℓ < ℓ' ∧ q ∈ g.chain ℓ' := by
  induction h with
  | root => rintro q ⟨⟩
  | @child ℓ p c path hp hc ih =>
    intro q hq
    rcases List.mem_cons.1 hq with rfl | hq
    · exact ⟨ℓ + 1, Nat.lt_succ_self ℓ, hp.mem hb⟩
    · obtain ⟨ℓ', hℓ, hq⟩ := ih q hq
      exact ⟨ℓ', Nat.lt_of_succ_lt hℓ, hq⟩

/-- A loan leaves both siblings with enough, when the lender had more than that. -/
theorem Lends.wellFormed {x y : NodeId} (hl : Lends t t' x y) (h : Formed t' g')
    (hsame : SameContents t g t' g') (hchain : g'.chain = g.chain) (hcap : 2 ≤ t.cfg.nodeCapacity)
    (hx : t.cfg.nodeCapacity / 2 ≤ (t.nodes x).keys.length + 1)
    (hy : t.cfg.nodeCapacity / 2 < (t.nodes y).keys.length)
    (henough : ∀ z, z ≠ x → EnoughAt t g z) : WellFormed t' g' where
  toFormed := h
  enough z := by
    by_cases hzx : z = x
    · rw [hzx]
      exact .of_half (by rwa [hsame.cfg]) (by rw [hsame.cfg, hl.taker]; exact hx)
    by_cases hzy : z = y
    · rw [hzy]
      refine .of_half (by rwa [hsame.cfg]) ?_
      rw [hsame.cfg]
      exact Nat.le_of_lt_succ (hy.trans_eq hl.lender.symm)
    · refine (henough z hzx).mono hsame.cfg (hl.others z hzx hzy).ge ?_ ?_
      · intro ℓ hz
        rwa [hchain] at hz
      · intro ℓ hz _
        rwa [hchain]

/-- After a merge only the parent may be short. -/
theorem Merged.enough (hm : Merged t t' ℓ p a b) (h : Formed t g)
    (w : Window t g ℓ p a b C D K s K') (hcfg : t'.cfg = t.cfg) (hcap : 2 ≤ t.cfg.nodeCapacity)
    (hfull : t.cfg.nodeCapacity / 2 ≤ (t.nodes a).keys.length + (t.nodes b).keys.length)
    {x : NodeId} (hx : x = a ∨ x = b) (henough : ∀ z, z ≠ x → EnoughAt t g z) :
    ∀ z, z ≠ p → EnoughAt t' (g.erase b) z := by
  intro z hzp
  by_cases hza : z = a
  · rw [hza]
    exact .of_half (by rwa [hcfg]) (by rw [hcfg]; exact hfull.trans hm.survivor)
  by_cases hzb : z = b
  · intro ℓ' hz
    exact absurd hzb (h.mem_chain_erase.1 hz).2
  · refine (henough z (by rcases hx with rfl | rfl <;> assumption)).mono hcfg
      (by rw [hm.keys z hza hzp]) (fun ℓ' hz => (h.mem_chain_erase.1 hz).1) ?_
    intro ℓ' hz _
    show (g.chain ℓ').erase b = [z]
    rw [hz, List.erase_of_not_mem (by simpa using Ne.symm hzb)]

theorem Path.merged {path : List NodeId} (hp : Path t g (ℓ + 1) p path) (h : Formed t g)
    (w : Window t g ℓ p a b C D K s K') (hm : Merged t t' ℓ p a b) (hroot : t'.root = t.root) :
    Path t' (g.erase b) (ℓ + 1) p path := by
  refine hp.congr hroot rfl (fun ℓ' q hq _ => hm.children q ?_ ?_) h.blink
  · rintro rfl
    obtain ⟨ℓ'', hℓ, hq⟩ := hp.level h.blink q hq
    have := h.blink.level_unique _ _ _ hq (w.left_mem h)
    omega
  · rintro rfl
    obtain ⟨ℓ'', hℓ, hq⟩ := hp.level h.blink q hq
    have := h.blink.level_unique _ _ _ hq w.parent_mem
    omega

/-- The parent of an underfull node has another child. -/
theorem Formed.not_alone (h : Formed t g) {x : NodeId} (hp : p ∈ g.chain (ℓ + 1))
    (hkeys : 0 < (t.nodes p).keys.length) : g.chain ℓ ≠ [x] := by
  intro halone
  have hsub : (t.nodes p).children ⊆ [x] := fun y hy => halone ▸ (h.blink.internal ℓ p hp).2.1 y hy
  have hle := ((h.blink.children_nodup hp).subperm hsub).length_le
  rw [h.blink.length_children hp, List.length_singleton] at hle
  omega

/-- A sibling of an underfull node holds enough. -/
theorem EnoughAt.of_sibling {x y : NodeId} (hey : EnoughAt t g y) (hx : x ∈ g.chain ℓ)
    (hy : y ∈ g.chain ℓ) (hxy : x ≠ y) :
    t.cfg.nodeCapacity / 2 ≤ (t.nodes y).keys.length := by
  refine (hey ℓ hy).1.resolve_right fun halone => hxy ?_
  rw [halone] at hx
  exact List.mem_singleton.1 hx

/-- Where `rebalance` stands: only the node `x`, below the ancestors `path`, may be short of
keys, and by one at most. -/
structure Climb (t : BPlusTree) (g : Shape) (ℓ : ℕ) (x : NodeId) (path : List NodeId) : Prop where
  path : Path t g ℓ x path
  formed : Formed t g
  capacity : 2 ≤ t.cfg.nodeCapacity
  enough : ∀ y, y ≠ x → EnoughAt t g y
  short : t.cfg.nodeCapacity / 2 ≤ (t.nodes x).keys.length + 1 ∨ g.chain ℓ = [x]

/-- One round of `rebalance` at the child `x` of `p`, below the ancestors `path`: the tree in the
end, and the calls of `child_position_`. -/
inductive Round (t : BPlusTree) (g : Shape) (ℓ : ℕ) (p x : NodeId) (path : List NodeId) :
    BPlusTree → List (Node × NodeId) → Prop
  | enough : t.cfg.nodeCapacity / 2 ≤ (t.nodes x).keys.length → Round t g ℓ p x path t []
  | right {b : NodeId} {C D : List NodeId} {K K' : List Key} {s : Key} :
      (t.nodes x).keys.length < t.cfg.nodeCapacity / 2 → Window t g ℓ p x b C D K s K' →
      t.cfg.nodeCapacity / 2 < (t.nodes b).keys.length →
      Round t g ℓ p x path (t.borrowFromRight p C.length) [(t.nodes p, x)]
  | left {a : NodeId} {C D : List NodeId} {K K' : List Key} {s : Key} :
      (t.nodes x).keys.length < t.cfg.nodeCapacity / 2 → Window t g ℓ p a x C D K s K' →
      t.cfg.nodeCapacity / 2 < (t.nodes a).keys.length →
      Round t g ℓ p x path (t.borrowFromLeft p (C.length + 1)) [(t.nodes p, x)]
  | merge {a b : NodeId} {C D : List NodeId} {K K' : List Key} {s : Key} :
      (t.nodes x).keys.length < t.cfg.nodeCapacity / 2 → Window t g ℓ p a b C D K s K' →
      (x = a ∧ (t.nodes b).keys.length ≤ t.cfg.nodeCapacity / 2 ∨
        x = b ∧ (t.nodes a).keys.length ≤ t.cfg.nodeCapacity / 2) →
      Round t g ℓ p x path ((t.mergeWithRight p C.length).rebalance path p)
        ((t.nodes p, x) :: (t.mergeWithRight p C.length).rebalanceLookups path p)

theorem Formed.round (h : Formed t g) {x : NodeId} (hp : p ∈ g.chain (ℓ + 1))
    (hc : x ∈ (t.nodes p).children) (hpos : 0 < (t.nodes p).keys.length) (path : List NodeId) :
    Round t g ℓ p x path (t.rebalance (p :: path) x) (t.rebalanceLookups (p :: path) x) := by
  obtain ⟨C, D, hCD⟩ := List.append_of_mem hc
  have hlen := h.blink.length_children hp
  rw [BPlusTree.rebalance, BPlusTree.rebalanceLookups]
  dsimp only
  rw [h.blink.childPosition_eq hp hCD]
  split_ifs with hfull hright hleft hhas
  · exact .enough hfull
  · cases D with
    | nil => simp [hCD] at hright
    | cons d D =>
      obtain ⟨K, s, K', w⟩ := h.window hp hCD
      rw [w.getD_right] at hright
      exact .right (Nat.lt_of_not_le hfull) w hright.2
  · obtain ⟨C, b, rfl⟩ := (List.eq_nil_or_concat' C).resolve_left
      (List.ne_nil_of_length_pos hleft.1)
    rw [List.append_assoc] at hCD
    obtain ⟨K, s, K', w⟩ := h.window hp hCD
    rw [List.length_append, List.length_singleton, Nat.add_sub_cancel, w.getD_left] at hleft
    rw [List.length_append, List.length_singleton]
    exact .left (Nat.lt_of_not_le hfull) w hleft.2
  · cases D with
    | nil => simp [hCD] at hhas
    | cons d D =>
      obtain ⟨K, s, K', w⟩ := h.window hp hCD
      rw [w.getD_right] at hright
      exact .merge (Nat.lt_of_not_le hfull) w
        (.inl ⟨rfl, Nat.le_of_not_lt fun hlt => hright ⟨hhas, hlt⟩⟩)
  · -- the last child of `p` has a left sibling
    rcases List.eq_nil_or_concat' C with rfl | ⟨C, b, rfl⟩
    · simp only [List.length_nil] at hhas
      omega
    · rw [List.append_assoc] at hCD
      obtain ⟨K, s, K', w⟩ := h.window hp hCD
      rw [List.length_append, List.length_singleton, Nat.add_sub_cancel, w.getD_left] at hleft
      rw [List.length_append, List.length_singleton, Nat.add_sub_cancel]
      exact .merge (Nat.lt_of_not_le hfull) w
        (.inr ⟨rfl, Nat.le_of_not_lt fun hlt => hleft ⟨Nat.succ_pos _, hlt⟩⟩)

namespace Climb

variable {x : NodeId} {path : List NodeId}

theorem parent (hc : Climb t g ℓ x (p :: path)) :
    Path t g (ℓ + 1) p path ∧ x ∈ (t.nodes p).children := by
  cases hc.path with
  | child h1 h2 => exact ⟨h1, h2⟩

theorem parent_enough (hc : Climb t g ℓ x (p :: path)) :
    (t.cfg.nodeCapacity / 2 ≤ (t.nodes p).keys.length ∨ g.chain (ℓ + 1) = [p]) ∧
      0 < (t.nodes p).keys.length := by
  have hpm := hc.parent.1.mem hc.formed.blink
  have hxp : p ≠ x := by
    rintro rfl
    exact absurd (hc.formed.blink.level_unique _ _ _ (hc.path.mem hc.formed.blink) hpm) (by omega)
  exact (hc.enough p hxp (ℓ + 1) hpm).imp_right fun hpos => hpos (Nat.succ_pos ℓ)

theorem round (hc : Climb t g ℓ x (p :: path)) :
    Round t g ℓ p x path (t.rebalance (p :: path) x) (t.rebalanceLookups (p :: path) x) :=
  hc.formed.round (hc.parent.1.mem hc.formed.blink) hc.parent.2 hc.parent_enough.2 path

/-- The node below a parent is short by one at most. -/
theorem half_le (hc : Climb t g ℓ x (p :: path)) :
    t.cfg.nodeCapacity / 2 ≤ (t.nodes x).keys.length + 1 :=
  hc.short.resolve_right
    (hc.formed.not_alone (hc.parent.1.mem hc.formed.blink) hc.parent_enough.2)

theorem half_pos (hc : Climb t g ℓ x path) : 0 < t.cfg.nodeCapacity / 2 :=
  Nat.div_pos hc.capacity (by decide)

/-- A merge leaves the rest to the ancestors of `p`. -/
theorem merge (hc : Climb t g ℓ x (p :: path)) (w : Window t g ℓ p a b C D K s K')
    (hx : x = a ∨ x = b) : Climb (t.mergeWithRight p C.length) (g.erase b) (ℓ + 1) p path := by
  have h := hc.formed
  have hxm := hc.path.mem h.blink
  obtain ⟨hf, hsame, hroot, hm⟩ := h.mergeWithRight_spec w
  have hfull : t.cfg.nodeCapacity / 2 ≤ (t.nodes a).keys.length + (t.nodes b).keys.length := by
    rcases hx with rfl | rfl
    · exact ((hc.enough b (w.ne h).symm).of_sibling hxm (w.right_mem h)
        (w.ne h)).trans (Nat.le_add_left _ _)
    · exact ((hc.enough a (w.ne h)).of_sibling hxm (w.left_mem h)
        (w.ne h).symm).trans (Nat.le_add_right _ _)
  refine ⟨hc.parent.1.merged h w hm hroot, hf, by rw [hsame.cfg]; exact hc.capacity,
    hm.enough h w hsame.cfg hc.capacity hfull hx hc.enough, ?_⟩
  rw [hsame.cfg, hm.parent, w.erase_other h (Nat.succ_ne_self ℓ)]
  exact hc.parent_enough.1

end Climb

/-- `rebalance` restores the minimum fill when only the node it starts at may be short by one. -/
theorem Formed.rebalance_spec : ∀ (path : List NodeId) {t : BPlusTree} {g : Shape} {ℓ : ℕ}
    {x : NodeId}, Path t g ℓ x path → Formed t g → 2 ≤ t.cfg.nodeCapacity →
    (∀ y, y ≠ x → EnoughAt t g y) →
    (t.cfg.nodeCapacity / 2 ≤ (t.nodes x).keys.length + 1 ∨ g.chain ℓ = [x]) →
    ∃ g', WellFormed (t.rebalance path x) g' ∧ SameContents t g (t.rebalance path x) g' := by
  intro path
  induction path with
  | nil =>
    intro t g ℓ x hp h hcap henough _
    cases hp
    rw [BPlusTree.rebalance]
    split_ifs with hempty
    · obtain ⟨hleaf, hkeys⟩ : (t.nodes t.root).isLeaf = false ∧ (t.nodes t.root).keys = [] := by
        simpa using hempty
      obtain ⟨hf, hsame, hk⟩ := h.collapseRoot_spec hleaf hkeys
      refine ⟨g.shrink, ⟨hf, fun z => ?_⟩, hsame⟩
      by_cases hz : z = t.root
      · intro ℓ hz'
        obtain ⟨hℓ, hz'⟩ := mem_chain_shrink.1 hz'
        rw [hz] at hz'
        exact absurd (h.blink.level_unique _ _ _ hz' h.blink.root_mem) hℓ
      · refine (henough z hz).mono hsame.cfg (hk z ▸ le_rfl)
          (fun ℓ hz' => (mem_chain_shrink.1 hz').2) fun ℓ hz' hm => ?_
        rw [chain_shrink, if_neg (mem_chain_shrink.1 hm).1, hz']
    · refine ⟨g, ⟨h, fun z => ?_⟩, .refl t g⟩
      by_cases hz : z = t.root
      · subst hz
        intro ℓ hz
        obtain rfl := h.blink.level_unique _ _ _ hz h.blink.root_mem
        refine ⟨.inr h.root_alone, fun hpos => ?_⟩
        obtain ⟨m, hm⟩ := Nat.exists_eq_succ_of_ne_zero hpos.ne'
        rw [hm] at hz
        rw [(h.blink.internal m _ hz).1] at hempty
        exact List.length_pos_of_ne_nil (by simpa using hempty)
      · exact henough z hz
  | cons p path ih =>
    intro t g ℓ x hp h hcap henough hshort
    -- one round: it is enough, a sibling lends, or two merge and the parent is short
    have hc : Climb t g ℓ x (p :: path) := ⟨hp, h, hcap, henough, hshort⟩
    have hhalf := hc.half_pos
    generalize ht' : t.rebalance (p :: path) x = t'
    generalize hls : t.rebalanceLookups (p :: path) x = ls
    have hround : Round t g ℓ p x path t' ls := ht' ▸ hls ▸ hc.round
    cases hround with
    | enough hfull =>
      refine ⟨g, ⟨h, fun z => ?_⟩, .refl t g⟩
      by_cases hz : z = x
      · rw [hz]
        exact .of_half hcap hfull
      · exact henough z hz
    | right hx w hy =>
      obtain ⟨g', hf, hchain, hsame, hl⟩ := h.borrowFromRight_spec w (by omega)
      exact ⟨g', hl.wellFormed hf hsame hchain hcap hc.half_le hy henough, hsame⟩
    | left hx w hy =>
      obtain ⟨g', hf, hchain, hsame, hl⟩ := h.borrowFromLeft_spec w (by omega)
      exact ⟨g', hl.wellFormed hf hsame hchain hcap hc.half_le hy henough, hsame⟩
    | merge hx w hab =>
      obtain ⟨-, hsame, -⟩ := h.mergeWithRight_spec w
      have hm := hc.merge w (hab.imp And.left And.left)
      obtain ⟨g', hwf, hsame'⟩ := ih hm.path hm.formed hm.capacity hm.enough hm.short
      exact ⟨g', hwf, hsame.trans hsame'⟩

/-! ### Taking the entry out -/

theorem eraseEntry_cur (cur : NodeId) (pos : ℕ) : (t.eraseEntry cur pos).nodes cur =
    { t.nodes cur with
      keys := (t.nodes cur).keys.eraseIdx pos, values := (t.nodes cur).values.eraseIdx pos } := by
  simp [BPlusTree.eraseEntry]

theorem eraseEntry_edits (t : BPlusTree) (cur : NodeId) (pos : ℕ) :
    EditsLeaf t (t.eraseEntry cur pos) cur :=
  ⟨rfl, rfl, by rw [eraseEntry_cur], fun x hx => by simp [BPlusTree.eraseEntry, hx]⟩

theorem LeafOk.eraseEntry {cur : NodeId} {pos : ℕ} {low : Option Key}
    (h : LeafOk (t.nodes cur) low) : LeafOk ((t.eraseEntry cur pos).nodes cur) low := by
  have hsub := (t.nodes cur).keys.eraseIdx_sublist pos
  rw [eraseEntry_cur]
  refine ⟨?_, h.sorted.sublist hsub, fun k hk => h.low_le k (hsub.subset hk),
    fun k hk => h.le_high k (hsub.subset hk), h.bounds⟩
  simp only [List.length_eraseIdx, h.parallel]

theorem eraseEntry_entries {cur : NodeId} {pos : ℕ} {e : Entry}
    (hl : (t.nodes cur).values.length = (t.nodes cur).keys.length)
    (he : (t.nodes cur).entries[pos]? = some e) :
    ((t.nodes cur).entries : Multiset Entry) =
      e ::ₘ ↑((t.eraseEntry cur pos).nodes cur).entries := by
  obtain ⟨hlt, hget⟩ := List.getElem?_eq_some_iff.1 he
  have hlt' : pos < (t.nodes cur).keys.length := (List.getElem?_eq_some_iff.1
    (getElem?_entries.1 he).1).1
  have hzip : ((t.eraseEntry cur pos).nodes cur).entries = (t.nodes cur).entries.eraseIdx pos := by
    rw [eraseEntry_cur]
    simp only [Node.entries, List.eraseIdx_eq_take_drop_succ]
    rw [List.zip_append (by simp [hl])]
    simp only [List.zip, List.take_zipWith, List.drop_zipWith]
  rw [hzip, ← hget, Multiset.cons_coe, Multiset.coe_eq_coe]
  exact (List.getElem_cons_eraseIdx_perm hlt).symm

/-- Without one of its entries a leaf is where a climb begins. -/
theorem WellFormed.eraseEntry (h : WellFormed t g) (hcap : 2 ≤ t.cfg.nodeCapacity)
    {leaf : NodeId} {path : List NodeId} (hp : Path t g 0 leaf path) (pos : ℕ) :
    Climb (t.eraseEntry leaf pos) g 0 leaf path := by
  have hleaf := hp.mem h.blink
  have hok := (h.blink.leaf leaf hleaf).2
  have hedit := eraseEntry_edits t leaf pos
  set t₁ := t.eraseEntry leaf pos with ht₁
  have hlen : (t.nodes leaf).keys.length ≤ (t₁.nodes leaf).keys.length + 1 := by
    rw [ht₁, eraseEntry_cur]
    simp only [List.length_eraseIdx]
    split_ifs <;> omega
  constructor
  case path => exact hp.congr rfl rfl (fun _ q _ _ => (hedit.fields q).2.1) h.blink
  case formed =>
    refine ⟨hedit.bLink h.blink hleaf hok.eraseEntry, fun ℓ hℓ => ?_, h.root_alone, ?_⟩
    · simpa only [childrenOf, (hedit.fields _).2.1] using h.below ℓ hℓ
    · simpa only [(hedit.fields _).2.2.2.2] using h.hinted
  case capacity => exact hcap
  case enough =>
    exact fun y hy => (h.enough y).mono rfl (by rw [hedit.others y hy]) (fun _ hy => hy)
      fun _ halone _ => halone
  case short => exact (h.enough leaf 0 hleaf).1.imp_left hlen.trans'

/-- `remove` takes out exactly one copy of the pair, and says whether there was one. -/
theorem WellFormed.remove_spec (h : WellFormed t g) (hcap : 2 ≤ t.cfg.nodeCapacity) (key : Key)
    (id : InternalId) : ∃ t' g', (∀ fuel, t.count < fuel →
      t.remove fuel key id = some (t', decide ((key, id) ∈ entriesOf t (g.chain 0)))) ∧
    WellFormed t' g' ∧ t'.cfg = t.cfg ∧ t'.count = t.count ∧
    entriesOf t' (g'.chain 0) = (entriesOf t (g.chain 0)).erase (key, id) ∧
    t'.size = if (key, id) ∈ entriesOf t (g.chain 0) then t.size - 1 else t.size := by
  rcases h.remove_cases hcap key id with ⟨leaf, path, pos, hp, hpos, hrem⟩ | ⟨hnot, hrem⟩
  · have hleaf := hp.mem h.blink
    have hmem : (key, id) ∈ entriesOf t (g.chain 0) :=
      mem_entriesOf.2 ⟨leaf, hleaf, List.mem_of_getElem? hpos⟩
    have hcont : entriesOf (t.eraseEntry leaf pos) (g.chain 0) =
        (entriesOf t (g.chain 0)).erase (key, id) := by
      have hadd := (eraseEntry_edits t leaf pos).entriesOf_add hleaf (h.blink.nodup 0)
      rw [eraseEntry_entries (h.blink.leaf leaf hleaf).2.parallel hpos, Multiset.add_cons,
        ← Multiset.cons_add] at hadd
      rw [← add_right_cancel hadd, Multiset.erase_cons_head]
    have hc := h.eraseEntry hcap hp pos
    obtain ⟨g', hwf, hsame⟩ :=
      Formed.rebalance_spec path hc.path hc.formed hc.capacity hc.enough hc.short
    refine ⟨_, g', fun fuel hf => by rw [hrem fuel hf, decide_eq_true hmem], hwf, hsame.cfg,
      hsame.count, ?_, ?_⟩
    · rw [hsame.contents, hcont]
    · rw [hsame.size, if_pos hmem]
      rfl
  · refine ⟨t, g, fun fuel hf => by rw [hrem fuel hf, decide_eq_false hnot], h, rfl, rfl, ?_,
      by rw [if_neg hnot]⟩
    rw [Multiset.erase_of_notMem hnot]

end BTree

end Vdb
