import Vdb.BTree.WellFormed

/-!
# Changing two siblings

Rebalancing works on two neighbouring children `a`, `b` of one node `p` (`Window`).  It either
moves the boundary between them (`Shifts`, what both borrows do on both kinds of nodes) or joins
`b` into `a` (`Joins`).  Either way the tree stays formed, provided the new contents of the
siblings fit their places.
-/

namespace Vdb

namespace BTree

/-- `a`, `b` are neighbouring children of `p`, with the separator `s` between them. -/
structure Window (t : BPlusTree) (g : Shape) (ℓ : ℕ) (p a b : NodeId) (C D : List NodeId)
    (K : List Key) (s : Key) (K' : List Key) : Prop where
  parent_mem : p ∈ g.chain (ℓ + 1)
  children : (t.nodes p).children = C ++ a :: b :: D
  keys : (t.nodes p).keys = K ++ s :: K'
  length : K.length = C.length

variable {t t' : BPlusTree} {g : Shape} {ℓ : ℕ} {p a b : NodeId} {C D : List NodeId}
  {K K' : List Key} {s s' : Key}

theorem Formed.window (h : Formed t g) (hp : p ∈ g.chain (ℓ + 1))
    (hc : (t.nodes p).children = C ++ a :: b :: D) : ∃ K s K', Window t g ℓ p a b C D K s K' := by
  have hlen := h.blink.length_children hp
  rw [hc, List.length_append, List.length_cons, List.length_cons] at hlen
  have hk : C.length < (t.nodes p).keys.length := by omega
  refine ⟨(t.nodes p).keys.take C.length, (t.nodes p).keys[C.length],
    (t.nodes p).keys.drop (C.length + 1), hp, hc, ?_, List.length_take_of_le hk.le⟩
  rw [List.cons_getElem_drop_succ, List.take_append_drop]

namespace Window

variable (w : Window t g ℓ p a b C D K s K') (h : Formed t g)

include w h

theorem left_mem : a ∈ g.chain ℓ :=
  (h.blink.internal ℓ p w.parent_mem).2.1 a (by rw [w.children]; simp)

theorem right_mem : b ∈ g.chain ℓ :=
  (h.blink.internal ℓ p w.parent_mem).2.1 b (by rw [w.children]; simp)

theorem chain_eq : ∃ A B, g.chain ℓ = A ++ a :: b :: B :=
  h.chain_siblings w.parent_mem w.children

theorem joined : Joined t g a b :=
  h.joined_siblings w.parent_mem w.children

theorem children_nodup : (C ++ a :: b :: D).Nodup :=
  w.children ▸ h.blink.children_nodup w.parent_mem

theorem ne : a ≠ b := fun he => by
  have := (List.nodup_cons.1 (List.nodup_append.1 (w.children_nodup h)).2.1).1
  exact this (by rw [he]; exact List.mem_cons_self)

theorem left_ne_parent : a ≠ p := fun he =>
  absurd (h.blink.level_unique _ _ _ (w.left_mem h) (he ▸ w.parent_mem)) (by omega)

theorem right_ne_parent : b ≠ p := fun he =>
  absurd (h.blink.level_unique _ _ _ (w.right_mem h) (he ▸ w.parent_mem)) (by omega)

/-- The lower ends of the children left and right of the boundary. -/
theorem map_low : (C ++ [a]).map g.low = g.low p :: K.map some ∧
    (b :: D).map g.low = some s :: K'.map some := by
  have hmap := (h.blink.internal ℓ p w.parent_mem).2.2
  rw [w.children, w.keys] at hmap
  have hcut : (C ++ [a]).map g.low ++ (b :: D).map g.low =
      (g.low p :: K.map some) ++ (some s :: K'.map some) := by simpa using hmap
  exact List.append_inj hcut (by simp [w.length])

theorem low_right : g.low b = some s :=
  (List.cons.inj (w.map_low h).2).1

theorem right_notMem : b ∉ C ∧ b ∉ D := by
  have hn := w.children_nodup h
  obtain ⟨-, h2, h3⟩ := List.nodup_append.1 hn
  exact ⟨fun hm => h3 b hm b (by simp) rfl,
    (List.nodup_cons.1 (List.nodup_cons.1 h2).2).1⟩

/-- `b` is the child of no other node. -/
theorem right_child_iff {ℓ' : ℕ} {x : NodeId} (hx : x ∈ g.chain (ℓ' + 1)) :
    b ∈ (t.nodes x).children → x = p := by
  intro hm
  obtain rfl := h.blink.level_unique _ _ _ (w.right_mem h) ((h.blink.internal ℓ' x hx).2.1 b hm)
  exact h.blink.parent_unique hx w.parent_mem hm (by rw [w.children]; simp)

end Window

/-- Only one node of a level links to a given one. -/
theorem BLink.link_inj (hb : BLink t g) {ℓ : ℕ} {x y z : NodeId} (hx : x ∈ g.chain ℓ)
    (hy : y ∈ g.chain ℓ) (hxz : (t.nodes x).rightLink = some z)
    (hyz : (t.nodes y).rightLink = some z) : x = y := by
  have hcut : ∀ x ∈ g.chain ℓ, (t.nodes x).rightLink = some z →
      ∃ A B, g.chain ℓ = (A ++ [x]) ++ z :: B := by
    intro x hx hlink
    obtain ⟨A, B, hd⟩ := List.append_of_mem hx
    rcases hb.next hd with ⟨-, hnone, -⟩ | ⟨w, B', rfl, hlink', -⟩
    · rw [hlink] at hnone
      cases hnone
    · rw [hlink] at hlink'
      cases hlink'
      exact ⟨A, B', by rw [hd]; simp⟩
  obtain ⟨A, B, h1⟩ := hcut x hx hxz
  obtain ⟨A', B', h2⟩ := hcut y hy hyz
  obtain ⟨he, -⟩ := ListEdit.cut_unique (h1.symm.trans h2) (h1 ▸ hb.nodup ℓ)
  exact (List.append_inj' he rfl).2 |> List.singleton_inj.1

/-! ### Moving the boundary -/

/-- `t'` is `t` with the boundary between `a` and `b` moved to `s'`; the children `moved` now
belong to `owner`. -/
structure Shifts (t t' : BPlusTree) (p a b : NodeId) (K : List Key) (s' : Key) (K' : List Key)
    (moved : List NodeId) (owner : NodeId) : Prop where
  count : t'.count = t.count
  root : t'.root = t.root
  parent : t'.nodes p = { t.nodes p with
    keys := K ++ s' :: K', parentHint := (t'.nodes p).parentHint }
  left : (t'.nodes a).isLeaf = (t.nodes a).isLeaf ∧
    (t'.nodes a).rightLink = (t.nodes a).rightLink ∧ (t'.nodes a).highKey = some s'
  right : (t'.nodes b).isLeaf = (t.nodes b).isLeaf ∧
    (t'.nodes b).rightLink = (t.nodes b).rightLink ∧ (t'.nodes b).highKey = (t.nodes b).highKey
  children : (t'.nodes a).children ++ (t'.nodes b).children =
    (t.nodes a).children ++ (t.nodes b).children
  hint : ∀ x, (t'.nodes x).parentHint = if x ∈ moved then some owner else (t.nodes x).parentHint
  stay : ∀ c, c ∉ moved → (c ∈ (t'.nodes a).children ↔ c ∈ (t.nodes a).children) ∧
    (c ∈ (t'.nodes b).children ↔ c ∈ (t.nodes b).children)
  owner_mem : owner = a ∨ owner = b
  moved_mem : ∀ c ∈ moved, c ∈ (t'.nodes owner).children
  others : ∀ x, x ≠ a → x ≠ b → x ≠ p →
    t'.nodes x = { t.nodes x with parentHint := (t'.nodes x).parentHint }

/-- The shape with the new boundary. -/
def Shape.shift (g : Shape) (b : NodeId) (s' : Key) : Shape :=
  { g with low := Function.update g.low b (some s') }

theorem low_shift_ne {g : Shape} {b x : NodeId} {s' : Key} (hx : x ≠ b) :
    (g.shift b s').low x = g.low x :=
  Function.update_of_ne hx _ _

theorem low_shift (g : Shape) (b x : NodeId) (s' : Key) :
    (g.shift b s').low x = if x = b then some s' else g.low x :=
  Function.update_apply _ _ _ _

/-- What the siblings must satisfy at level `ℓ` after the boundary has moved. -/
def Shifts.SiblingsOk (t' : BPlusTree) (g : Shape) (a b : NodeId) (s' : Key) : ℕ → Prop
  | 0 => LeafOk (t'.nodes a) (g.low a) ∧ LeafOk (t'.nodes b) (some s')
  | _ + 1 =>
    (t'.nodes a).children.map (g.shift b s').low = g.low a :: (t'.nodes a).keys.map some ∧
    (t'.nodes b).children.map (g.shift b s').low = some s' :: (t'.nodes b).keys.map some

namespace Shifts

variable {moved : List NodeId} {owner : NodeId} (hs : Shifts t t' p a b K s' K' moved owner)
  (w : Window t g ℓ p a b C D K s K') (h : Formed t g)

include hs

theorem children_ne {x : NodeId} (ha : x ≠ a) (hb : x ≠ b) :
    (t'.nodes x).children = (t.nodes x).children := by
  by_cases hp : x = p
  · rw [hp, hs.parent]
  · rw [hs.others x ha hb hp]

theorem rightLink_eq (x : NodeId) : (t'.nodes x).rightLink = (t.nodes x).rightLink := by
  by_cases ha : x = a
  · rw [ha, hs.left.2.1]
  by_cases hb : x = b
  · rw [hb, hs.right.2.1]
  by_cases hp : x = p
  · rw [hp, hs.parent]
  · rw [hs.others x ha hb hp]

theorem leads {ℓ' : ℕ} {c x : NodeId} (hc : c ∉ moved) (hl : Leads t g ℓ' c x) :
    Leads t' (g.shift b s') ℓ' c x := by
  obtain ⟨hx, q, hq, hw⟩ := hl
  refine ⟨by rw [hs.count]; exact hx, q, hq, hw.congr (fun _ => True) (fun _ _ _ _ => trivial)
    (fun x _ => hs.rightLink_eq x) (fun x _ => ?_) trivial⟩
  by_cases ha : x = a
  · rw [ha]
    exact (hs.stay c hc).1
  by_cases hb : x = b
  · rw [hb]
    exact (hs.stay c hc).2
  · rw [hs.children_ne ha hb]

include w h

theorem childrenOf_eq (ℓ' : ℕ) : childrenOf t' (g.shift b s') ℓ' = childrenOf t g ℓ' := by
  obtain ⟨A, B, hd⟩ := w.chain_eq h
  by_cases hℓ : ℓ' + 1 = ℓ
  · have hn := h.blink.nodup ℓ
    show ((g.chain (ℓ' + 1)).flatMap _) = (g.chain (ℓ' + 1)).flatMap _
    rw [hℓ, hd]
    rw [hd] at hn
    exact ListEdit.flatMap_pair hn (fun x _ ha hb => hs.children_ne ha hb) hs.children
  · refine List.flatMap_congr fun x hx => hs.children_ne ?_ ?_
    · rintro rfl
      exact hℓ (h.blink.level_unique _ _ _ hx (w.left_mem h))
    · rintro rfl
      exact hℓ (h.blink.level_unique _ _ _ hx (w.right_mem h))

theorem threaded (ℓ' : ℕ) : Spine.Threaded (Joined t' (g.shift b s')) (Unbounded t')
    (g.chain ℓ') := by
  have hlink := (w.joined h).1
  have hhigh : ∀ x, x ≠ a → (t'.nodes x).highKey = (t.nodes x).highKey := by
    intro x ha
    by_cases hb : x = b
    · rw [hb, hs.right.2.2]
    by_cases hp : x = p
    · rw [hp, hs.parent]
    · rw [hs.others x ha hb hp]
  refine (h.blink.threaded ℓ').mono ?_ ?_
  · rintro x hx y hy ⟨h1, v, h2, h3⟩
    rw [Joined, hs.rightLink_eq]
    by_cases hxa : x = a
    · subst hxa
      obtain rfl : b = y := by rw [h1] at hlink; simpa using hlink.symm
      exact ⟨h1, s', by rw [low_shift, if_pos rfl], hs.left.2.2⟩
    · have hyb : y ≠ b := by
        rintro rfl
        have hℓ := h.blink.level_unique _ _ _ hy (w.right_mem h)
        exact hxa (h.blink.link_inj hx (hℓ ▸ w.left_mem h) h1 hlink)
      exact ⟨h1, v, by rw [low_shift_ne hyb, h2], by rw [hhigh x hxa, h3]⟩
  · rintro x hx ⟨h1, h2⟩
    have hxa : x ≠ a := by
      rintro rfl
      rw [hlink] at h1
      cases h1
    exact ⟨by rw [hs.rightLink_eq, h1], by rw [hhigh x hxa, h2]⟩

/-- The children of both siblings were children of the two. -/
theorem mem_below {ℓ' : ℕ} (hℓ : ℓ = ℓ' + 1) {c : NodeId}
    (hc : c ∈ (t'.nodes a).children ∨ c ∈ (t'.nodes b).children) : c ∈ g.chain ℓ' := by
  subst hℓ
  rw [← List.mem_append, hs.children, List.mem_append] at hc
  rcases hc with hc | hc
  · exact (h.blink.internal ℓ' a (w.left_mem h)).2.1 c hc
  · exact (h.blink.internal ℓ' b (w.right_mem h)).2.1 c hc

theorem internal (hok : SiblingsOk t' g a b s' ℓ) (ℓ' : ℕ) (x : NodeId)
    (hx : x ∈ g.chain (ℓ' + 1)) : (t'.nodes x).isLeaf = false ∧
      (∀ c ∈ (t'.nodes x).children, c ∈ g.chain ℓ') ∧
      (t'.nodes x).children.map (g.shift b s').low =
        (g.shift b s').low x :: (t'.nodes x).keys.map some := by
  obtain ⟨h1, h2, h3⟩ := h.blink.internal ℓ' x hx
  by_cases hxa : x = a
  · subst hxa
    obtain rfl := h.blink.level_unique _ _ _ hx (w.left_mem h)
    rw [hs.left.1, low_shift_ne (w.ne h)]
    exact ⟨h1, fun c hc => hs.mem_below w h rfl (.inl hc), hok.1⟩
  by_cases hxb : x = b
  · subst hxb
    obtain rfl := h.blink.level_unique _ _ _ hx (w.right_mem h)
    rw [hs.right.1, low_shift, if_pos rfl]
    exact ⟨h1, fun c hc => hs.mem_below w h rfl (.inr hc), hok.2⟩
  rw [low_shift_ne hxb]
  by_cases hxp : x = p
  · subst hxp
    obtain ⟨hleft, hright⟩ := w.map_low h
    obtain ⟨hbC, hbD⟩ := w.right_notMem h
    have hC : (C ++ [a]).map (g.shift b s').low = (C ++ [a]).map g.low := by
      refine List.map_congr_left fun c hc => low_shift_ne ?_
      rintro rfl
      rcases List.mem_append.1 hc with hc | hc
      · exact hbC hc
      · exact w.ne h (List.mem_singleton.1 hc).symm
    have hD : D.map (g.shift b s').low = D.map g.low := List.map_congr_left fun c hc =>
      low_shift_ne fun he => hbD (he ▸ hc)
    rw [List.map_cons] at hright
    rw [hs.parent]
    refine ⟨h1, h2, ?_⟩
    dsimp only
    rw [w.children, List.append_cons, List.map_append, hC, hleft, List.map_cons, low_shift,
      if_pos rfl, hD, (List.cons.inj hright).2]
    simp
  · rw [hs.others x hxa hxb hxp]
    refine ⟨h1, h2, ?_⟩
    rw [← h3]
    refine List.map_congr_left fun c hc => low_shift_ne ?_
    rintro rfl
    exact hxp (w.right_child_iff h hx hc)

theorem leaf (hok : SiblingsOk t' g a b s' ℓ) (x : NodeId) (hx : x ∈ g.chain 0) :
    (t'.nodes x).isLeaf = true ∧ LeafOk (t'.nodes x) ((g.shift b s').low x) := by
  obtain ⟨h1, h2⟩ := h.blink.leaf x hx
  by_cases hxa : x = a
  · subst hxa
    obtain rfl := h.blink.level_unique _ _ _ hx (w.left_mem h)
    rw [hs.left.1, low_shift_ne (w.ne h)]
    exact ⟨h1, hok.1⟩
  by_cases hxb : x = b
  · subst hxb
    obtain rfl := h.blink.level_unique _ _ _ hx (w.right_mem h)
    rw [hs.right.1, low_shift, if_pos rfl]
    exact ⟨h1, hok.2⟩
  have hxp : x ≠ p := by
    rintro rfl
    cases h.blink.level_unique _ _ _ hx w.parent_mem
  rw [low_shift_ne hxb, hs.others x hxa hxb hxp]
  obtain ⟨h3, h4, h5, h6, h7⟩ := h2
  exact ⟨h1, h3, h4, h5, h6, h7⟩

/-- Moving the boundary between two siblings keeps the tree formed. -/
theorem formed (hok : SiblingsOk t' g a b s' ℓ) (hm : ℓ = 0 → moved = []) :
    Formed t' (g.shift b s') where
  blink := {
    above := h.blink.above
    root_head := by rw [hs.root]; exact h.blink.root_head
    nodup := h.blink.nodup
    level_unique := h.blink.level_unique
    lt_count := fun ℓ' x hx => by rw [hs.count]; exact h.blink.lt_count ℓ' x hx
    link_lt := fun i j hij => by
      rw [hs.rightLink_eq] at hij
      rw [hs.count]
      exact h.blink.link_lt i j hij
    head_low := fun ℓ' x hx => by
      rw [low_shift_ne]
      · exact h.blink.head_low ℓ' x hx
      · -- the right one of two siblings is not the first of its level
        rintro rfl
        have hnone := h.blink.head_low ℓ' x hx
        rw [w.low_right h] at hnone
        cases hnone
    threaded := hs.threaded w h
    leaf := hs.leaf w h hok
    internal := hs.internal w h hok
    parents := fun ℓ' => by
      have := hs.childrenOf_eq w h ℓ'
      unfold childrenOf at this
      rw [this]
      exact h.blink.parents ℓ'
    hints := fun ℓ' x hx y hy => by
      rw [hs.hint] at hy
      split_ifs at hy with hx'
      · obtain rfl : owner = y := by simpa using hy
        have hown : owner ∈ g.chain ℓ := by
          rcases hs.owner_mem with he | he
          · exact he ▸ w.left_mem h
          · exact he ▸ w.right_mem h
        have hchild := hs.moved_mem x hx'
        refine ⟨by rw [hs.count]; exact h.blink.lt_count _ _ hown, owner, ?_, .here hchild⟩
        cases ℓ with
        | zero =>
          rw [hm rfl] at hx'
          cases hx'
        | succ k =>
          have hxk : x ∈ g.chain k := hs.mem_below w h rfl (by
            rcases hs.owner_mem with he | he
            · exact .inl (he ▸ hchild)
            · exact .inr (he ▸ hchild))
          rw [h.blink.level_unique _ _ _ hx hxk]
          exact hown
      · exact hs.leads hx' (h.blink.hints ℓ' x hx y hy) }
  below ℓ' hℓ' := (hs.childrenOf_eq w h ℓ').trans (h.below ℓ' hℓ')
  root_alone := by rw [hs.root]; exact h.root_alone
  hinted ℓ' hℓ' x hx := by
    rw [hs.hint]
    split_ifs
    · exact Option.some_ne_none _
    · exact h.hinted ℓ' hℓ' x hx

/-- The pairs of the siblings stay between them. -/
theorem contents (he : ℓ = 0 → (t'.nodes a).entries ++ (t'.nodes b).entries =
    (t.nodes a).entries ++ (t.nodes b).entries) :
    entriesOf t' (g.chain 0) = entriesOf t (g.chain 0) := by
  have hold : ∀ x ∈ g.chain 0, x ≠ a → x ≠ b → (t'.nodes x).entries = (t.nodes x).entries := by
    intro x hx ha hb
    have hp : x ≠ p := by
      rintro rfl
      cases h.blink.level_unique _ _ _ hx w.parent_mem
    rw [hs.others x ha hb hp]
    rfl
  cases ℓ with
  | zero =>
    obtain ⟨A, B, hd⟩ := w.chain_eq h
    have hn := h.blink.nodup 0
    rw [hd] at hn hold ⊢
    exact congrArg _ (ListEdit.flatMap_pair hn hold (he rfl))
  | succ k =>
    refine entriesOf_congr fun x hx => hold x hx ?_ ?_
    · rintro rfl
      cases h.blink.level_unique _ _ _ hx (w.left_mem h)
    · rintro rfl
      cases h.blink.level_unique _ _ _ hx (w.right_mem h)

end Shifts

/-! ### Joining two siblings -/

/-- `t'` is `t` with `b` joined into `a`, which takes over the children `absorbed`. -/
structure Joins (t t' : BPlusTree) (p a b : NodeId) (C D : List NodeId) (K K' : List Key)
    (absorbed : List NodeId) : Prop where
  count : t'.count = t.count
  root : t'.root = t.root
  parent : t'.nodes p = { t.nodes p with
    keys := K ++ K', children := C ++ a :: D, parentHint := (t'.nodes p).parentHint }
  left : (t'.nodes a).isLeaf = (t.nodes a).isLeaf ∧
    (t'.nodes a).rightLink = (t.nodes b).rightLink ∧
    (t'.nodes a).highKey = (t.nodes b).highKey ∧
    (t'.nodes a).children = (t.nodes a).children ++ absorbed
  hint : ∀ x, (t'.nodes x).parentHint = if x ∈ absorbed then some a else (t.nodes x).parentHint
  others : ∀ x, x ≠ a → x ≠ p →
    t'.nodes x = { t.nodes x with parentHint := (t'.nodes x).parentHint }

/-- The shape without `b`. -/
def Shape.erase (g : Shape) (b : NodeId) : Shape :=
  { g with chain := fun ℓ => (g.chain ℓ).erase b }

/-- What the joined node must satisfy at level `ℓ`. -/
def Joins.NodeOk (t t' : BPlusTree) (g : Shape) (a b : NodeId) (absorbed : List NodeId) : ℕ → Prop
  | 0 => LeafOk (t'.nodes a) (g.low a) ∧ absorbed = []
  | _ + 1 => absorbed = (t.nodes b).children ∧
    (t'.nodes a).children.map g.low = g.low a :: (t'.nodes a).keys.map some

theorem Formed.mem_chain_erase (h : Formed t g) {ℓ' : ℕ} {x : NodeId} :
    x ∈ (g.erase b).chain ℓ' ↔ x ∈ g.chain ℓ' ∧ x ≠ b := by
  rw [show (g.erase b).chain ℓ' = (g.chain ℓ').erase b from rfl, (h.blink.nodup ℓ').mem_erase_iff]
  exact and_comm

theorem Window.erase_cut (w : Window t g ℓ p a b C D K s K') (h : Formed t g) :
    ∃ A B, g.chain ℓ = A ++ a :: b :: B ∧ (g.erase b).chain ℓ = A ++ a :: B := by
  obtain ⟨A, B, hd⟩ := w.chain_eq h
  refine ⟨A, B, hd, ?_⟩
  have hn := h.blink.nodup ℓ
  rw [hd] at hn
  have hbA : b ∉ A := fun hm => (List.nodup_append.1 hn).2.2 b hm b (by simp) rfl
  show (g.chain ℓ).erase b = _
  rw [hd, List.erase_append_right _ hbA, List.erase_cons_tail (by simpa using w.ne h),
    List.erase_cons_head]

theorem Window.erase_other (w : Window t g ℓ p a b C D K s K') (h : Formed t g) {ℓ' : ℕ}
    (hℓ : ℓ' ≠ ℓ) : (g.erase b).chain ℓ' = g.chain ℓ' :=
  List.erase_of_not_mem fun hm => hℓ (h.blink.level_unique _ _ _ hm (w.right_mem h))

namespace Joins

variable {absorbed : List NodeId} (hs : Joins t t' p a b C D K K' absorbed)
  (w : Window t g ℓ p a b C D K s K') (h : Formed t g)

include hs

theorem children_other {x : NodeId} (ha : x ≠ a) (hp : x ≠ p) :
    (t'.nodes x).children = (t.nodes x).children := by
  rw [hs.others x ha hp]

include w h

/-- The children of a level lose `b` and keep their order. -/
theorem childrenOf_eq (hok : NodeOk t t' g a b absorbed ℓ) (ℓ' : ℕ) :
    childrenOf t' (g.erase b) ℓ' = (childrenOf t g ℓ').erase b := by
  by_cases hℓ : ℓ' + 1 = ℓ
  · -- the children of `b` are now the last children of `a`
    subst hℓ
    obtain ⟨A, B, hd, hd'⟩ := w.erase_cut h
    have hn := h.blink.nodup (ℓ' + 1)
    have hpn : ∀ x ∈ g.chain (ℓ' + 1), x ≠ p := by
      rintro x hx rfl
      exact absurd (h.blink.level_unique _ _ _ hx w.parent_mem) (Nat.lt_succ_self _).ne
    have hb : b ∉ childrenOf t g ℓ' := by
      intro hm
      obtain ⟨q, hq, hm⟩ := mem_childrenOf.1 hm
      exact hpn q hq (w.right_child_iff h hq hm)
    rw [List.erase_of_not_mem hb]
    show ((g.erase b).chain (ℓ' + 1)).flatMap _ = (g.chain (ℓ' + 1)).flatMap _
    rw [hd']
    rw [hd] at hn hpn ⊢
    exact ListEdit.flatMap_join hn (fun x hx ha _ => hs.children_other ha (hpn x hx))
      (by rw [hs.left.2.2.2, hok.1])
  · have hsame : ∀ x ∈ g.chain (ℓ' + 1), x ≠ a ∧ x ≠ b := by
      intro x hx
      constructor
      · rintro rfl
        exact hℓ (h.blink.level_unique _ _ _ hx (w.left_mem h))
      · rintro rfl
        exact hℓ (h.blink.level_unique _ _ _ hx (w.right_mem h))
    have herase : ∀ x ∈ g.chain (ℓ' + 1), (t'.nodes x).children = (t.nodes x).children.erase b := by
      intro x hx
      by_cases hxp : x = p
      · subst hxp
        obtain ⟨hbC, -⟩ := w.right_notMem h
        rw [hs.parent, w.children, List.erase_append_right _ hbC,
          List.erase_cons_tail (by simpa using w.ne h), List.erase_cons_head]
      · rw [hs.children_other (hsame x hx).1 hxp, List.erase_of_not_mem fun hm =>
          hxp (w.right_child_iff h hx hm)]
    have hn : ∀ xs : List NodeId, (∀ x ∈ xs, x ∈ g.chain (ℓ' + 1)) →
        (xs.flatMap fun x => (t.nodes x).children).Nodup →
        xs.flatMap (fun x => (t'.nodes x).children) =
          (xs.flatMap fun x => (t.nodes x).children).erase b := by
      intro xs
      induction xs with
      | nil => intro _ _; rfl
      | cons x xs ih =>
        intro hxs hn
        rw [List.flatMap_cons] at hn ⊢
        obtain ⟨-, h2, h3⟩ := List.nodup_append.1 hn
        rw [ih (fun y hy => hxs y (List.mem_cons_of_mem _ hy)) h2,
          herase x (hxs x List.mem_cons_self),
          List.flatMap_cons]
        by_cases hb : b ∈ (t.nodes x).children
        · rw [List.erase_append_left _ hb, List.erase_of_not_mem (l := xs.flatMap _)
            fun hm => h3 b hb b hm rfl]
        · rw [List.erase_append_right _ hb, List.erase_of_not_mem hb]
    show ((g.erase b).chain (ℓ' + 1)).flatMap _ = _
    rw [w.erase_other h hℓ]
    exact hn _ (fun _ hx => hx) (h.blink.parents ℓ')

theorem leads {ℓ' : ℕ} {c x : NodeId} (hok : NodeOk t t' g a b absorbed ℓ) (hc : c ∉ absorbed)
    (hcb : c ≠ b) (hl : Leads t g ℓ' c x) : Leads t' (g.erase b) ℓ' c x := by
  obtain ⟨hx, q, hq, hw⟩ := hl
  have hqb : q ≠ b := by
    rintro rfl
    obtain rfl := h.blink.level_unique _ _ _ hq (w.right_mem h)
    exact hc (hok.1 ▸ hw.stop_end)
  refine ⟨by rw [hs.count]; exact hx, q, h.mem_chain_erase.2 ⟨hq, hqb⟩, ?_⟩
  refine hw.bypass (w.joined h).1 ?_ (w.ne h).symm (fun y hy => ?_) (fun y => ?_) hqb
  · exact hs.left.2.1
  · by_cases hyp : y = p
    · rw [hyp, hs.parent]
    · rw [hs.others y hy hyp]
  · by_cases hya : y = a
    · rw [hya, hs.left.2.2.2, List.mem_append]
      simp [hc]
    by_cases hyp : y = p
    · rw [hyp, hs.parent, w.children]
      simp [hcb]
    · rw [hs.children_other hya hyp]

theorem threaded (ℓ' : ℕ) : Spine.Threaded (Joined t' (g.erase b)) (Unbounded t')
    ((g.erase b).chain ℓ') := by
  have hfields : ∀ x, x ≠ a → (t'.nodes x).rightLink = (t.nodes x).rightLink ∧
      (t'.nodes x).highKey = (t.nodes x).highKey := by
    intro x ha
    by_cases hp : x = p
    · rw [hp, hs.parent]
      exact ⟨rfl, rfl⟩
    · rw [hs.others x ha hp]
      exact ⟨rfl, rfl⟩
  have hjoin : ∀ x y, x ≠ a → Joined t g x y → Joined t' (g.erase b) x y := by
    intro x y ha hxy
    rw [Joined, (hfields x ha).1, (hfields x ha).2]
    exact hxy
  have hlast : ∀ x, x ≠ a → Unbounded t x → Unbounded t' x := by
    intro x ha hx
    rw [Unbounded, (hfields x ha).1, (hfields x ha).2]
    exact hx
  by_cases hℓ : ℓ' = ℓ
  · subst hℓ
    obtain ⟨A, B, hd, hd'⟩ := w.erase_cut h
    have ht := h.blink.threaded ℓ'
    have hn := h.blink.nodup ℓ'
    rw [hd] at ht hn
    rw [hd']
    obtain ⟨-, h2, h3⟩ := List.nodup_append.1 hn
    have hA : ∀ x ∈ A, x ≠ a := fun x hx => h3 x hx a (by simp)
    have hB : ∀ x ∈ B, x ≠ a := fun x hx he =>
      (List.nodup_cons.1 h2).1 (by rw [← he]; simp [hx])
    refine ht.unlink (fun x hx y _ => hjoin x y (hA x hx)) ?_ ?_
      (fun x hx y _ => hjoin x y (hB x hx)) fun x hx => hlast x (hB x hx)
    · intro y _ hby
      rw [Joined, hs.left.2.1, hs.left.2.2.1]
      exact hby
    · intro _ hb
      rw [Unbounded, hs.left.2.1, hs.left.2.2.1]
      exact hb
  · rw [w.erase_other h hℓ]
    have hne : ∀ x ∈ g.chain ℓ', x ≠ a := by
      rintro x hx rfl
      exact hℓ (h.blink.level_unique _ _ _ hx (w.left_mem h))
    exact (h.blink.threaded ℓ').mono (fun x hx y _ => hjoin x y (hne x hx))
      fun x hx => hlast x (hne x hx)

theorem internal (hok : NodeOk t t' g a b absorbed ℓ) (ℓ' : ℕ) (x : NodeId)
    (hxe : x ∈ (g.erase b).chain (ℓ' + 1)) : (t'.nodes x).isLeaf = false ∧
      (∀ c ∈ (t'.nodes x).children, c ∈ (g.erase b).chain ℓ') ∧
      (t'.nodes x).children.map g.low = g.low x :: (t'.nodes x).keys.map some := by
  obtain ⟨hx, -⟩ := h.mem_chain_erase.1 hxe
  obtain ⟨h1, h2, h3⟩ := h.blink.internal ℓ' x hx
  by_cases hxa : x = a
  · subst hxa
    obtain rfl := h.blink.level_unique _ _ _ hx (w.left_mem h)
    rw [hs.left.1]
    refine ⟨h1, fun c hc => h.mem_chain_erase.2 ⟨?_, ?_⟩, hok.2⟩
    · rw [hs.left.2.2.2, hok.1, List.mem_append] at hc
      rcases hc with hc | hc
      · exact h2 c hc
      · exact (h.blink.internal ℓ' b (w.right_mem h)).2.1 c hc
    · -- `b` is not among the children of nodes of its own level
      rintro rfl
      rw [hs.left.2.2.2, hok.1, List.mem_append] at hc
      rcases hc with hc | hc
      · exact (w.left_ne_parent h) (w.right_child_iff h hx hc)
      · exact (w.right_ne_parent h) (w.right_child_iff h (w.right_mem h) hc)
  by_cases hxp : x = p
  · subst hxp
    obtain ⟨hleft, hright⟩ := w.map_low h
    obtain ⟨hbC, hbD⟩ := w.right_notMem h
    rw [List.map_cons] at hright
    rw [hs.parent]
    refine ⟨h1, fun c hc => h.mem_chain_erase.2 ⟨h2 c ?_, ?_⟩, ?_⟩
    · rw [w.children]
      simp only [List.mem_append, List.mem_cons] at hc ⊢
      tauto
    · rintro rfl
      rcases List.mem_append.1 hc with hc | hc
      · exact hbC hc
      · rcases List.mem_cons.1 hc with he | hc
        · exact w.ne h he.symm
        · exact hbD hc
    · dsimp only
      rw [List.append_cons, List.map_append, hleft, (List.cons.inj hright).2]
      simp
  · rw [hs.others x hxa hxp]
    refine ⟨h1, fun c hc => h.mem_chain_erase.2 ⟨h2 c hc, ?_⟩, h3⟩
    rintro rfl
    exact hxp (w.right_child_iff h hx hc)

/-- Joining two siblings keeps the tree formed. -/
theorem formed (hok : NodeOk t t' g a b absorbed ℓ) : Formed t' (g.erase b) where
  blink := {
    above := fun ℓ' hℓ' => by
      show (g.chain ℓ').erase b = []
      rw [h.blink.above ℓ' hℓ']
      rfl
    root_head := by
      show ((g.erase b).chain g.top).head? = _
      rw [w.erase_other h (h.lt_top w.parent_mem).ne', hs.root]
      exact h.blink.root_head
    nodup := fun ℓ' => (h.blink.nodup ℓ').erase b
    level_unique := fun ℓ₁ ℓ₂ x h1 h2 => h.blink.level_unique ℓ₁ ℓ₂ x
      (h.mem_chain_erase.1 h1).1 (h.mem_chain_erase.1 h2).1
    lt_count := fun ℓ' x hx => by
      rw [hs.count]
      exact h.blink.lt_count ℓ' x (h.mem_chain_erase.1 hx).1
    link_lt := fun i j hij => by
      rw [hs.count]
      by_cases hi : i = a
      · rw [hi, hs.left.2.1] at hij
        exact h.blink.link_lt b j hij
      by_cases hp : i = p
      · rw [hp, hs.parent] at hij
        exact h.blink.link_lt p j hij
      · rw [hs.others i hi hp] at hij
        exact h.blink.link_lt i j hij
    head_low := fun ℓ' x hx => by
      refine h.blink.head_low ℓ' x ?_
      by_cases hℓ : ℓ' = ℓ
      · subst hℓ
        obtain ⟨A, B, hd, hd'⟩ := w.erase_cut h
        rw [hd'] at hx
        rw [hd]
        cases A <;> exact hx
      · rwa [w.erase_other h hℓ] at hx
    threaded := hs.threaded w h
    leaf := fun x hx => by
      obtain ⟨hx, hxb⟩ := h.mem_chain_erase.1 hx
      obtain ⟨h1, h2⟩ := h.blink.leaf x hx
      have hxp : x ≠ p := by
        rintro rfl
        cases h.blink.level_unique _ _ _ hx w.parent_mem
      by_cases hxa : x = a
      · subst hxa
        obtain rfl := h.blink.level_unique _ _ _ hx (w.left_mem h)
        rw [hs.left.1]
        exact ⟨h1, hok.1⟩
      · rw [hs.others x hxa hxp]
        obtain ⟨h3, h4, h5, h6, h7⟩ := h2
        exact ⟨h1, h3, h4, h5, h6, h7⟩
    internal := hs.internal w h hok
    parents := fun ℓ' => by
      have := hs.childrenOf_eq w h hok ℓ'
      unfold childrenOf at this
      rw [this]
      exact (h.blink.parents ℓ').erase b
    hints := fun ℓ' x hx y hy => by
      obtain ⟨hx, hxb⟩ := h.mem_chain_erase.1 hx
      rw [hs.hint] at hy
      split_ifs at hy with hm
      · obtain rfl : a = y := by simpa using hy
        have hchild : x ∈ (t'.nodes a).children := by
          rw [hs.left.2.2.2]
          exact List.mem_append_right _ hm
        refine ⟨by rw [hs.count]; exact h.blink.lt_count _ _ (w.left_mem h), a, ?_, .here hchild⟩
        refine h.mem_chain_erase.2 ⟨?_, w.ne h⟩
        cases ℓ with
        | zero =>
          rw [hok.2] at hm
          cases hm
        | succ k =>
          rw [hok.1] at hm
          rw [h.blink.level_unique _ _ _ hx ((h.blink.internal k b (w.right_mem h)).2.1 x hm)]
          exact w.left_mem h
      · exact hs.leads w h hok hm hxb (h.blink.hints ℓ' x hx y hy) }
  below ℓ' hℓ' := by
    rw [hs.childrenOf_eq w h hok, h.below ℓ' hℓ']
    rfl
  root_alone := by
    rw [hs.root]
    exact (w.erase_other h (h.lt_top w.parent_mem).ne').trans h.root_alone
  hinted ℓ' hℓ' x hx := by
    rw [hs.hint]
    split_ifs
    · exact Option.some_ne_none _
    · exact h.hinted ℓ' hℓ' x (h.mem_chain_erase.1 hx).1

theorem contents (he : ℓ = 0 → (t'.nodes a).entries =
    (t.nodes a).entries ++ (t.nodes b).entries) :
    entriesOf t' ((g.erase b).chain 0) = entriesOf t (g.chain 0) := by
  have hold : ∀ x ∈ g.chain 0, x ≠ a → (t'.nodes x).entries = (t.nodes x).entries := by
    intro x hx ha
    have hp : x ≠ p := by
      rintro rfl
      cases h.blink.level_unique _ _ _ hx w.parent_mem
    rw [hs.others x ha hp]
    rfl
  cases ℓ with
  | zero =>
    obtain ⟨A, B, hd, hd'⟩ := w.erase_cut h
    have hn := h.blink.nodup 0
    rw [hd']
    rw [hd] at hn hold ⊢
    exact congrArg _ (ListEdit.flatMap_join hn (fun x hx ha _ => hold x hx ha) (he rfl))
  | succ k =>
    rw [w.erase_other h (Nat.succ_ne_zero k).symm]
    refine entriesOf_congr fun x hx => hold x hx ?_
    rintro rfl
    cases h.blink.level_unique _ _ _ hx (w.left_mem h)

end Joins

end BTree

end Vdb
