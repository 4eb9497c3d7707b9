import Vdb.BTree.Shape
import Mathlib.Tactic.Abel

/-!
# The invariant under each change of the tree

A section of a call changes the tree in at most two of six ways: it sets a hint, puts an entry
into a leaf, splits a leaf or an internal node (`Vdb.BTree.Split`), splices a sibling into a parent
or grows the root (`Vdb.BTree.Splice`).  For each of them the B-link invariant is kept, with the
new shape given, and `Evolves` says what the other calls can see of the change.
-/

namespace Vdb

namespace BTree

variable {t : BPlusTree} {g : Shape}

namespace BLink

theorem children_nodup (h : BLink t g) {ℓ : ℕ} {p : NodeId} (hp : p ∈ g.chain (ℓ + 1)) :
    (t.nodes p).children.Nodup :=
  (List.nodup_flatMap.1 (h.parents ℓ)).1 p hp

/-- A node is the child of at most one node. -/
theorem parent_unique (h : BLink t g) {ℓ : ℕ} {p q c : NodeId} (hp : p ∈ g.chain (ℓ + 1))
    (hq : q ∈ g.chain (ℓ + 1)) (hcp : c ∈ (t.nodes p).children)
    (hcq : c ∈ (t.nodes q).children) : p = q := by
  by_contra hne
  have hd := (List.nodup_flatMap.1 (h.parents ℓ)).2
  have : Std.Symm (Function.onFun List.Disjoint fun x => (t.nodes x).children) :=
    ⟨fun _ _ hab => List.Disjoint.symm hab⟩
  exact hd.forall hp hq hne hcp hcq

theorem length_children (h : BLink t g) {ℓ : ℕ} {p : NodeId} (hp : p ∈ g.chain (ℓ + 1)) :
    (t.nodes p).children.length = (t.nodes p).keys.length + 1 := by
  have := congrArg List.length (h.internal ℓ p hp).2.2
  simpa using this

theorem root_mem (h : BLink t g) : t.root ∈ g.chain g.top :=
  List.mem_of_mem_head? h.root_head

theorem root_low (h : BLink t g) : g.low t.root = none :=
  h.head_low _ _ h.root_head

theorem level_le_top (h : BLink t g) {ℓ : ℕ} {x : NodeId} (hx : x ∈ g.chain ℓ) : ℓ ≤ g.top := by
  by_contra hlt
  rw [h.above ℓ (by omega)] at hx
  cases hx

theorem nodes_fresh (h : BLink t g) {ℓ : ℕ} : t.count ∉ g.chain ℓ := fun hc =>
  lt_irrefl _ (h.lt_count ℓ _ hc)

theorem next_fresh (h : BLink t g) (x : NodeId) : (t.nodes x).rightLink ≠ some t.count := fun hc =>
  lt_irrefl _ (h.link_lt x _ hc)

/-- A leaf lies entirely below the next one. -/
theorem leaf_pairwise (h : BLink t g) : (g.chain 0).Pairwise fun a b =>
    ∃ v, g.low b = some v ∧ (∀ k ∈ (t.nodes a).keys, k ≤ v) ∧ ∀ u ∈ g.low a, u ≤ v := by
  let R (a b : NodeId) : Prop :=
    ∃ v, g.low b = some v ∧ (∀ k ∈ (t.nodes a).keys, k ≤ v) ∧ ∀ u ∈ g.low a, u ≤ v
  have : Trans R R R := ⟨fun ⟨_, hv, hk, hu⟩ ⟨w, hw, _, hu'⟩ =>
    ⟨w, hw, fun k hk' => (hk k hk').trans (hu' _ hv), fun u hu'' => (hu u hu'').trans (hu' _ hv)⟩⟩
  refine (List.isChain_iff_pairwise (R := R)).1
    ((h.threaded 0).links.imp_of_mem_imp fun a b ha _ hab => ?_)
  obtain ⟨-, v, hv, hh⟩ := hab
  have hl := (h.leaf a ha).2
  exact ⟨v, hv, fun k hk => hl.le_high k hk v hh, fun u hu => hl.bounds u hu v hh⟩

/-- Keys left of a leaf do not exceed its lower end. -/
theorem keys_before (h : BLink t g) {pre post : List NodeId} {x z : NodeId} {k : Key}
    (hd : g.chain 0 = pre ++ x :: post) (hz : z ∈ pre) (hk : k ∈ (t.nodes z).keys) :
    ∃ v, g.low x = some v ∧ k ≤ v := by
  have hp := h.leaf_pairwise
  rw [hd] at hp
  obtain ⟨v, hv, hkv, -⟩ := (List.pairwise_append.1 hp).2.2 z hz x List.mem_cons_self
  exact ⟨v, hv, hkv k hk⟩

/-- Keys right of a leaf are not below its own. -/
theorem keys_after (h : BLink t g) {pre post : List NodeId} {x z : NodeId} {k k' : Key}
    (hd : g.chain 0 = pre ++ x :: post) (hz : z ∈ post) (hk : k ∈ (t.nodes x).keys)
    (hk' : k' ∈ (t.nodes z).keys) : k ≤ k' := by
  have hp := h.leaf_pairwise
  rw [hd] at hp
  obtain ⟨v, hv, hkv, -⟩ := (List.pairwise_cons.1 (List.pairwise_append.1 hp).2.1).1 z hz
  have hmem : z ∈ g.chain 0 := by rw [hd]; simp [hz]
  exact (hkv k hk).trans ((h.leaf z hmem).2.low_le k' hk' v hv)

end BLink

/-! ### Setting a hint -/

theorem walkTo_setHints {cs : List NodeId} {h c a p : NodeId} :
    WalkTo (t.setHints cs h) c a p ↔ WalkTo t c a p := by
  simp only [WalkTo, setHints_rightLink, setHints_children]

theorem leads_setHints {cs : List NodeId} {h c a : NodeId} {ℓ : ℕ} :
    Leads (t.setHints cs h) g ℓ c a ↔ Leads t g ℓ c a := by
  simp only [Leads, walkTo_setHints, count_setHints]

theorem entriesOf_setHints {cs xs : List NodeId} {h : NodeId} :
    entriesOf (t.setHints cs h) xs = entriesOf t xs :=
  entriesOf_congr fun x _ => setHints_entries t cs h x

theorem Evolves.setHints (cs : List NodeId) (h : NodeId) : Evolves t g (t.setHints cs h) g where
  chain _ := List.Sublist.refl _
  low _ _ _ := rfl
  count := le_rfl
  scan pre _ post hd := ⟨pre, post, hd, (entriesOf_setHints).ge, (entriesOf_setHints).ge⟩
  leads _ _ _ hl := leads_setHints.2 hl

/-- Hints may be set to any node from which the parent can be reached. -/
theorem BLink.setHints (hb : BLink t g) {cs : List NodeId} {h : NodeId}
    (hl : ∀ ℓ, ∀ x ∈ g.chain ℓ, x ∈ cs → Leads t g ℓ x h) : BLink (t.setHints cs h) g where
  above := hb.above
  root_head := hb.root_head
  nodup := hb.nodup
  level_unique := hb.level_unique
  lt_count := hb.lt_count
  link_lt i j hij := hb.link_lt i j (by simpa using hij)
  head_low := hb.head_low
  threaded ℓ := (hb.threaded ℓ).mono (fun a _ b _ hab => by simpa [Joined] using hab)
    (fun a _ ha => by simpa [Unbounded] using ha)
  leaf x hx := by
    obtain ⟨h1, h2, h3, h4, h5, h6⟩ := hb.leaf x hx
    exact ⟨by simpa using h1, by simpa using h2, by simpa using h3, by simpa using h4,
      by simpa using h5, by simpa using h6⟩
  internal ℓ x hx := by simpa using hb.internal ℓ x hx
  parents ℓ := by simpa using hb.parents ℓ
  hints ℓ x hx a ha := by
    rw [setHints_parentHint] at ha
    refine leads_setHints.2 ?_
    split_ifs at ha with hc
    · obtain rfl : h = a := by simpa using ha
      exact hl ℓ x hx hc
    · exact hb.hints ℓ x hx a ha

/-! ### Editing a leaf -/

/-- `t'` is `t` with other keys and values in the leaf `cur`. -/
structure EditsLeaf (t t' : BPlusTree) (cur : NodeId) : Prop where
  root : t'.root = t.root
  count : t'.count = t.count
  leaf : t'.nodes cur = { t.nodes cur with
    keys := (t'.nodes cur).keys, values := (t'.nodes cur).values }
  others : ∀ x, x ≠ cur → t'.nodes x = t.nodes x

namespace EditsLeaf

variable {t' : BPlusTree} {cur : NodeId} (he : EditsLeaf t t' cur)

include he

/-- All but the keys and values of the leaf is unchanged. -/
theorem fields (x : NodeId) :
    (t'.nodes x).isLeaf = (t.nodes x).isLeaf ∧ (t'.nodes x).children = (t.nodes x).children ∧
    (t'.nodes x).rightLink = (t.nodes x).rightLink ∧
    (t'.nodes x).highKey = (t.nodes x).highKey ∧
    (t'.nodes x).parentHint = (t.nodes x).parentHint := by
  by_cases h : x = cur
  · rw [h, he.leaf]
    simp
  · rw [he.others x h]
    simp

theorem leads {c a : NodeId} {ℓ : ℕ} : Leads t' g ℓ c a ↔ Leads t g ℓ c a := by
  simp only [Leads, WalkTo, (he.fields _).2.1, (he.fields _).2.2.1, he.count]

/-- A leaf may be edited freely inside its bounds. -/
theorem bLink (hb : BLink t g) (hc : cur ∈ g.chain 0) (hok : LeafOk (t'.nodes cur) (g.low cur)) :
    BLink t' g where
  above := hb.above
  root_head := by rw [he.root]; exact hb.root_head
  nodup := hb.nodup
  level_unique := hb.level_unique
  lt_count := by rw [he.count]; exact hb.lt_count
  link_lt i j hij := by
    rw [(he.fields i).2.2.1] at hij
    rw [he.count]
    exact hb.link_lt i j hij
  head_low := hb.head_low
  threaded ℓ := (hb.threaded ℓ).mono
    (fun a _ b _ hab => by
      simpa [Joined, (he.fields _).2.2.1, (he.fields _).2.2.2.1] using hab)
    (fun a _ ha => by
      simpa [Unbounded, (he.fields _).2.2.1, (he.fields _).2.2.2.1] using ha)
  leaf x hx := by
    rw [(he.fields x).1]
    by_cases h : x = cur
    · rw [h]
      exact ⟨(hb.leaf cur hc).1, hok⟩
    · rw [he.others x h]
      exact hb.leaf x hx
  internal ℓ x hx := by
    have h : x ≠ cur := by
      rintro rfl
      exact absurd (hb.level_unique _ _ _ hx hc) (by omega)
    rw [he.others x h]
    exact hb.internal ℓ x hx
  parents ℓ := by simpa only [(he.fields _).2.1] using hb.parents ℓ
  hints ℓ x hx a ha := he.leads.2 (hb.hints ℓ x hx a (by rwa [(he.fields x).2.2.2.2] at ha))

/-- The pairs of a level change as the leaf does. -/
theorem entriesOf_add {xs : List NodeId} (hx : cur ∈ xs) (hn : xs.Nodup) :
    entriesOf t' xs + ↑(t.nodes cur).entries = entriesOf t xs + ↑(t'.nodes cur).entries := by
  obtain ⟨A, B, rfl⟩ := List.append_of_mem hx
  have hA : ∀ x ∈ A, x ≠ cur := fun x hx' h =>
    (List.nodup_append.1 hn).2.2 x hx' cur List.mem_cons_self h
  have hB : ∀ x ∈ B, x ≠ cur := fun x hx' h =>
    (List.nodup_cons.1 (List.nodup_append.1 hn).2.1).1 (h ▸ hx')
  have eA : entriesOf t' A = entriesOf t A :=
    entriesOf_congr fun x hx' => by rw [he.others x (hA x hx')]
  have eB : entriesOf t' B = entriesOf t B :=
    entriesOf_congr fun x hx' => by rw [he.others x (hB x hx')]
  rw [entriesOf_append, entriesOf_append, entriesOf_cons, entriesOf_cons, eA, eB]
  abel

end EditsLeaf

/-! ### Putting an entry into a leaf -/

section InsertEntry

variable {cur : NodeId} {key : Key} {id : InternalId}

theorem insertEntry_nodes_ne {x : NodeId} (h : x ≠ cur) :
    (t.insertEntry cur key id).nodes x = t.nodes x := by
  simp [BPlusTree.insertEntry, h]

theorem insertEntry_cur : (t.insertEntry cur key id).nodes cur = { t.nodes cur with
    keys := (t.nodes cur).keys.insertIdx (Search.lowerBound (t.nodes cur).keys key) key
    values := (t.nodes cur).values.insertIdx (Search.lowerBound (t.nodes cur).keys key) id } := by
  simp [BPlusTree.insertEntry]

theorem insertEntry_edits (t : BPlusTree) (cur : NodeId) (key : Key) (id : InternalId) :
    EditsLeaf t (t.insertEntry cur key id) cur :=
  ⟨rfl, rfl, by rw [insertEntry_cur], fun _ h => insertEntry_nodes_ne h⟩

/-- The entries of the leaf are joined by the new one. -/
theorem insertEntry_entries (hl : (t.nodes cur).values.length = (t.nodes cur).keys.length) :
    (((t.insertEntry cur key id).nodes cur).entries : Multiset Entry) =
      (key, id) ::ₘ (t.nodes cur).entries := by
  have hle := Search.lowerBound_le (t.nodes cur).keys key
  rw [insertEntry_cur]
  simp only [Node.entries]
  rw [ListEdit.zip_insertIdx hl hle, Multiset.cons_coe, Multiset.coe_eq_coe]
  exact List.perm_insertIdx _ _ (by simp [hl, hle])

theorem LeafOk.insertEntry {low : Option Key} (h : LeafOk (t.nodes cur) low)
    (hlow : ∀ v ∈ low, v < key) (hhigh : BPlusTree.exceeds (t.nodes cur) key = false) :
    LeafOk ((t.insertEntry cur key id).nodes cur) low := by
  have hle := Search.lowerBound_le (t.nodes cur).keys key
  have hmem : ∀ k, k ∈ (t.nodes cur).keys.insertIdx
      (Search.lowerBound (t.nodes cur).keys key) key → k = key ∨ k ∈ (t.nodes cur).keys :=
    fun k hk => (List.mem_insertIdx hle).1 hk
  have hhigh' : ∀ v ∈ (t.nodes cur).highKey, key ≤ v := by
    intro v hv
    simp only [BPlusTree.exceeds, Option.mem_def.1 hv, decide_eq_false_iff_not, not_lt] at hhigh
    exact hhigh
  rw [insertEntry_cur]
  refine ⟨?_, ?_, fun k hk v hv => ?_, fun k hk v hv => ?_, h.bounds⟩
  · simp only [List.length_insertIdx, h.parallel, hle, if_true]
  · simp only
    rw [ListEdit.insertIdx_eq _ hle]
    refine ListEdit.pairwise_insert (by rw [List.take_append_drop]; exact h.sorted) ?_ ?_
    · exact fun x hx => (Search.take_lowerBound_lt h.sorted key x hx).le
    · exact Search.le_drop_lowerBound h.sorted key
  · rcases hmem k hk with rfl | hk
    · exact (hlow v hv).le
    · exact h.low_le k hk v hv
  · rcases hmem k hk with rfl | hk
    · exact hhigh' v hv
    · exact h.le_high k hk v hv

theorem entriesOf_insertEntry_le (hl : (t.nodes cur).values.length = (t.nodes cur).keys.length)
    (xs : List NodeId) : entriesOf t xs ≤ entriesOf (t.insertEntry cur key id) xs := by
  induction xs with
  | nil => exact le_rfl
  | cons x xs ih =>
    rw [entriesOf_cons, entriesOf_cons]
    refine add_le_add ?_ ih
    by_cases h : x = cur
    · subst h; rw [insertEntry_entries hl]; exact Multiset.le_cons_self _ _
    · rw [insertEntry_nodes_ne h]

/-- The pairs of a level grow by exactly the new entry. -/
theorem entriesOf_insertEntry (hl : (t.nodes cur).values.length = (t.nodes cur).keys.length)
    {xs : List NodeId} (hx : cur ∈ xs) (hn : xs.Nodup) :
    entriesOf (t.insertEntry cur key id) xs = (key, id) ::ₘ entriesOf t xs := by
  have h := (insertEntry_edits t cur key id).entriesOf_add hx hn
  rw [insertEntry_entries hl, Multiset.add_cons, ← Multiset.cons_add] at h
  exact add_right_cancel h

theorem Evolves.insertEntry (hl : (t.nodes cur).values.length = (t.nodes cur).keys.length) :
    Evolves t g (t.insertEntry cur key id) g where
  chain _ := List.Sublist.refl _
  low _ _ _ := rfl
  count := le_rfl
  scan pre _ post hd :=
    ⟨pre, post, hd, entriesOf_insertEntry_le hl _, entriesOf_insertEntry_le hl _⟩
  leads _ _ _ h := (insertEntry_edits t cur key id).leads.2 h

theorem BLink.insertEntry (hb : BLink t g) (id : InternalId) (hc : cur ∈ g.chain 0)
    (hlow : ∀ v ∈ g.low cur, v < key) (hhigh : BPlusTree.exceeds (t.nodes cur) key = false) :
    BLink (t.insertEntry cur key id) g :=
  (insertEntry_edits t cur key id).bLink hb hc ((hb.leaf cur hc).2.insertEntry hlow hhigh)

end InsertEntry

end BTree

end Vdb
