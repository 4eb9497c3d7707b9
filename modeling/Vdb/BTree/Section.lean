import Vdb.BTree.Split
import Vdb.BTree.Splice

/-!
# One section of a call

What a call knows about the tree between two of its sections (`CallOk`), and that running its next
section keeps the B-link invariant, re-establishes what the call knows, and leaves every other
call's knowledge intact (`SectionOk`).

A reader that has reached the leaves stands at a cut of the leaf chain (`Scanning`): it has
reported nothing but pairs left of the cut, and every pair in its interval that was there when it
started has been reported or lies ahead.
-/

namespace Vdb

namespace BTree

/-- The pairs a query for `lo ≤ key ≤ hi` is about. -/
abbrev InRange (lo hi : Key) (e : Entry) : Prop := lo ≤ e.1 ∧ e.1 ≤ hi

/-- The new node a call has split off and not yet linked from above. -/
def Pc.pendingRight : Pc → Option NodeId
  | .relocate _ _ sr => some sr.right
  | .growRoot _ sr => some sr.right
  | .freshHint _ sr => some sr.right
  | _ => none

/-- What a query has emitted so far. -/
def Pc.emitted : Pc → List Entry
  | .descend _ out => out
  | .done out => out
  | _ => []

/-- The pair a call has put into a leaf: the descent of an insert ends with that. -/
def placed : Op → Pc → Multiset Entry
  | .insert _ _, .lockRoot => 0
  | .insert _ _, .descend _ _ => 0
  | .insert _ _, .badLink => 0
  | .insert key id, _ => {(key, id)}
  | .range _ _, _ => 0

/-- The node `cur` is where `key` belongs, or left of it. -/
def Covers (g : Shape) (key : Key) (cur : NodeId) : Prop :=
  ∃ ℓ, cur ∈ g.chain ℓ ∧ ∀ v ∈ g.low cur, v < key

/-- A query stands at the cut `pre ++ cur :: post` of the leaves. -/
structure Scanning (t : BPlusTree) (g : Shape) (before : Multiset Entry) (lo hi : Key)
    (cur : NodeId) (out : List Entry) (pre post : List NodeId) : Prop where
  cut : g.chain 0 = pre ++ cur :: post
  behind : ↑out ≤ entriesOf t pre
  ahead : before.filter (InRange lo hi) ≤
    ↑out + (entriesOf t (cur :: post)).filter (InRange lo hi)
  sorted : out.Pairwise fun a b => a.1 ≤ b.1
  range : ∀ e ∈ out, InRange lo hi e
  le_low : ∀ e ∈ out, ∃ v, g.low cur = some v ∧ e.1 ≤ v

/-- A correct answer to a query that started when `before` had been inserted. -/
structure Answer (t : BPlusTree) (g : Shape) (before : Multiset Entry) (lo hi : Key)
    (out : List Entry) : Prop where
  complete : before.filter (InRange lo hi) ≤ ↑out
  sound : ↑out ≤ entriesOf t (g.chain 0)
  sorted : out.Pairwise fun a b => a.1 ≤ b.1
  range : ∀ e ∈ out, InRange lo hi e

/-- The split of `child` has not reached the level above. -/
structure Pending (t : BPlusTree) (g : Shape) (ℓ : ℕ) (child : NodeId) (sr : SplitResult) :
    Prop where
  after : [child, sr.right].Sublist (g.chain ℓ)
  right_low : g.low sr.right = some sr.separator
  unspliced : ¬ Spliced t g ℓ sr.right

/-- What a call knows between two sections. -/
def CallOk (t : BPlusTree) (g : Shape) (before : Multiset Entry) : Op → Pc → Prop
  | _, .lockRoot => True
  | .insert key _, .descend cur _ => Covers g key cur
  | .insert _ _, .relocate cur child sr => ∃ ℓ, Pending t g ℓ child sr ∧ Leads t g ℓ child cur
  | .insert _ _, .growRoot child sr => ∃ ℓ, Pending t g ℓ child sr
  | .insert _ _, .freshHint child sr => ∃ ℓ, Pending t g ℓ child sr
  | .insert _ _, .hintChild child sr newRoot => ∃ ℓ, child ∈ g.chain ℓ ∧ sr.right ∈ g.chain ℓ ∧
      Leads t g ℓ child newRoot ∧ Leads t g ℓ sr.right newRoot
  | .insert _ _, .hintRight right newRoot => ∃ ℓ, right ∈ g.chain ℓ ∧ Leads t g ℓ right newRoot
  | .insert _ _, .done _ => True
  | .insert _ _, .threw => True
  | .range lo hi, .descend cur out =>
      (out = [] ∧ Covers g lo cur) ∨ ∃ pre post, Scanning t g before lo hi cur out pre post
  | .range lo hi, .done out => Answer t g before lo hi out
  | _, _ => False

/-- The shape after a section that began in `t` and left its call at this place: a pending node
`t.count` has just been split off, and a root `t.count` has just grown. -/
def Shape.next (g : Shape) (t : BPlusTree) : Pc → Shape
  | .relocate _ child sr => if sr.right = t.count then g.split child t.count sr.separator else g
  | .growRoot child sr => if sr.right = t.count then g.split child t.count sr.separator else g
  | .hintChild _ _ newRoot => if newRoot = t.count then g.grow t.count else g
  | _ => g

/-- The outcome of one section. -/
structure SectionOk (t : BPlusTree) (g : Shape) (before : Multiset Entry) (op : Op) (pc : Pc)
    (t' : BPlusTree) (pc' : Pc) (g' : Shape) : Prop where
  blink : BLink t' g'
  evolves : Evolves t g t' g'
  call : CallOk t' g' before op pc'
  contents : entriesOf t' (g'.chain 0) + placed op pc = entriesOf t (g.chain 0) + placed op pc'
  /-- Only the call's own pending node has been linked from above. -/
  spliced : ∀ ℓ c, c ∈ g.chain ℓ → Spliced t' g' ℓ c →
    Spliced t g ℓ c ∨ c ∈ pc.pendingRight ∨ g.low c = none
  /-- A node that has become pending is new. -/
  pending : ∀ r ∈ pc'.pendingRight, r ∈ pc.pendingRight ∨ t.count ≤ r

variable {t t' : BPlusTree} {g g' : Shape} {before : Multiset Entry}

theorem Pending.child_mem {ℓ : ℕ} {child : NodeId} {sr : SplitResult}
    (h : Pending t g ℓ child sr) : child ∈ g.chain ℓ :=
  h.after.subset (by simp)

theorem Pending.right_mem {ℓ : ℕ} {child : NodeId} {sr : SplitResult}
    (h : Pending t g ℓ child sr) : sr.right ∈ g.chain ℓ :=
  h.after.subset (by simp)

/-! ### What other calls leave intact -/

theorem Covers.evolves {key : Key} {cur : NodeId} (h : Covers g key cur)
    (he : Evolves t g t' g') : Covers g' key cur := by
  obtain ⟨ℓ, hc, hlow⟩ := h
  exact ⟨ℓ, (he.chain ℓ).subset hc, by rwa [he.low ℓ cur hc]⟩

/-- No level is empty: every node has a child, and it is on the level below. -/
theorem BLink.chain_ne_nil (hb : BLink t g) : ∀ k ≤ g.top, g.chain (g.top - k) ≠ [] := by
  intro k
  induction k with
  | zero =>
    intro _ h
    have := hb.root_mem
    rw [Nat.sub_zero] at h
    rw [h] at this
    cases this
  | succ k ih =>
    intro hk h
    obtain ⟨p, post, hp⟩ := List.exists_cons_of_ne_nil (ih (Nat.le_of_succ_le hk))
    have hℓ : g.top - k = g.top - (k + 1) + 1 := by omega
    have hmem : p ∈ g.chain (g.top - (k + 1) + 1) := by rw [← hℓ, hp]; simp
    obtain ⟨c, hc⟩ : ∃ c, c ∈ (t.nodes p).children := by
      refine List.exists_mem_of_length_pos ?_
      rw [hb.length_children hmem]
      exact Nat.succ_pos _
    have := (hb.internal _ p hmem).2.1 c hc
    rw [h] at this
    cases this

theorem BLink.exists_mem_chain (hb : BLink t g) {ℓ : ℕ} (hℓ : ℓ ≤ g.top) :
    ∃ x post, g.chain ℓ = x :: post := by
  have := hb.chain_ne_nil (g.top - ℓ) (Nat.sub_le _ _)
  rw [Nat.sub_sub_self hℓ] at this
  exact List.exists_cons_of_ne_nil this

theorem Evolves.entriesOf_le (he : Evolves t g t' g') (hb : BLink t g) :
    entriesOf t (g.chain 0) ≤ entriesOf t' (g'.chain 0) := by
  obtain ⟨x, post, hd⟩ := hb.exists_mem_chain (Nat.zero_le _)
  obtain ⟨pre', post', hd', -, h⟩ := he.scan [] x post hd
  rw [hd, hd', entriesOf_append]
  exact h.trans (Multiset.le_add_left _ _)

theorem Scanning.evolves {lo hi : Key} {cur : NodeId} {out : List Entry} {pre post : List NodeId}
    (h : Scanning t g before lo hi cur out pre post) (he : Evolves t g t' g') :
    ∃ pre' post', Scanning t' g' before lo hi cur out pre' post' := by
  obtain ⟨pre', post', hd, h1, h2⟩ := he.scan pre cur post h.cut
  have hcur : cur ∈ g.chain 0 := by rw [h.cut]; simp
  refine ⟨pre', post', hd, h.behind.trans h1, h.ahead.trans ?_, h.sorted, h.range, ?_⟩
  · exact Multiset.add_le_add_left (Multiset.filter_le_filter _ h2)
  · rw [he.low 0 cur hcur]
    exact h.le_low

theorem Answer.evolves {lo hi : Key} {out : List Entry} (h : Answer t g before lo hi out)
    (hb : BLink t g) (he : Evolves t g t' g') : Answer t' g' before lo hi out :=
  ⟨h.complete, h.sound.trans (he.entriesOf_le hb), h.sorted, h.range⟩

theorem Pending.evolves {ℓ : ℕ} {child : NodeId} {sr : SplitResult} (h : Pending t g ℓ child sr)
    (he : Evolves t g t' g') (hs : Spliced t' g' ℓ sr.right → Spliced t g ℓ sr.right) :
    Pending t' g' ℓ child sr :=
  ⟨h.after.trans (he.chain ℓ), (he.low ℓ _ h.right_mem).trans h.right_low,
    fun h' => h.unspliced (hs h')⟩

/-- A section of another call does not disturb what a call knows. -/
theorem CallOk.evolves {op : Op} {pc : Pc} (h : CallOk t g before op pc) (hb : BLink t g)
    (he : Evolves t g t' g')
    (hs : ∀ r ∈ pc.pendingRight, ∀ ℓ, r ∈ g.chain ℓ → (∃ v, g.low r = some v) →
      Spliced t' g' ℓ r → Spliced t g ℓ r) :
    CallOk t' g' before op pc := by
  have hp : ∀ ℓ child sr, pc.pendingRight = some sr.right → Pending t g ℓ child sr →
      Pending t' g' ℓ child sr := fun ℓ child sr hr h =>
    h.evolves he (hs _ hr ℓ h.right_mem ⟨_, h.right_low⟩)
  cases op with
  | insert key id =>
    cases pc with
    | lockRoot => trivial
    | descend cur out => exact Covers.evolves h he
    | relocate cur child sr =>
      obtain ⟨ℓ, h1, h2⟩ := h
      exact ⟨ℓ, hp ℓ child sr rfl h1, he.leads _ _ _ h2⟩
    | growRoot child sr => exact h.imp fun ℓ h => hp ℓ child sr rfl h
    | freshHint child sr => exact h.imp fun ℓ h => hp ℓ child sr rfl h
    | hintChild child sr newRoot =>
      obtain ⟨ℓ, h1, h2, h3, h4⟩ := h
      exact ⟨ℓ, (he.chain ℓ).subset h1, (he.chain ℓ).subset h2, he.leads _ _ _ h3,
        he.leads _ _ _ h4⟩
    | hintRight right newRoot =>
      obtain ⟨ℓ, h1, h2⟩ := h
      exact ⟨ℓ, (he.chain ℓ).subset h1, he.leads _ _ _ h2⟩
    | done out => trivial
    | threw => trivial
    | targetLost => exact h
    | badLink => exact h
  | range lo hi =>
    cases pc with
    | lockRoot => trivial
    | descend cur out =>
      rcases h with ⟨h1, h2⟩ | ⟨pre, post, h⟩
      · exact .inl ⟨h1, h2.evolves he⟩
      · exact .inr (h.evolves he)
    | done out => exact Answer.evolves h hb he
    | _ => exact h

/-! ### Descending -/

theorem BLink.next (hb : BLink t g) {ℓ : ℕ} {pre post : List NodeId} {cur : NodeId}
    (hd : g.chain ℓ = pre ++ cur :: post) :
    post = [] ∧ Unbounded t cur ∨ ∃ right post', post = right :: post' ∧ Joined t g cur right := by
  have ht := hb.threaded ℓ
  rw [hd] at ht
  cases post with
  | nil => exact .inl ⟨rfl, ht.last⟩
  | cons right post' => exact .inr ⟨right, post', rfl, ht.rel⟩

theorem exceeds_iff {n : Node} {key : Key} :
    BPlusTree.exceeds n key = true ↔ ∃ h, n.highKey = some h ∧ h < key := by
  unfold BPlusTree.exceeds
  cases n.highKey <;> simp

theorem covers_root (hb : BLink t g) (key : Key) : Covers g key t.root :=
  ⟨g.top, hb.root_mem, by rw [hb.root_low]; simp⟩

/-- `move_right_` finds a right sibling, and the key still belongs there or right of it. -/
theorem Covers.right {key : Key} {cur : NodeId} (h : Covers g key cur) (hb : BLink t g)
    (he : BPlusTree.exceeds (t.nodes cur) key = true) :
    ∃ right, (t.nodes cur).rightLink = some right ∧ Covers g key right := by
  obtain ⟨ℓ, hc, -⟩ := h
  obtain ⟨k, hk, hlt⟩ := exceeds_iff.1 he
  obtain ⟨pre, post, hd⟩ := List.append_of_mem hc
  rcases hb.next hd with ⟨-, -, hhigh⟩ | ⟨right, post', rfl, hlink, v, hlow, hhigh⟩
  · rw [hk] at hhigh
    cases hhigh
  · have hmem : right ∈ g.chain ℓ := by rw [hd]; simp
    obtain rfl : k = v := by rw [hk] at hhigh; simpa using hhigh
    refine ⟨right, hlink, ℓ, hmem, ?_⟩
    rw [hlow]
    rintro _ ⟨⟩
    exact hlt

/-- The entry before the chosen separator is below the key, however the separators are ordered,
and it is the lower end of the chosen child. -/
theorem Covers.child {key : Key} {cur : NodeId} (h : Covers g key cur) (hb : BLink t g)
    (hleaf : (t.nodes cur).isLeaf = false) : Covers g key
      ((t.nodes cur).children.getD (BPlusTree.childIndex (t.nodes cur) key) 0) := by
  obtain ⟨ℓ, hc, hlow⟩ := h
  cases ℓ with
  | zero =>
    rw [(hb.leaf cur hc).1] at hleaf
    cases hleaf
  | succ ℓ =>
    obtain ⟨-, hmem, hmap⟩ := hb.internal ℓ cur hc
    set keys := (t.nodes cur).keys
    set i := Search.lowerBound keys key with hi
    have hle : i ≤ keys.length := Search.lowerBound_le keys key
    have hlt : i < (t.nodes cur).children.length := by
      rw [hb.length_children hc]
      exact Nat.lt_succ_of_le hle
    rw [BPlusTree.childIndex, ← hi, List.getD_eq_getElem _ _ hlt]
    set child := (t.nodes cur).children[i]
    refine ⟨ℓ, hmem _ (List.getElem_mem hlt), ?_⟩
    have hget : some (g.low child) = (g.low cur :: keys.map some)[i]? := by
      rw [← hmap, List.getElem?_map, List.getElem?_eq_getElem hlt]
      rfl
    clear_value child
    rcases Nat.eq_zero_or_pos i with h0 | hpos
    · rw [h0, List.getElem?_cons_zero] at hget
      rw [Option.some.inj hget]
      exact hlow
    · obtain ⟨j, hj⟩ : ∃ j, i = j + 1 := ⟨i - 1, by omega⟩
      have hj' : j < keys.length := by omega
      have hbelow := Search.getD_lowerBound_sub_one_lt keys (x := key) (by omega)
      rw [← hi, hj, Nat.add_sub_cancel, List.getD_eq_getElem _ _ hj'] at hbelow
      rw [hj, List.getElem?_cons_succ, List.getElem?_map, List.getElem?_eq_getElem hj'] at hget
      rw [Option.some.inj hget]
      rintro _ ⟨⟩
      exact hbelow

theorem Covers.leaf {key : Key} {cur : NodeId} (h : Covers g key cur) (hb : BLink t g)
    (hleaf : (t.nodes cur).isLeaf = true) :
    cur ∈ g.chain 0 ∧ ∀ v ∈ g.low cur, v < key := by
  obtain ⟨ℓ, hc, hlow⟩ := h
  cases ℓ with
  | zero => exact ⟨hc, hlow⟩
  | succ ℓ =>
    rw [(hb.internal ℓ cur hc).1] at hleaf
    cases hleaf

/-! ### Scanning the leaves -/

section Scan

variable {lo hi : Key} {cur : NodeId} {out : List Entry} {pre post : List NodeId}

theorem LeafOk.map_fst_entries {n : Node} {low : Option Key} (h : LeafOk n low) :
    n.entries.map Prod.fst = n.keys :=
  List.map_fst_zip h.parallel.ge

theorem LeafOk.entries_sorted {n : Node} {low : Option Key} (h : LeafOk n low) :
    n.entries.Pairwise fun a b => a.1 ≤ b.1 := by
  have := h.sorted
  rw [← h.map_fst_entries] at this
  exact List.pairwise_map.1 this

/-- What `range` copies out of a leaf are its pairs in the interval. -/
theorem batch_eq {n : Node} {low : Option Key} (h : LeafOk n low) :
    BPlusTree.batch n lo hi = n.entries.filter (InRange lo hi) := by
  set i := Search.lowerBound n.keys lo with hi'
  have hbelow : ∀ e ∈ n.entries.take i, e.1 < lo := by
    intro e he
    have hmem : e.1 ∈ n.keys.take i := by
      rw [← h.map_fst_entries, ← List.map_take]
      exact List.mem_map_of_mem he
    exact Search.take_lowerBound_lt h.sorted lo _ hmem
  have habove : ∀ e ∈ n.entries.drop i, lo ≤ e.1 := by
    intro e he
    have hmem : e.1 ∈ n.keys.drop i := by
      rw [← h.map_fst_entries, ← List.map_drop]
      exact List.mem_map_of_mem he
    exact Search.le_drop_lowerBound h.sorted lo _ hmem
  have hsplit : n.entries.filter (InRange lo hi) =
      (n.entries.take i).filter (InRange lo hi) ++ (n.entries.drop i).filter (InRange lo hi) := by
    rw [← List.filter_append, List.take_append_drop]
  have hnil : (n.entries.take i).filter (InRange lo hi) = [] :=
    List.filter_eq_nil_iff.2 fun e he => by simp [Nat.not_le.2 (hbelow e he)]
  have hsorted := h.entries_sorted.sublist (List.drop_sublist i _)
  rw [hsplit, hnil, List.nil_append, BPlusTree.batch, ← hi',
    Search.takeWhile_le_eq_filter hsorted hi]
  exact List.filter_congr fun e he => by simp [habove e he]

/-- Nothing beyond a leaf with a key above `hi` is in the interval. -/
theorem filter_entriesOf_eq_zero (lo : Key) (hb : BLink t g) (hd : g.chain 0 = pre ++ cur :: post)
    {k : Key}
    (hk : k ∈ (t.nodes cur).keys) (hhi : hi < k) :
    (entriesOf t post).filter (InRange lo hi) = 0 := by
  refine Multiset.filter_eq_nil.2 fun e he hr => ?_
  obtain ⟨z, hz, he⟩ := mem_entriesOf.1 he
  have := hb.keys_after hd hz hk (Node.fst_mem_keys he)
  exact absurd hr.2 (Nat.not_le.2 (hhi.trans_le this))

/-- A reader arriving at the leaves: nothing left of it is in its interval. -/
theorem Scanning.start (hi : Key) (hb : BLink t g) (hbefore : before ≤ entriesOf t (g.chain 0))
    (hc : cur ∈ g.chain 0) (hlow : ∀ v ∈ g.low cur, v < lo) :
    ∃ pre post, Scanning t g before lo hi cur [] pre post := by
  obtain ⟨pre, post, hd⟩ := List.append_of_mem hc
  have hpre : (entriesOf t pre).filter (InRange lo hi) = 0 := by
    refine Multiset.filter_eq_nil.2 fun e he hr => ?_
    obtain ⟨z, hz, he⟩ := mem_entriesOf.1 he
    obtain ⟨v, hv, hle⟩ := hb.keys_before hd hz (Node.fst_mem_keys he)
    exact absurd hr.1 (Nat.not_le.2 (hle.trans_lt (hlow v hv)))
  refine ⟨pre, post, hd, Multiset.zero_le _, ?_, List.Pairwise.nil, by simp, by simp⟩
  have := Multiset.filter_le_filter (InRange lo hi) hbefore
  rwa [hd, entriesOf_append, Multiset.filter_add, hpre] at this

/-- Moving on to the right sibling after having read the leaf. -/
theorem Scanning.step (h : Scanning t g before lo hi cur out pre post) (hb : BLink t g)
    {right : NodeId} (hlink : (t.nodes cur).rightLink = some right) :
    ∃ pre' post', Scanning t g before lo hi right
      (out ++ (t.nodes cur).entries.filter (InRange lo hi)) pre' post' := by
  have hcur : cur ∈ g.chain 0 := by rw [h.cut]; simp
  have hok := (hb.leaf cur hcur).2
  rcases hb.next h.cut with ⟨-, hnone, -⟩ | ⟨b, post', rfl, hlink', v, hlow, hhigh⟩
  · rw [hlink] at hnone
    cases hnone
  · obtain rfl : right = b := by rw [hlink] at hlink'; simpa using hlink'
    have hle : ∀ e ∈ (t.nodes cur).entries, e.1 ≤ v := fun e he =>
      hok.le_high _ (Node.fst_mem_keys he) v hhigh
    refine ⟨pre ++ [cur], post', by rw [h.cut]; simp, ?_, ?_, ?_, ?_, ?_⟩
    · rw [entriesOf_append, entriesOf_cons, entriesOf_nil, add_zero, ← Multiset.coe_add]
      refine add_le_add h.behind ?_
      exact Multiset.coe_le.2 (List.filter_sublist.subperm)
    · refine h.ahead.trans ?_
      rw [entriesOf_cons, Multiset.filter_add, Multiset.filter_coe, ← add_assoc,
        Multiset.coe_add]
    · refine List.pairwise_append.2 ⟨h.sorted, hok.entries_sorted.sublist List.filter_sublist, ?_⟩
      intro a ha b hb'
      obtain ⟨u, hu, hau⟩ := h.le_low a ha
      have hbk := Node.fst_mem_keys (List.mem_of_mem_filter hb')
      exact hau.trans (hok.low_le _ hbk u hu)
    · intro e he
      rcases List.mem_append.1 he with he | he
      · exact h.range e he
      · simpa using (List.mem_filter.1 he).2
    · intro e he
      refine ⟨v, hlow, ?_⟩
      rcases List.mem_append.1 he with he | he
      · obtain ⟨u, hu, heu⟩ := h.le_low e he
        exact heu.trans (hok.bounds u hu v hhigh)
      · exact hle e (List.mem_of_mem_filter he)

/-- The leaf holds the last pairs of the interval. -/
theorem Scanning.finish (h : Scanning t g before lo hi cur out pre post) (hb : BLink t g)
    (hpost : (entriesOf t post).filter (InRange lo hi) = 0) :
    Answer t g before lo hi (out ++ (t.nodes cur).entries.filter (InRange lo hi)) := by
  have hcur : cur ∈ g.chain 0 := by rw [h.cut]; simp
  have hok := (hb.leaf cur hcur).2
  refine ⟨?_, ?_, ?_, ?_⟩
  · refine h.ahead.trans ?_
    rw [entriesOf_cons, Multiset.filter_add, hpost, add_zero, Multiset.filter_coe,
      Multiset.coe_add]
  · rw [h.cut, entriesOf_append, entriesOf_cons, ← Multiset.coe_add]
    refine add_le_add h.behind ((Multiset.coe_le.2 ?_).trans (Multiset.le_add_right _ _))
    exact List.filter_sublist.subperm
  · refine List.pairwise_append.2 ⟨h.sorted, hok.entries_sorted.sublist List.filter_sublist, ?_⟩
    intro a ha b hb'
    obtain ⟨u, hu, hau⟩ := h.le_low a ha
    have hbk := Node.fst_mem_keys (List.mem_of_mem_filter hb')
    exact hau.trans (hok.low_le _ hbk u hu)
  · intro e he
    rcases List.mem_append.1 he with he | he
    · exact h.range e he
    · simpa using (List.mem_filter.1 he).2

end Scan

/-! ### The sections -/

section Sections

variable {op : Op} {pc pc' : Pc} {key : Key} {id : InternalId} {cur child parent : NodeId}
  {sr : SplitResult} {ℓ : ℕ}

/-- A section that only reads. -/
theorem SectionOk.stay (hb : BLink t g) (hc : CallOk t g before op pc')
    (hplaced : placed op pc' = placed op pc)
    (hp : ∀ r ∈ pc'.pendingRight, r ∈ pc.pendingRight) (hn : g.next t pc' = g) :
    SectionOk t g before op pc t pc' (g.next t pc') := by
  rw [hn]
  exact ⟨hb, .refl t g, hc, by rw [hplaced], fun _ _ _ h => .inl h, fun r hr => .inl (hp r hr)⟩

theorem next_relocate (hb : BLink t g) (hp : Pending t g ℓ child sr) :
    g.next t (.relocate cur child sr) = g :=
  if_neg (hb.lt_count ℓ _ hp.right_mem).ne

theorem next_growRoot (hb : BLink t g) (hp : Pending t g ℓ child sr) :
    g.next t (.growRoot child sr) = g :=
  if_neg (hb.lt_count ℓ _ hp.right_mem).ne

theorem next_afterSplit (hr : sr.right = t.count) :
    g.next t (t'.afterSplit child sr) = g.split child t.count sr.separator := by
  unfold BPlusTree.afterSplit
  cases (t'.nodes child).parentHint <;> exact if_pos hr

theorem SplitsAt.spliced_iff {sep : Key} (hs : SplitsAt t t' cur sep) (hb : BLink t g) {ℓ' : ℕ}
    {c : NodeId} :
    Spliced t' (g.split cur t.count sep) ℓ' c ↔ Spliced t g ℓ' c := by
  have := hs.parents hb (ℓ' + 1)
  simp only [Spliced, ← List.mem_flatMap, this]

/-- After a split the new node waits to be linked from above. -/
theorem SplitsAt.pending (hs : SplitsAt t t' cur sr.separator) (hr : sr.right = t.count)
    (hb : BLink t g) (hc : cur ∈ g.chain ℓ) :
    Pending t' (g.split cur t.count sr.separator) ℓ cur sr where
  after := by
    rw [hr]
    exact ListEdit.pair_sublist_behind hc
  right_low := by rw [hr, low_split, if_pos rfl]
  unspliced h := by
    obtain ⟨p, hp, hm⟩ := (hs.spliced_iff hb).1 h
    rw [hr] at hm
    exact hb.nodes_fresh ((hb.internal ℓ p hp).2.1 _ hm)

theorem callOk_afterSplit (hb : BLink t g) (hp : Pending t g ℓ child sr) :
    CallOk t g before (.insert key id) (t.afterSplit child sr) := by
  unfold BPlusTree.afterSplit
  cases hh : (t.nodes child).parentHint with
  | none => exact ⟨ℓ, hp⟩
  | some h => exact ⟨ℓ, hp, hb.hints ℓ child hp.child_mem h hh⟩

theorem placed_afterSplit :
    placed (.insert key id) (t.afterSplit child sr) = {(key, id)} := by
  unfold BPlusTree.afterSplit
  cases (t.nodes child).parentHint <;> rfl

theorem pendingRight_afterSplit : (t.afterSplit child sr).pendingRight = some sr.right := by
  unfold BPlusTree.afterSplit
  cases (t.nodes child).parentHint <;> rfl

theorem insertSection_ok (hb : BLink t g) (hc : cur ∈ g.chain 0) (hlow : ∀ v ∈ g.low cur, v < key)
    (hhigh : BPlusTree.exceeds (t.nodes cur) key = false) (out : List Entry) :
    SectionOk t g before (.insert key id) (.descend cur out)
      (t.insertSection cur key id).1 (t.insertSection cur key id).2
      (g.next t (t.insertSection cur key id).2) := by
  have hpar := (hb.leaf cur hc).2.parallel
  have hb₁ := hb.insertEntry id hc hlow hhigh
  have he₁ : Evolves t g (t.insertEntry cur key id) g := .insertEntry hpar
  have hcont : entriesOf (t.insertEntry cur key id) (g.chain 0) =
      (key, id) ::ₘ entriesOf t (g.chain 0) := entriesOf_insertEntry hpar hc (hb.nodup 0)
  have hspl : ∀ ℓ c, Spliced (t.insertEntry cur key id) g ℓ c → Spliced t g ℓ c := by
    rintro ℓ c ⟨p, hp, hm⟩
    rw [((insertEntry_edits t cur key id).fields p).2.1] at hm
    exact ⟨p, hp, hm⟩
  have hplaced : ∀ pc', placed (.insert key id) pc' = {(key, id)} →
      entriesOf (t.insertEntry cur key id) (g.chain 0) + placed (.insert key id)
        (.descend cur out) =
        entriesOf t (g.chain 0) + placed (.insert key id) pc' := by
    intro pc' h
    rw [hcont, h, placed, add_zero, ← Multiset.singleton_add, add_comm]
  unfold BPlusTree.insertSection
  dsimp only
  split_ifs with hfit
  · exact ⟨hb₁, he₁, trivial, hplaced (.done []) rfl, fun ℓ c _ h => .inl (hspl ℓ c h),
      by rintro r ⟨⟩⟩
  · cases hsplit : (t.insertEntry cur key id).splitLeaf cur with
    | none =>
      exact ⟨hb₁, he₁, trivial, hplaced .threw rfl, fun ℓ c _ h => .inl (hspl ℓ c h),
        by rintro r ⟨⟩⟩
    | some res =>
      obtain ⟨t₂, sr⟩ := res
      dsimp only
      have hcount : cur ≠ (t.insertEntry cur key id).count := (hb.lt_count 0 cur hc).ne
      have hne : ((t.insertEntry cur key id).nodes cur).keys ≠ [] := by
        rintro h
        rw [h] at hfit
        exact hfit (Nat.zero_le _)
      obtain ⟨hs, hr, -⟩ := splitLeaf_spec hsplit hcount hne
      have hent := splitLeaf_entries hsplit hcount hne
      have hb₂ := hs.bLink hb₁ hc
        (splitLeaf_halves hsplit hcount hne (hb₁.leaf cur hc).1 (hb₁.leaf cur hc).2)
      have hnext : g.next t (t₂.afterSplit cur sr) = g.split cur t.count sr.separator :=
        next_afterSplit hr
      rw [hnext]
      refine ⟨hb₂, he₁.trans (hs.evolves hb₁ hc fun _ => hent),
        callOk_afterSplit hb₂ (hs.pending hr hb₁ hc), ?_,
        fun ℓ c _ h => .inl (hspl ℓ c ((hs.spliced_iff hb₁).1 h)), ?_⟩
      · exact (congrArg (· + _) (hs.entriesOf_chain hb₁ hc fun _ => hent)).trans
          (hplaced _ placed_afterSplit)
      · rw [pendingRight_afterSplit, hr]
        rintro r ⟨⟩
        exact .inr le_rfl

theorem spliceSection_ok (hb : BLink t g) (hp : Pending t g ℓ child sr)
    (hparent : parent ∈ g.chain (ℓ + 1)) (hch : child ∈ (t.nodes parent).children) :
    SectionOk t g before (.insert key id) (.relocate parent child sr)
      (t.spliceSection parent child sr).1 (t.spliceSection parent child sr).2
      (g.next t (t.spliceSection parent child sr).2) := by
  have hs₁ : Splicing t g ℓ parent child sr :=
    ⟨hparent, hch, hp.right_mem, hp.right_low, hp.unspliced⟩
  have hb₁ := hs₁.bLink hb
  have he₁ := hs₁.evolves hb
  have hcont : entriesOf (t.splice parent child sr) (g.chain 0) = entriesOf t (g.chain 0) :=
    entriesOf_congr fun x hx => hs₁.entries hb hx
  have hspl : ∀ ℓ c, Spliced (t.splice parent child sr) g ℓ c →
      Spliced t g ℓ c ∨ c ∈ some sr.right ∨ g.low c = none := by
    rintro ℓ' c ⟨p, hp, hm⟩
    rcases (mem_splice_children hch).1 hm with ⟨-, rfl⟩ | hm
    · exact .inr (.inl rfl)
    · exact .inl ⟨p, hp, hm⟩
  unfold BPlusTree.spliceSection
  dsimp only
  split_ifs with hfit
  · exact ⟨hb₁, he₁, trivial, congrArg (· + _) hcont, fun ℓ c _ h => hspl ℓ c h,
      by rintro r ⟨⟩⟩
  · cases hsplit : (t.splice parent child sr).splitInternal parent with
    | none =>
      exact ⟨hb₁, he₁, trivial, congrArg (· + _) hcont, fun ℓ c _ h => hspl ℓ c h,
        by rintro r ⟨⟩⟩
    | some res =>
      obtain ⟨t₂, sr'⟩ := res
      dsimp only
      have hcount : parent ≠ (t.splice parent child sr).count := (hb.lt_count _ _ hparent).ne
      have hne : ((t.splice parent child sr).nodes parent).keys ≠ [] := by
        rintro h
        rw [h] at hfit
        exact hfit (Nat.zero_le _)
      obtain ⟨hleaf, hmem, hmap⟩ := hb₁.internal ℓ parent hparent
      have hfresh : (t.splice parent child sr).count ∉
          ((t.splice parent child sr).nodes parent).children :=
        fun hm => hb₁.nodes_fresh (hmem _ hm)
      obtain ⟨hs, hr, -⟩ := splitInternal_spec hsplit hcount hne hfresh
      have hb₂ := hs.bLink hb₁ hparent
        (splitInternal_halves hsplit hcount hne hfresh hleaf hmap ℓ)
      have hnext : g.next t (t₂.afterSplit parent sr') = g.split parent t.count sr'.separator :=
        next_afterSplit hr
      rw [hnext]
      refine ⟨hb₂, he₁.trans (hs.evolves hb₁ hparent fun h => by cases h),
        callOk_afterSplit hb₂ (hs.pending hr hb₁ hparent), ?_,
        fun ℓ c _ h => hspl ℓ c ((hs.spliced_iff hb₁).1 h), ?_⟩
      · rw [placed_afterSplit]
        exact congrArg (· + _)
          ((hs.entriesOf_chain hb₁ hparent fun h => by cases h).trans hcont)
      · rw [pendingRight_afterSplit, hr]
        rintro r ⟨⟩
        exact .inr le_rfl

/-- Following right links from a hint either has found the parent or can go on. -/
theorem relocate_ok (hb : BLink t g) (hp : Pending t g ℓ child sr) (hl : Leads t g ℓ child cur) :
    SectionOk t g before (.insert key id) (.relocate cur child sr)
      (t.runSection (.insert key id) (.relocate cur child sr)).1
      (t.runSection (.insert key id) (.relocate cur child sr)).2
      (g.next t (t.runSection (.insert key id) (.relocate cur child sr)).2) := by
  obtain ⟨hcur, p, hpar, hw⟩ := hl
  rw [BPlusTree.runSection]
  cases hw with
  | here hm =>
    rw [if_pos hm]
    exact spliceSection_ok hb hp hpar hm
  | @step _ right _ hn hlink hw =>
    rw [if_neg hn]
    rw [show (t.nodes cur).rightLink = some right from hlink]
    exact .stay hb ⟨ℓ, hp, hb.link_lt _ _ hlink, p, hpar, hw⟩ rfl (fun _ h => h)
      (next_relocate hb hp)

theorem growRoot_ok (hb : BLink t g) (hp : Pending t g ℓ child sr) (hroot : t.root = child) :
    SectionOk t g before (.insert key id) (.growRoot child sr)
      (t.runSection (.insert key id) (.growRoot child sr)).1
      (t.runSection (.insert key id) (.growRoot child sr)).2
      (g.next t (t.runSection (.insert key id) (.growRoot child sr)).2) := by
  rw [BPlusTree.runSection, if_pos hroot]
  cases hgrow : t.growRoot child sr with
  | none => exact .stay hb trivial rfl (by rintro r ⟨⟩) rfl
  | some t' =>
    dsimp only
    obtain rfl : ℓ = g.top := hb.level_unique _ _ _ hp.child_mem (hroot ▸ hb.root_mem)
    obtain ⟨hcount, -, hnew, hold⟩ := growRoot_spec hgrow
    have hev := growRoot_evolves hgrow hb
    have htop : t.count ∈ (g.grow t.count).chain (g.top + 1) := by rw [chain_grow, if_pos rfl]; simp
    have hleads : ∀ c ∈ [child, sr.right], Leads t' (g.grow t.count) g.top c t.count := by
      intro c hc
      refine ⟨by rw [hcount]; exact Nat.lt_succ_self _, t.count, htop, .here ?_⟩
      rw [hnew]
      exact hc
    have hnext : g.next t (.hintChild child sr t.count) = g.grow t.count := if_pos rfl
    rw [hnext]
    refine ⟨growRoot_bLink hgrow hb hroot hp.right_mem hp.right_low, hev,
      ⟨g.top, (hev.chain _).subset hp.child_mem, (hev.chain _).subset hp.right_mem,
        hleads _ (by simp), hleads _ (by simp)⟩, ?_, ?_, by rintro r ⟨⟩⟩
    · have hcont : entriesOf t' (g.chain 0) = entriesOf t (g.chain 0) :=
        entriesOf_congr fun x hx => by rw [hold x (hb.lt_count 0 x hx).ne]
      rw [chain_grow, if_neg (Nat.succ_ne_zero _).symm, hcont]
      rfl
    · rintro ℓ' c hc ⟨p, hp', hm⟩
      rw [chain_grow] at hp'
      split_ifs at hp' with hℓ
      · obtain rfl : p = t.count := List.mem_singleton.1 hp'
        rw [hnew] at hm
        rcases List.mem_pair.1 hm with rfl | rfl
        · exact .inr (.inr (hroot ▸ hb.root_low))
        · exact .inr (.inl rfl)
      · rw [hold p (hb.lt_count _ p hp').ne] at hm
        exact .inl ⟨p, hp', hm⟩

theorem setHints_ok (hb : BLink t g) {h : NodeId} (hm : child ∈ g.chain ℓ)
    (hl : Leads t g ℓ child h) (hc : CallOk t g before op pc')
    (hplaced : placed op pc' = placed op pc) (hp : pc'.pendingRight = none) :
    SectionOk t g before op pc (t.setHints [child] h) pc' g where
  blink := hb.setHints fun ℓ' x hx hxc => by
    obtain rfl := List.mem_singleton.1 hxc
    obtain rfl := hb.level_unique _ _ _ hx hm
    exact hl
  evolves := .setHints [child] h
  call := hc.evolves hb (.setHints [child] h) (by rw [hp]; rintro r ⟨⟩)
  contents := by rw [entriesOf_setHints, hplaced]
  spliced ℓ' c _ := by
    rintro ⟨p, hp, hm⟩
    rw [setHints_children] at hm
    exact .inl ⟨p, hp, hm⟩
  pending := by rw [hp]; rintro r ⟨⟩

theorem scanSection_ok (hb : BLink t g) {lo hi : Key} {out : List Entry} {pre post : List NodeId}
    (hs : Scanning t g before lo hi cur out pre post) :
    SectionOk t g before (.range lo hi) (.descend cur out) t (t.scanSection cur lo hi out)
      (g.next t (t.scanSection cur lo hi out)) := by
  have hcur : cur ∈ g.chain 0 := by rw [hs.cut]; simp
  have hok := (hb.leaf cur hcur).2
  unfold BPlusTree.scanSection
  dsimp only
  rw [batch_eq hok]
  split_ifs with hex
  · obtain ⟨k, hk, hlt⟩ := List.any_eq_true.1 hex
    have hzero := filter_entriesOf_eq_zero lo hb hs.cut (List.mem_of_mem_drop hk)
      (of_decide_eq_true hlt)
    exact .stay hb (hs.finish hb hzero) rfl (by rintro r ⟨⟩) rfl
  · cases hlink : (t.nodes cur).rightLink with
    | none =>
      rcases hb.next hs.cut with ⟨rfl, -⟩ | ⟨b, -, -, hl, -⟩
      · exact .stay hb (hs.finish hb rfl) rfl (by rintro r ⟨⟩) rfl
      · rw [hlink] at hl
        cases hl
    | some next =>
      exact .stay hb (.inr (hs.step hb hlink)) rfl (by rintro r ⟨⟩) rfl

theorem runSection_right (op : Op) {out : List Entry} {right : NodeId}
    (hex : BPlusTree.exceeds (t.nodes cur) op.target = true)
    (hlink : (t.nodes cur).rightLink = some right) :
    t.runSection op (.descend cur out) = (t, .descend right out) := by
  cases op <;> simp [BPlusTree.runSection, hex, hlink]

theorem runSection_child (op : Op) {out : List Entry}
    (hex : BPlusTree.exceeds (t.nodes cur) op.target = false)
    (hleaf : (t.nodes cur).isLeaf = false) :
    t.runSection op (.descend cur out) = (t, .descend ((t.nodes cur).children.getD
      (BPlusTree.childIndex (t.nodes cur) op.target) 0) out) := by
  cases op <;> simp [BPlusTree.runSection, hex, hleaf]

theorem runSection_insert (key : Key) (id : InternalId) {out : List Entry}
    (hex : BPlusTree.exceeds (t.nodes cur) key = false)
    (hleaf : (t.nodes cur).isLeaf = true) :
    t.runSection (.insert key id) (.descend cur out) = t.insertSection cur key id := by
  simp [BPlusTree.runSection, Op.target, hex, hleaf]

theorem runSection_range (lo hi : Key) {out : List Entry}
    (hex : BPlusTree.exceeds (t.nodes cur) lo = false) (hleaf : (t.nodes cur).isLeaf = true) :
    t.runSection (.range lo hi) (.descend cur out) = (t, t.scanSection cur lo hi out) := by
  simp [BPlusTree.runSection, Op.target, hex, hleaf]

/-- The section of either operation under the lock of a node on the way down. -/
theorem descend_ok (hb : BLink t g) (hcov : Covers g op.target cur) {out : List Entry}
    (hnext : ∀ right, (t.nodes cur).rightLink = some right → Covers g op.target right →
      CallOk t g before op (.descend right out))
    (hdown : ∀ child, Covers g op.target child → CallOk t g before op (.descend child out))
    (hleaf : (t.nodes cur).isLeaf = true → BPlusTree.exceeds (t.nodes cur) op.target = false →
      SectionOk t g before op (.descend cur out)
        (t.runSection op (.descend cur out)).1 (t.runSection op (.descend cur out)).2
        (g.next t (t.runSection op (.descend cur out)).2)) :
    SectionOk t g before op (.descend cur out)
      (t.runSection op (.descend cur out)).1 (t.runSection op (.descend cur out)).2
      (g.next t (t.runSection op (.descend cur out)).2) := by
  have hplaced : ∀ x, placed op (.descend x out) = placed op (.descend cur out) := by
    intro x
    cases op <;> rfl
  by_cases hex : BPlusTree.exceeds (t.nodes cur) op.target = true
  · obtain ⟨right, hlink, hright⟩ := hcov.right hb hex
    rw [runSection_right op hex hlink]
    exact .stay hb (hnext right hlink hright) (hplaced right) (by rintro r ⟨⟩) rfl
  · rw [Bool.not_eq_true] at hex
    cases hl : (t.nodes cur).isLeaf with
    | true => exact hleaf hl hex
    | false =>
      have hchild := hcov.child hb hl
      rw [runSection_child op hex hl]
      exact .stay hb (hdown _ hchild) (hplaced _) (by rintro r ⟨⟩) rfl

/-- **Every section** keeps the invariant and what its call knows about the tree. -/
theorem runSection_ok (hb : BLink t g) (hc : CallOk t g before op pc)
    (hbefore : before ≤ entriesOf t (g.chain 0)) :
    SectionOk t g before op pc (t.runSection op pc).1 (t.runSection op pc).2
      (g.next t (t.runSection op pc).2) := by
  cases op with
  | insert key id =>
    cases pc with
    | lockRoot => exact .stay hb (covers_root hb key) rfl (by rintro r ⟨⟩) rfl
    | descend cur out =>
      have hcov : Covers g (Op.insert key id).target cur := hc
      refine descend_ok hb hcov (fun _ _ h => h) (fun _ h => h) fun hl hex => ?_
      obtain ⟨hmem, hlow⟩ := hcov.leaf hb hl
      rw [runSection_insert key id hex hl]
      exact insertSection_ok hb hmem hlow hex out
    | relocate cur child sr =>
      obtain ⟨ℓ, hp, hl⟩ := hc
      exact relocate_ok hb hp hl
    | growRoot child sr =>
      obtain ⟨ℓ, hp⟩ := hc
      by_cases hroot : t.root = child
      · exact growRoot_ok hb hp hroot
      · rw [BPlusTree.runSection, if_neg hroot]
        exact .stay hb ⟨ℓ, hp⟩ rfl (fun _ h => h) rfl
    | freshHint child sr =>
      obtain ⟨ℓ, hp⟩ := hc
      rw [BPlusTree.runSection]
      cases hh : (t.nodes child).parentHint with
      | none => exact .stay hb ⟨ℓ, hp⟩ rfl (fun _ h => h) (next_growRoot hb hp)
      | some h =>
        exact .stay hb ⟨ℓ, hp, hb.hints ℓ child hp.child_mem h hh⟩ rfl (fun _ h => h)
          (next_relocate hb hp)
    | hintChild child sr newRoot =>
      obtain ⟨ℓ, h1, h2, h3, h4⟩ := hc
      exact setHints_ok hb h1 h3 ⟨ℓ, h2, h4⟩ rfl rfl
    | hintRight right newRoot =>
      obtain ⟨ℓ, h1, h2⟩ := hc
      exact setHints_ok hb h1 h2 trivial rfl rfl
    | done out => exact .stay hb hc rfl (fun _ h => h) rfl
    | threw => exact .stay hb hc rfl (fun _ h => h) rfl
    | targetLost => exact hc.elim
    | badLink => exact hc.elim
  | range lo hi =>
    cases pc with
    | lockRoot =>
      rw [BPlusTree.runSection]
      dsimp only
      split_ifs with hlt
      · refine .stay hb ⟨?_, Multiset.zero_le _, List.Pairwise.nil, by simp⟩ rfl
          (by rintro r ⟨⟩) rfl
        refine (Multiset.filter_eq_nil.2 fun e _ hr => ?_).le
        exact absurd (hr.1.trans hr.2) (Nat.not_le.2 hlt)
      · exact .stay hb (.inl ⟨rfl, covers_root hb lo⟩) rfl (by rintro r ⟨⟩) rfl
    | descend cur out =>
      rcases hc with ⟨rfl, hcov⟩ | ⟨pre, post, hs⟩
      · have hcov : Covers g (Op.range lo hi).target cur := hcov
        refine descend_ok hb hcov (fun _ _ h => .inl ⟨rfl, h⟩) (fun _ h => .inl ⟨rfl, h⟩)
          fun hl hex => ?_
        obtain ⟨hmem, hlow⟩ := hcov.leaf hb hl
        obtain ⟨pre, post, hs⟩ := Scanning.start hi hb hbefore hmem hlow
        rw [runSection_range lo hi hex hl]
        exact scanSection_ok hb hs
      · have hmem : cur ∈ g.chain 0 := by rw [hs.cut]; simp
        have hl := (hb.leaf cur hmem).1
        by_cases hex : BPlusTree.exceeds (t.nodes cur) lo = true
        · -- the leaf has been split below `lo` since; none of its pairs are in the interval
          obtain ⟨k, hk, hlt⟩ := exceeds_iff.1 hex
          have hnil : (t.nodes cur).entries.filter (InRange lo hi) = [] := by
            refine List.filter_eq_nil_iff.2 fun e he => ?_
            have := (hb.leaf cur hmem).2.le_high _ (Node.fst_mem_keys he) k hk
            simp [Nat.not_le.2 (this.trans_lt hlt)]
          rcases hb.next hs.cut with ⟨-, -, hhigh⟩ | ⟨right, post', -, hlink, -⟩
          · rw [hk] at hhigh
            cases hhigh
          · have := hs.step hb hlink
            rw [hnil, List.append_nil] at this
            rw [runSection_right (.range lo hi) hex hlink]
            exact .stay hb (.inr this) rfl (by rintro r ⟨⟩) rfl
        · rw [runSection_range lo hi (Bool.not_eq_true _ ▸ hex) hl]
          exact scanSection_ok hb hs
    | done out => exact .stay hb hc rfl (fun _ h => h) rfl
    | _ => exact hc.elim

end Sections

end BTree

end Vdb
