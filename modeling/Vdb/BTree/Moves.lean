import Vdb.BTree.Concurrent
import Mathlib.Order.Interval.Set.Nat

/-!
# How long a call takes

Nodes are never taken away while inserts and queries run, so a walk that goes right along a level or
on to the next level never comes to a node twice, whatever the other calls do to the tree meanwhile:
neither a descent, nor an insert that goes up from a split to the parents.  An insert whose node has
no hint yet waits in a loop until another one has set it; `Pc.owes` says which.

* `Shape.passed` : the nodes a walk has behind it.
* `Moves` : what a section does for the end of its call, and for the calls that wait for it.
* `runSection_moves` : every section leaves its call less to do, unless it waits for the hint of a
  node.
-/

namespace Vdb

namespace BTree

/-! ### Walks -/

/-- The nodes a walk at `cur` has behind it: those of the levels that `R` puts before that of `cur`,
and those left of `cur` on its level. -/
def Shape.passed (g : Shape) (R : ℕ → ℕ → Prop) (cur : NodeId) : Set NodeId :=
  {y | ∃ ℓ, cur ∈ g.chain ℓ ∧ ((∃ k, R k ℓ ∧ y ∈ g.chain k) ∨ [y, cur].Sublist (g.chain ℓ))}

/-- How many of `N` nodes the walk does not have behind it. -/
noncomputable def Shape.ahead (g : Shape) (N : ℕ) (R : ℕ → ℕ → Prop) (cur : NodeId) : ℕ :=
  N - (g.passed R cur).ncard

variable {t t' : BPlusTree} {g g' : Shape} {R : ℕ → ℕ → Prop} {cur next right child y : NodeId}
  {N ℓ ℓ' : ℕ} {pre post : List NodeId}

theorem passed_subset (hb : BLink t g) : g.passed R cur ⊆ Set.Iio t.count := by
  rintro y ⟨ℓ, -, ⟨k, -, hy⟩ | hy⟩
  · exact hb.lt_count k y hy
  · exact hb.lt_count ℓ y (hy.subset List.mem_cons_self)

theorem finite_passed (hb : BLink t g) : (g.passed R cur).Finite :=
  (Set.finite_Iio t.count).subset (passed_subset hb)

theorem not_mem_passed [Std.Irrefl R] (hb : BLink t g) : cur ∉ g.passed R cur := by
  rintro ⟨ℓ, hc, ⟨k, hk, hk'⟩ | hpair⟩
  · rw [hb.level_unique k ℓ cur hk' hc] at hk
    exact Std.Irrefl.irrefl ℓ hk
  · exact (List.nodup_cons.1 ((hb.nodup ℓ).sublist hpair)).1 List.mem_cons_self

/-- What a walk has behind it stays behind it. -/
theorem Evolves.passed (he : Evolves t g t' g') : g.passed R cur ⊆ g'.passed R cur := by
  rintro y ⟨ℓ, hc, ⟨k, hk, hy⟩ | hpair⟩
  · exact ⟨ℓ, (he.chain ℓ).subset hc, .inl ⟨k, hk, (he.chain k).subset hy⟩⟩
  · exact ⟨ℓ, (he.chain ℓ).subset hc, .inr (hpair.trans (he.chain ℓ))⟩

/-- A step to the right leaves the node behind. -/
theorem passed_right (hb : BLink t g) (hd : g.chain ℓ = pre ++ cur :: right :: post) :
    insert cur (g.passed R cur) ⊆ g.passed R right := by
  have hcur : cur ∈ g.chain ℓ := by
    rw [hd]
    exact List.mem_append_right _ List.mem_cons_self
  have hright : right ∈ g.chain ℓ := by
    rw [hd]
    exact List.mem_append_right _ (List.mem_cons_of_mem _ List.mem_cons_self)
  have hpair : ∀ y ∈ pre ++ [cur], [y, right].Sublist (g.chain ℓ) := by
    intro y hy
    have hsub : [y, right].Sublist ((pre ++ [cur]) ++ right :: post) :=
      (List.singleton_sublist.2 hy).append (List.singleton_sublist.2 List.mem_cons_self)
    rwa [hd, List.append_cons]
  rintro y (rfl | ⟨ℓ', hc, hy⟩)
  · exact ⟨ℓ, hright, .inr (hpair y (List.mem_append_right _ (List.mem_singleton_self y)))⟩
  · obtain rfl := hb.level_unique ℓ' ℓ cur hc hcur
    refine ⟨ℓ', hright, hy.imp_right fun hy => hpair y ?_⟩
    exact List.mem_append_left _ (ListEdit.cut_of_pair hy hd (hb.nodup ℓ'))

/-- So does a step to another level. -/
theorem passed_level [IsTrans ℕ R] (hb : BLink t g) (hc : cur ∈ g.chain ℓ)
    (hn : next ∈ g.chain ℓ') (h : R ℓ ℓ') :
    insert cur (g.passed R cur) ⊆ g.passed R next := by
  rintro y (rfl | ⟨m, hcm, hy⟩)
  · exact ⟨ℓ', hn, .inl ⟨ℓ, h, hc⟩⟩
  · obtain rfl := hb.level_unique m ℓ cur hcm hc
    rcases hy with ⟨k, hk, hy⟩ | hpair
    · exact ⟨ℓ', hn, .inl ⟨k, IsTrans.trans _ _ _ hk h, hy⟩⟩
    · exact ⟨ℓ', hn, .inl ⟨m, h, hpair.subset List.mem_cons_self⟩⟩

variable (hb : BLink t g) (hb' : BLink t' g') (hN : t'.count ≤ N)

include hb hb' hN in
theorem ahead_lt [Std.Irrefl R]
    (h : insert cur (g.passed R cur) ⊆ g'.passed R next) :
    g'.ahead N R next < g.ahead N R cur := by
  have hmore := Set.ncard_le_ncard h (finite_passed hb')
  have hsub : g'.passed R next ⊆ Set.Iio t'.count := passed_subset hb'
  have hmost := Set.ncard_le_ncard hsub (Set.finite_Iio _)
  rw [Set.ncard_insert_of_notMem (not_mem_passed hb) (finite_passed hb)] at hmore
  rw [Set.ncard_Iio_nat] at hmost
  unfold Shape.ahead
  omega

include hb' in
theorem ahead_le (h : g.passed R cur ⊆ g'.passed R next) :
    g'.ahead N R next ≤ g.ahead N R cur :=
  Nat.sub_le_sub_left (Set.ncard_le_ncard h (finite_passed hb')) N

include hb in
theorem ahead_pos [Std.Irrefl R] (hc : cur ∈ g.chain ℓ) (hN : t.count ≤ N) :
    0 < g.ahead N R cur := by
  have hsub : insert cur (g.passed R cur) ⊆ Set.Iio t.count :=
    Set.insert_subset (hb.lt_count ℓ cur hc) (passed_subset hb)
  have hmost := Set.ncard_le_ncard hsub (Set.finite_Iio _)
  rw [Set.ncard_insert_of_notMem (not_mem_passed hb) (finite_passed hb), Set.ncard_Iio_nat] at hmost
  unfold Shape.ahead
  omega

/-! ### Hints -/

/-- The hint of a node is a node of the level above. -/
def Hinted (t : BPlusTree) (g : Shape) : Prop :=
  ∀ ℓ, ∀ x ∈ g.chain ℓ, ∀ h ∈ (t.nodes x).parentHint, h ∈ g.chain (ℓ + 1)

/-- A node of a level that has not been told its parent. -/
def Unhinted (t : BPlusTree) (g : Shape) (x : NodeId) : Prop :=
  (∃ ℓ, x ∈ g.chain ℓ) ∧ (t.nodes x).parentHint = none

/-- The nodes that a call is about to tell their parent. -/
def Pc.owes : Pc → List NodeId
  | .relocate _ _ sr => [sr.right]
  | .growRoot _ sr => [sr.right]
  | .freshHint _ sr => [sr.right]
  | .hintChild child sr _ => [child, sr.right]
  | .hintRight right _ => [right]
  | _ => []

/-- Only the new root, and the nodes `owes'` that a call goes on owing, are new among the nodes
without a hint; of those it owed, and of the old root, no others are left. -/
def Informs (t : BPlusTree) (g : Shape) (owes : List NodeId) (t' : BPlusTree) (g' : Shape)
    (owes' : List NodeId) : Prop :=
  ∀ x, Unhinted t' g' x → x = t'.root ∨ x ∈ owes' ∨ Unhinted t g x ∧ x ≠ t.root ∧ x ∉ owes

/-- A call on its way up stands on the level above the node that has been split. -/
def Pc.Climbs (g : Shape) : Pc → Prop
  | .relocate cur child _ => ∃ ℓ, child ∈ g.chain ℓ ∧ cur ∈ g.chain (ℓ + 1)
  | .hintChild child sr newRoot =>
    ∃ ℓ, child ∈ g.chain ℓ ∧ sr.right ∈ g.chain ℓ ∧ newRoot ∈ g.chain (ℓ + 1)
  | .hintRight right newRoot => ∃ ℓ, right ∈ g.chain ℓ ∧ newRoot ∈ g.chain (ℓ + 1)
  | _ => True

/-- The call is in the loop that waits for the hint of a node. -/
def Pc.isWaiting : Pc → Bool
  | .growRoot _ _ => true
  | .freshHint _ _ => true
  | _ => false

/-- The sections that an insert may run after its descent, in a tree of at most `N` nodes. -/
def climbWork (N : ℕ) : Op → ℕ
  | .insert _ _ => 3 * N + 1
  | .range _ _ => 0

/-- The sections that a call at `pc` may still run, but for those that leave it waiting, while there
are at most `N` nodes. -/
noncomputable def Pc.work (g : Shape) (N : ℕ) (op : Op) : Pc → ℕ
  | .lockRoot => N + 1 + climbWork N op
  | .descend cur _ => g.ahead N (· > ·) cur + climbWork N op
  | .relocate cur _ _ => 3 * g.ahead N (· < ·) cur + 1
  | .growRoot child _ => 3 * g.ahead N (· < ·) child
  | .freshHint child _ => 3 * g.ahead N (· < ·) child
  | .hintChild _ _ _ => 2
  | .hintRight _ _ => 1
  | _ => 0

/-- What a section does for the end of its call. -/
structure Moves (t : BPlusTree) (g : Shape) (op : Op) (pc : Pc) (t' : BPlusTree) (pc' : Pc)
    (g' : Shape) : Prop where
  hinted : Hinted t' g'
  climbs : pc'.Climbs g'
  informs : pc' = .threw ∨ Informs t g pc.owes t' g' pc'.owes
  work : ∀ N, t'.count ≤ N →
    pc'.work g' N op ≤ pc.work g N op - (!(pc.isWaiting && pc'.isWaiting)).toNat

variable {op : Op} {pc pc' : Pc} {owes owes' owes'' : List NodeId} {t'' : BPlusTree} {g'' : Shape}
  {sep key lo hi : Key} {id : InternalId} {sr : SplitResult} {before : Multiset Entry}

theorem Pc.Climbs.evolves (h : pc.Climbs g) (he : Evolves t g t' g') : pc.Climbs g' := by
  have hmem : ∀ {ℓ x}, x ∈ g.chain ℓ → x ∈ g'.chain ℓ := fun hx => (he.chain _).subset hx
  cases pc with
  | relocate cur child sr => exact h.imp fun ℓ h => ⟨hmem h.1, hmem h.2⟩
  | hintChild child sr newRoot => exact h.imp fun ℓ h => ⟨hmem h.1, hmem h.2.1, hmem h.2.2⟩
  | hintRight right newRoot => exact h.imp fun ℓ h => ⟨hmem h.1, hmem h.2⟩
  | _ => trivial

/-- What other calls do to the tree leaves a call no more to do. -/
theorem Pc.work_le (hb' : BLink t' g') (he : Evolves t g t' g') (pc : Pc) :
    pc.work g' N op ≤ pc.work g N op := by
  cases pc with
  | descend cur out => exact Nat.add_le_add_right (ahead_le hb' he.passed) _
  | relocate cur child sr =>
    exact Nat.add_le_add_right (Nat.mul_le_mul_left 3 (ahead_le hb' he.passed)) 1
  | growRoot child sr => exact Nat.mul_le_mul_left 3 (ahead_le hb' he.passed)
  | freshHint child sr => exact Nat.mul_le_mul_left 3 (ahead_le hb' he.passed)
  | _ => exact le_rfl

theorem Informs.trans (h : Informs t g owes t' g' []) (h' : Informs t' g' [] t'' g'' owes'') :
    Informs t g owes t'' g'' owes'' := by
  intro x hx
  rcases h' x hx with hroot | howes | ⟨hx', hne, -⟩
  · exact .inl hroot
  · exact .inr (.inl howes)
  · rcases h x hx' with hroot | howes | hold
    · exact absurd hroot hne
    · cases howes
    · exact .inr (.inr hold)

/-- Where no hint is lost, only what has been owed may be forgotten. -/
theorem informs_of_hints (hroot : t'.root = t.root) (hchain : g'.chain = g.chain)
    (hhint : ∀ x, (t'.nodes x).parentHint = none → (t.nodes x).parentHint = none)
    (howes : ∀ x ∈ owes, (t'.nodes x).parentHint = none → x ∈ owes') :
    Informs t g owes t' g' owes' := by
  rintro x ⟨hx, hnone⟩
  rw [hchain] at hx
  by_cases hr : x = t.root
  · exact .inl (hr.trans hroot.symm)
  by_cases ho : x ∈ owes
  · exact .inr (.inl (howes x ho hnone))
  · exact .inr (.inr ⟨⟨hx, hhint x hnone⟩, hr, ho⟩)

/-- A section that leaves the tree as it is. -/
theorem Moves.stay (hh : Hinted t g) (hp : pc'.Climbs g) (ho : pc.owes ⊆ pc'.owes)
    (hn : g.next t pc' = g) (hw : ∀ N, t.count ≤ N →
      pc'.work g N op ≤ pc.work g N op - (!(pc.isWaiting && pc'.isWaiting)).toNat) :
    Moves t g op pc t pc' (g.next t pc') := by
  rw [hn]
  exact ⟨hh, hp, .inr (informs_of_hints rfl rfl (fun _ h => h) fun _ hx _ => ho hx), hw⟩

theorem Hinted.split (hh : Hinted t g) (hb : BLink t g) (hs : SplitsAt t t' cur sep)
    (hc : cur ∈ g.chain ℓ) (hleaf : ℓ = 0 → (t'.nodes t.count).children = []) :
    Hinted t' (g.split cur t.count sep) ∧
      Informs t g [] t' (g.split cur t.count sep) [t.count] := by
  constructor
  · intro ℓ' x hx h hxh
    by_cases hnew : x = t.count
    · rw [hnew, hs.hint_new] at hxh
      cases hxh
    have hx' := (mem_chain_split.1 hx).resolve_right fun hc => hnew hc.1
    rw [hs.hint x hnew] at hxh
    split_ifs at hxh with hmoved
    · -- a child that has moved to the new node, on the level above
      obtain ⟨m, rfl⟩ : ∃ m, ℓ = m + 1 := Nat.exists_eq_succ_of_ne_zero fun hℓ => by
        rw [hleaf hℓ] at hmoved
        cases hmoved
      have hchild : x ∈ (t.nodes cur).children := by
        rw [hs.children_cur]
        exact List.mem_append_right _ hmoved
      obtain rfl := hb.level_unique ℓ' m x hx' ((hb.internal m cur hc).2.1 x hchild)
      obtain rfl : t.count = h := by simpa using hxh
      exact mem_chain_split.2 (.inr ⟨rfl, hc⟩)
    · exact mem_chain_split.2 (.inl (hh ℓ' x hx' h hxh))
  · rintro x ⟨⟨ℓ', hx⟩, hnone⟩
    by_cases hnew : x = t.count
    · exact .inr (.inl (hnew ▸ List.mem_singleton_self x))
    have hx' := (mem_chain_split.1 hx).resolve_right fun hc => hnew hc.1
    by_cases hroot : x = t.root
    · exact .inl (hroot.trans hs.root.symm)
    rw [hs.hint x hnew] at hnone
    split_ifs at hnone
    exact .inr (.inr ⟨⟨⟨ℓ', hx'⟩, hnone⟩, hroot, List.not_mem_nil⟩)

/-- An insert goes up from the node it has split, or waits for its hint. -/
theorem afterSplit_moves (op : Op) (sr : SplitResult) (hb : BLink t g) (hh : Hinted t g)
    (hc : cur ∈ g.chain ℓ) :
    (t.afterSplit cur sr).Climbs g ∧ (t.afterSplit cur sr).owes = [sr.right] ∧
      ∀ N, t.count ≤ N → (t.afterSplit cur sr).work g N op ≤ 3 * g.ahead N (· < ·) cur := by
  unfold BPlusTree.afterSplit
  cases hhint : (t.nodes cur).parentHint with
  | none => exact ⟨trivial, rfl, fun N _ => le_rfl⟩
  | some h =>
    have hup := hh ℓ cur hc h hhint
    refine ⟨⟨ℓ, hc, hup⟩, rfl, fun N hN => ?_⟩
    have hlt := ahead_lt hb hb hN (passed_level (R := (· < ·)) hb hc hup (Nat.lt_succ_self ℓ))
    simp only [Pc.work]
    omega

/-! ### Sections -/

theorem insertSection_moves (hb : BLink t g) (hh : Hinted t g) (hc : cur ∈ g.chain 0)
    (hlow : ∀ v ∈ g.low cur, v < key) (hhigh : BPlusTree.exceeds (t.nodes cur) key = false)
    (out : List Entry) :
    Moves t g (.insert key id) (.descend cur out) (t.insertSection cur key id).1
      (t.insertSection cur key id).2 (g.next t (t.insertSection cur key id).2) := by
  have hok : SectionOk t g 0 (.insert key id) (.descend cur out) _ _ _ :=
    insertSection_ok hb hc hlow hhigh out
  have hb₁ := hb.insertEntry id hc hlow hhigh
  have hedit := insertEntry_edits t cur key id
  have hhint : ∀ x, ((t.insertEntry cur key id).nodes x).parentHint = (t.nodes x).parentHint :=
    fun x => (hedit.fields x).2.2.2.2
  have hh₁ : Hinted (t.insertEntry cur key id) g := fun ℓ x hx h hxh =>
    hh ℓ x hx h (hhint x ▸ hxh)
  have hinf₁ : Informs t g [] (t.insertEntry cur key id) g [] :=
    informs_of_hints hedit.root rfl (fun x h => hhint x ▸ h) nofun
  unfold BPlusTree.insertSection at hok ⊢
  dsimp only at hok ⊢
  split_ifs at hok ⊢ with hfit
  · exact ⟨hh₁, trivial, .inr hinf₁, fun N _ => Nat.zero_le _⟩
  · cases hsplit : (t.insertEntry cur key id).splitLeaf cur with
    | none => exact ⟨hh₁, trivial, .inl rfl, fun N _ => Nat.zero_le _⟩
    | some res =>
      obtain ⟨t₂, sr⟩ := res
      rw [hsplit] at hok
      dsimp only at hok ⊢
      have hcount : cur ≠ (t.insertEntry cur key id).count := (hb.lt_count 0 cur hc).ne
      have hne : ((t.insertEntry cur key id).nodes cur).keys ≠ [] := by
        rintro h
        rw [h] at hfit
        exact hfit (Nat.zero_le _)
      obtain ⟨hs, hr, A, B, -, -, -, hnew⟩ := splitLeaf_spec hsplit hcount hne
      have hnext : g.next t (t₂.afterSplit cur sr) = g.split cur t.count sr.separator :=
        next_afterSplit hr
      rw [hnext] at hok ⊢
      obtain ⟨hh₂, hinf₂⟩ := hh₁.split hb₁ hs hc fun _ => by rw [hnew]
      obtain ⟨hclimbs, howes, hwork⟩ := afterSplit_moves (.insert key id) sr
        hok.blink hh₂ (mem_chain_split.2 (.inl hc))
      refine ⟨hh₂, hclimbs, .inr ?_, fun N hN => (hwork N hN).trans ?_⟩
      · rw [howes, hr]
        exact hinf₁.trans hinf₂
      · have hpos := ahead_pos (R := (· > ·)) hb hc (hok.evolves.count.trans hN)
        have hle : (g.split cur t.count sr.separator).ahead N (· < ·) cur ≤ N := Nat.sub_le _ _
        simp only [Pc.work, climbWork, Pc.isWaiting, Bool.false_and, Bool.not_false,
          Bool.toNat_true]
        omega

theorem spliceSection_moves (hb : BLink t g) (hh : Hinted t g) (hp : Pending t g ℓ child sr)
    (hparent : cur ∈ g.chain (ℓ + 1)) (hch : child ∈ (t.nodes cur).children) :
    Moves t g (.insert key id) (.relocate cur child sr) (t.spliceSection cur child sr).1
      (t.spliceSection cur child sr).2 (g.next t (t.spliceSection cur child sr).2) := by
  have hok : SectionOk t g 0 (.insert key id) (.relocate cur child sr) _ _ _ :=
    spliceSection_ok hb hp hparent hch
  have hs₁ : Splicing t g ℓ cur child sr :=
    ⟨hparent, hch, hp.right_mem, hp.right_low, hp.unspliced⟩
  have hb₁ := hs₁.bLink hb
  have hh₁ : Hinted (t.splice cur child sr) g := by
    intro ℓ' x hx h hxh
    rw [splice_parentHint] at hxh
    split_ifs at hxh with hxr
    · obtain rfl : cur = h := by simpa using hxh
      obtain rfl := hb.level_unique ℓ' ℓ x hx (hxr ▸ hp.right_mem)
      exact hparent
    · exact hh ℓ' x hx h hxh
  have hinf₁ : Informs t g [sr.right] (t.splice cur child sr) g [] := by
    refine informs_of_hints rfl rfl (fun x h => ?_) fun x hx h => ?_
    · rw [splice_parentHint] at h
      split_ifs at h
      exact h
    · rw [splice_parentHint, if_pos (List.mem_singleton.1 hx)] at h
      cases h
  unfold BPlusTree.spliceSection at hok ⊢
  dsimp only at hok ⊢
  split_ifs at hok ⊢ with hfit
  · exact ⟨hh₁, trivial, .inr hinf₁, fun N _ => Nat.zero_le _⟩
  · cases hsplit : (t.splice cur child sr).splitInternal cur with
    | none => exact ⟨hh₁, trivial, .inl rfl, fun N _ => Nat.zero_le _⟩
    | some res =>
      obtain ⟨t₂, sr'⟩ := res
      rw [hsplit] at hok
      dsimp only at hok ⊢
      have hcount : cur ≠ (t.splice cur child sr).count := (hb.lt_count _ cur hparent).ne
      have hne : ((t.splice cur child sr).nodes cur).keys ≠ [] := by
        rintro h
        rw [h] at hfit
        exact hfit (Nat.zero_le _)
      have hfresh : (t.splice cur child sr).count ∉ ((t.splice cur child sr).nodes cur).children :=
        fun hm => hb₁.nodes_fresh ((hb₁.internal ℓ cur hparent).2.1 _ hm)
      obtain ⟨hs, hr, -⟩ := splitInternal_spec hsplit hcount hne hfresh
      have hnext : g.next t (t₂.afterSplit cur sr') = g.split cur t.count sr'.separator :=
        next_afterSplit hr
      rw [hnext] at hok ⊢
      obtain ⟨hh₂, hinf₂⟩ := hh₁.split hb₁ hs hparent nofun
      obtain ⟨hclimbs, howes, hwork⟩ := afterSplit_moves (.insert key id) sr'
        hok.blink hh₂ (mem_chain_split.2 (.inl hparent))
      refine ⟨hh₂, hclimbs, .inr ?_, fun N hN => (hwork N hN).trans ?_⟩
      · rw [howes, hr]
        exact hinf₁.trans hinf₂
      · -- on the same node, with nothing less behind
        have hle : (g.split cur t.count sr'.separator).ahead N (· < ·) cur ≤
            g.ahead N (· < ·) cur := ahead_le hok.blink hok.evolves.passed
        simp only [Pc.work, Pc.isWaiting, Bool.false_and, Bool.not_false, Bool.toNat_true]
        omega

/-- A section under the lock of a node on the way down. -/
theorem descend_moves (hb : BLink t g) (hh : Hinted t g) (hc : cur ∈ g.chain ℓ) {out : List Entry}
    (hleaf : (t.nodes cur).isLeaf = true → BPlusTree.exceeds (t.nodes cur) op.target = false →
      Moves t g op (.descend cur out) (t.runSection op (.descend cur out)).1
        (t.runSection op (.descend cur out)).2
        (g.next t (t.runSection op (.descend cur out)).2)) :
    Moves t g op (.descend cur out) (t.runSection op (.descend cur out)).1
      (t.runSection op (.descend cur out)).2 (g.next t (t.runSection op (.descend cur out)).2) := by
  have hwork : ∀ next, insert cur (g.passed (· > ·) cur) ⊆ g.passed (· > ·) next →
      ∀ N, t.count ≤ N → (Pc.descend next out).work g N op ≤
        (Pc.descend cur out).work g N op - 1 := fun next hsub N hN => by
    have hlt := ahead_lt hb hb hN hsub
    simp only [Pc.work]
    omega
  by_cases hex : BPlusTree.exceeds (t.nodes cur) op.target = true
  · obtain ⟨k, hk, -⟩ := exceeds_iff.1 hex
    obtain ⟨pre, post, hd⟩ := List.append_of_mem hc
    rcases hb.next hd with ⟨-, -, hhigh⟩ | ⟨right, post', rfl, hlink, -⟩
    · rw [hk] at hhigh
      cases hhigh
    · rw [runSection_right op hex hlink]
      exact .stay hh trivial (List.nil_subset _) rfl (hwork right (passed_right hb hd))
  · rw [Bool.not_eq_true] at hex
    cases hl : (t.nodes cur).isLeaf with
    | true => exact hleaf hl hex
    | false =>
      rw [runSection_child op hex hl]
      obtain ⟨m, rfl⟩ : ∃ m, ℓ = m + 1 := Nat.exists_eq_succ_of_ne_zero fun hℓ => by
        rw [(hb.leaf cur (hℓ ▸ hc)).1] at hl
        cases hl
      have hlt : BPlusTree.childIndex (t.nodes cur) op.target < (t.nodes cur).children.length := by
        rw [hb.length_children hc]
        exact Nat.lt_succ_of_le (Search.lowerBound_le _ _)
      have hchild := (hb.internal m cur hc).2.1 _ (List.getElem_mem hlt)
      rw [← List.getD_eq_getElem _ 0 hlt] at hchild
      exact .stay hh trivial (List.nil_subset _) rfl
        (hwork _ (passed_level (R := (· > ·)) hb hc hchild (Nat.lt_succ_self m)))

theorem scanSection_moves (hb : BLink t g) (hh : Hinted t g) (hc : cur ∈ g.chain 0)
    (out : List Entry) :
    Moves t g (.range lo hi) (.descend cur out) t (t.scanSection cur lo hi out)
      (g.next t (t.scanSection cur lo hi out)) := by
  unfold BPlusTree.scanSection
  dsimp only
  split_ifs
  · exact .stay hh trivial (List.nil_subset _) rfl fun N _ => Nat.zero_le _
  · cases hlink : (t.nodes cur).rightLink with
    | none => exact .stay hh trivial (List.nil_subset _) rfl fun N _ => Nat.zero_le _
    | some next =>
      obtain ⟨pre, post, hd⟩ := List.append_of_mem hc
      rcases hb.next hd with ⟨-, hnone, -⟩ | ⟨right, post', rfl, hlink', -⟩
      · rw [hlink] at hnone
        cases hnone
      · rw [hlink] at hlink'
        cases hlink'
        refine .stay hh trivial (List.nil_subset _) rfl fun N hN => ?_
        have hlt := ahead_lt hb hb hN (passed_right (R := (· > ·)) hb hd)
        simp only [Pc.work, climbWork, Pc.isWaiting, Bool.false_and, Bool.not_false,
          Bool.toNat_true]
        omega

/-- Following right links from a hint, or splicing where the parent has been found. -/
theorem relocate_moves (hb : BLink t g) (hh : Hinted t g) (hp : Pending t g ℓ child sr)
    (hl : Leads t g ℓ child cur) (hcur : cur ∈ g.chain (ℓ + 1)) :
    Moves t g (.insert key id) (.relocate cur child sr)
      (t.runSection (.insert key id) (.relocate cur child sr)).1
      (t.runSection (.insert key id) (.relocate cur child sr)).2
      (g.next t (t.runSection (.insert key id) (.relocate cur child sr)).2) := by
  obtain ⟨-, p, hpar, hw⟩ := hl
  rw [BPlusTree.runSection]
  cases hw with
  | here hm =>
    rw [if_pos hm]
    exact spliceSection_moves hb hh hp hcur hm
  | @step _ right _ hn hlink hw =>
    obtain ⟨pre, post, hd⟩ := List.append_of_mem hcur
    rcases hb.next hd with ⟨-, hnone, -⟩ | ⟨right', post', rfl, hlink', -⟩
    · rw [show (t.nodes cur).rightLink = some right from hlink] at hnone
      cases hnone
    · obtain rfl : right = right' := Option.some.inj (hlink.symm.trans hlink')
      have hright : right ∈ g.chain (ℓ + 1) := by
        rw [hd]
        exact List.mem_append_right _ (List.mem_cons_of_mem _ List.mem_cons_self)
      rw [if_neg hn, hlink']
      refine .stay hh ⟨ℓ, hp.child_mem, hright⟩ (List.Subset.refl _) (next_relocate hb hp) ?_
      intro N hN
      have hlt := ahead_lt hb hb hN (passed_right (R := (· < ·)) hb hd)
      simp only [Pc.work, Pc.isWaiting, Bool.false_and, Bool.not_false, Bool.toNat_true]
      omega

/-- Growing a root over a root that has been split. -/
theorem growRoot_moves (hb : BLink t g) (hh : Hinted t g) (hp : Pending t g ℓ child sr)
    (hroot : t.root = child) :
    Moves t g (.insert key id) (.growRoot child sr)
      (t.runSection (.insert key id) (.growRoot child sr)).1
      (t.runSection (.insert key id) (.growRoot child sr)).2
      (g.next t (t.runSection (.insert key id) (.growRoot child sr)).2) := by
  have hok : SectionOk t g 0 (.insert key id) (.growRoot child sr) _ _ _ :=
    growRoot_ok hb hp hroot
  rw [BPlusTree.runSection, if_pos hroot] at hok ⊢
  cases hgrow : t.growRoot child sr with
  | none => exact ⟨hh, trivial, .inl rfl, fun N _ => Nat.zero_le _⟩
  | some t' =>
    rw [hgrow] at hok
    dsimp only at hok ⊢
    obtain ⟨hcount, hroot', hnew, hold⟩ := growRoot_spec hgrow
    have hnext : g.next t (.hintChild child sr t.count) = g.grow t.count := if_pos rfl
    have hev := growRoot_evolves hgrow hb
    rw [hnext] at hok ⊢
    obtain rfl : ℓ = g.top := hb.level_unique _ _ _ hp.child_mem (hroot ▸ hb.root_mem)
    have hchain : ∀ {ℓ' x}, x ∈ (g.grow t.count).chain ℓ' → x ≠ t.count → x ∈ g.chain ℓ' := by
      intro ℓ' x hx hne
      rw [chain_grow] at hx
      split_ifs at hx
      · exact absurd (List.mem_singleton.1 hx) hne
      · exact hx
    constructor
    case hinted =>
      intro ℓ' x hx h hxh
      by_cases hxn : x = t.count
      · rw [hxn, hnew] at hxh
        cases hxh
      · rw [hold x hxn] at hxh
        exact (hev.chain _).subset (hh ℓ' x (hchain hx hxn) h hxh)
    case climbs =>
      have htop : t.count ∈ (g.grow t.count).chain (g.top + 1) := by
        rw [chain_grow, if_pos rfl]
        exact List.mem_singleton_self _
      exact ⟨g.top, (hev.chain _).subset hp.child_mem, (hev.chain _).subset hp.right_mem, htop⟩
    case informs =>
      right
      rintro x ⟨⟨ℓ', hx⟩, hnone⟩
      by_cases hxn : x = t.count
      · exact .inl (hxn.trans hroot'.symm)
      rw [hold x hxn] at hnone
      by_cases hxc : x ∈ [child, sr.right]
      · exact .inr (.inl hxc)
      · rw [List.mem_pair, not_or] at hxc
        exact .inr (.inr ⟨⟨⟨ℓ', hchain hx hxn⟩, hnone⟩, hroot ▸ hxc.1,
          fun hm => hxc.2 (List.mem_singleton.1 hm)⟩)
    case work =>
      intro N hN
      have hpos := ahead_pos (R := (· < ·)) hb hp.child_mem (hok.evolves.count.trans hN)
      simp only [Pc.work, Pc.isWaiting, Bool.and_false, Bool.not_false, Bool.toNat_true]
      omega

/-- Recording the parent of a node. -/
theorem setHints_moves (hb : BLink t g) (hh : Hinted t g) {h : NodeId} (hm : child ∈ g.chain ℓ)
    (hup : h ∈ g.chain (ℓ + 1)) (hp : pc'.Climbs g) (ho : ∀ x ∈ pc.owes, x = child ∨ x ∈ pc'.owes)
    (hw : ∀ N, pc'.work g N op ≤ pc.work g N op - (!(pc.isWaiting && pc'.isWaiting)).toNat) :
    Moves t g op pc (t.setHints [child] h) pc' g where
  hinted ℓ' x hx h' hxh := by
    rw [setHints_parentHint] at hxh
    split_ifs at hxh with hxc
    · obtain rfl : h = h' := by simpa using hxh
      obtain rfl := hb.level_unique ℓ' ℓ x hx (List.mem_singleton.1 hxc ▸ hm)
      exact hup
    · exact hh ℓ' x hx h' hxh
  climbs := hp
  informs := by
    refine .inr (informs_of_hints rfl rfl (fun x hx => ?_) fun x hx hnone => ?_)
    · rw [setHints_parentHint] at hx
      split_ifs at hx
      exact hx
    · refine (ho x hx).resolve_left fun hxc => ?_
      rw [setHints_parentHint, if_pos (List.mem_singleton.2 hxc)] at hnone
      cases hnone
  work N _ := hw N

/-- The turns a call that has just been started may need. -/
theorem lockRoot_work (op : Op) (out : List Entry) (N : ℕ) :
    (Pc.descend cur out).work g N op ≤ Pc.lockRoot.work g N op - 1 := by
  have hle : g.ahead N (· > ·) cur ≤ N := Nat.sub_le _ _
  simp only [Pc.work]
  omega

/-- **Every section** leaves its call less to do, unless it waits for the hint of a node. -/
theorem runSection_moves (hb : BLink t g) (hh : Hinted t g) (hc : CallOk t g before op pc)
    (hp : pc.Climbs g) :
    Moves t g op pc (t.runSection op pc).1 (t.runSection op pc).2
      (g.next t (t.runSection op pc).2) := by
  cases op with
  | insert key id =>
    cases pc with
    | lockRoot => exact .stay hh trivial (List.nil_subset _) rfl fun N _ => lockRoot_work _ _ N
    | descend cur out =>
      have hcov : Covers g key cur := hc
      have ⟨ℓ, hcur, _⟩ := hcov
      refine descend_moves hb hh hcur fun hl hex => ?_
      obtain ⟨hmem, hlow⟩ := hcov.leaf hb hl
      rw [runSection_insert key _ hex hl]
      exact insertSection_moves hb hh hmem hlow hex out
    | relocate cur child sr =>
      obtain ⟨ℓ, hpend, hl⟩ := hc
      obtain ⟨ℓ', hchild, hcur⟩ := hp
      obtain rfl := hb.level_unique ℓ' ℓ child hchild hpend.child_mem
      exact relocate_moves hb hh hpend hl hcur
    | growRoot child sr =>
      obtain ⟨ℓ, hpend⟩ := hc
      by_cases hroot : t.root = child
      · exact growRoot_moves hb hh hpend hroot
      · rw [BPlusTree.runSection, if_neg hroot]
        exact .stay hh trivial (List.Subset.refl _) rfl fun N _ => le_rfl
    | freshHint child sr =>
      obtain ⟨ℓ, hpend⟩ := hc
      rw [BPlusTree.runSection]
      cases hhint : (t.nodes child).parentHint with
      | none =>
        exact .stay hh trivial (List.Subset.refl _) (next_growRoot hb hpend) fun N _ => le_rfl
      | some h =>
        have hup := hh ℓ child hpend.child_mem h hhint
        refine .stay hh ⟨ℓ, hpend.child_mem, hup⟩ (List.Subset.refl _) (next_relocate hb hpend) ?_
        intro N hN
        have hlt := ahead_lt hb hb hN
          (passed_level (R := (· < ·)) hb hpend.child_mem hup (Nat.lt_succ_self ℓ))
        simp only [Pc.work, Pc.isWaiting, Bool.and_false, Bool.not_false, Bool.toNat_true]
        omega
    | hintChild child sr newRoot =>
      obtain ⟨ℓ, hchild, hright, hup⟩ := hp
      refine setHints_moves hb hh hchild hup ⟨ℓ, hright, hup⟩ (fun x hx => ?_) fun N => le_rfl
      exact List.mem_cons.1 hx
    | hintRight right newRoot =>
      obtain ⟨ℓ, hright, hup⟩ := hp
      exact setHints_moves hb hh hright hup trivial (fun x hx => .inl (List.mem_singleton.1 hx))
        fun N => le_rfl
    | done out => exact .stay hh trivial (List.nil_subset _) rfl fun N _ => Nat.zero_le _
    | threw => exact .stay hh trivial (List.nil_subset _) rfl fun N _ => Nat.zero_le _
    | targetLost => exact hc.elim
    | badLink => exact hc.elim
  | range lo hi =>
    cases pc with
    | lockRoot =>
      rw [BPlusTree.runSection]
      dsimp only
      split_ifs
      · exact .stay hh trivial (List.nil_subset _) rfl fun N _ => Nat.zero_le _
      · exact .stay hh trivial (List.nil_subset _) rfl fun N _ => lockRoot_work _ _ N
    | descend cur out =>
      obtain ⟨ℓ, hcur⟩ : ∃ ℓ, cur ∈ g.chain ℓ := by
        rcases hc with ⟨-, ℓ, hcur, -⟩ | ⟨pre, post, hs⟩
        · exact ⟨ℓ, hcur⟩
        · exact ⟨0, hs.cut ▸ List.mem_append_right _ List.mem_cons_self⟩
      refine descend_moves hb hh hcur fun hl hex => ?_
      obtain rfl : ℓ = 0 := Nat.eq_zero_of_not_pos fun hpos => by
        obtain ⟨m, rfl⟩ := Nat.exists_eq_add_of_lt hpos
        rw [(hb.internal _ cur hcur).1] at hl
        cases hl
      rw [runSection_range lo hi hex hl]
      exact scanSection_moves hb hh hcur out
    | done out => exact .stay hh trivial (List.nil_subset _) rfl fun N _ => Nat.zero_le _
    | _ => exact hc.elim

end BTree

end Vdb
