import Vdb.BTree.Hints
import Vdb.BTree.Sequential

/-!
# An insert alone

Where nobody else moves its nodes, an insert knows more than `CallOk` says.  The node it descends
to has the ancestors it has passed; the hint of a node it has split is the parent, so it never
moves right; and a node without a hint is the root (`OnCourse`).  It throws only when the arena has
no room for `BPlusTree.allocations` more nodes: one for every full node in a row, from the leaf
upwards, and one for the new root when all are full.

`Steady.step` says so of one section, `Steady.solo` of a whole call.
-/

namespace Vdb

namespace BTree

namespace BPlusTree

variable (t : BPlusTree)

/-- The nodes an insert allocates above the last of `path`, a leaf or node it has to put a key into
and its ancestors: one for every full node in a row, and a new root when all are full. -/
def overflows : List NodeId → ℕ
  | [] => 1
  | x :: path => if t.cfg.nodeCapacity ≤ (t.nodes x).keys.length then 1 + overflows path else 0

/-- The nodes an insert of `key` allocates. -/
def allocations (key : Key) : ℕ :=
  match t.findLeaf key (t.count + 1) t.root [] with
  | none => 0
  | some (leaf, path) => t.overflows (leaf :: path)

end BPlusTree

/-- What an insert knows when no other call moves its nodes: the node it stands at has the
ancestors of its descent, and the arena has room for the splits that are left. -/
def OnCourse (t : BPlusTree) (g : Shape) (key : Key) : Pc → Prop
  | .lockRoot => Formed t g ∧ t.count + t.allocations key ≤ t.cfg.maxNodes
  | .descend cur _ => Formed t g ∧ ∃ ℓ path leaf path', Path t g ℓ cur path ∧ Holds t g key cur ∧
      (∀ fuel, ℓ < fuel → t.findLeaf key fuel cur path = some (leaf, path')) ∧
      t.count + t.overflows (leaf :: path') ≤ t.cfg.maxNodes
  | .relocate cur child _ => child ∈ (t.nodes cur).children ∧ ∃ ℓ path,
      Path t g (ℓ + 1) cur path ∧ t.count + t.overflows (cur :: path) ≤ t.cfg.maxNodes
  | .growRoot child _ => t.root = child ∧ t.count + 1 ≤ t.cfg.maxNodes
  | .hintChild child sr newRoot => child ∈ (t.nodes newRoot).children ∧
      sr.right ∈ (t.nodes newRoot).children ∧ ∃ ℓ, newRoot ∈ g.chain (ℓ + 1)
  | .hintRight right newRoot => right ∈ (t.nodes newRoot).children ∧ ∃ ℓ, newRoot ∈ g.chain (ℓ + 1)
  | .done _ => True
  | _ => False

/-- An insert alone in the tree, with room to end. -/
structure Steady (t : BPlusTree) (g : Shape) (key : Key) (pc : Pc) : Prop where
  homed : Homed t g pc.owed
  within : Within t g
  course : OnCourse t g key pc

variable {t t' t₁ t₂ : BPlusTree} {g g' : Shape} {key : Key} {id : InternalId} {pc : Pc} {ℓ : ℕ}
  {cur child : NodeId} {path : List NodeId} {sr : SplitResult} {m : Multiset Entry}

theorem overflows_congr (hcfg : t'.cfg = t.cfg)
    (hkeys : ∀ x ∈ path, (t'.nodes x).keys.length = (t.nodes x).keys.length) :
    t'.overflows path = t.overflows path := by
  induction path with
  | nil => rfl
  | cons x path ih =>
    rw [BPlusTree.overflows, BPlusTree.overflows, hcfg, hkeys x List.mem_cons_self,
      ih fun y hy => hkeys y (List.mem_cons_of_mem x hy)]

theorem overflows_full (h : t.cfg.nodeCapacity ≤ (t.nodes cur).keys.length) :
    t.overflows (cur :: path) = 1 + t.overflows path := by
  rw [BPlusTree.overflows]
  exact if_pos h

/-- The ancestors of a node are other nodes. -/
theorem Path.ne (hp : Path t g ℓ cur path) (hb : BLink t g) : ∀ q ∈ path, q ≠ cur := by
  rintro q hq rfl
  obtain ⟨ℓ', hlt, hq'⟩ := hp.level hb q hq
  exact hlt.ne (hb.level_unique _ _ _ (hp.mem hb) hq')

theorem Path.lt_count (hp : Path t g ℓ cur path) (hb : BLink t g) : ∀ q ∈ path, q < t.count := by
  intro q hq
  obtain ⟨ℓ', -, hq'⟩ := hp.level hb q hq
  exact hb.lt_count ℓ' q hq'

/-! ### After a split -/

/-- A split on course goes on at the parent, or, at the root, grows a new one. -/
theorem onCourse_afterSplit (hs : SplitsAt t₁ t₂ cur sr.separator) (hb : BLink t₁ g)
    (hb₂ : BLink t₂ (g.split cur t₁.count sr.separator)) (hp : Path t₁ g ℓ cur path)
    (hh : Homed t₂ (g.split cur t₁.count sr.separator) []) (hcfg : t₂.cfg = t₁.cfg)
    (hroom : t₁.count + (1 + t₁.overflows path) ≤ t₁.cfg.maxNodes) :
    OnCourse t₂ (g.split cur t₁.count sr.separator) key (t₂.afterSplit cur sr) := by
  have hold : ∀ q ∈ path, t₂.nodes q = { t₁.nodes q with
      parentHint := (t₂.nodes q).parentHint } :=
    fun q hq => hs.others q (hp.ne hb q hq) (hp.lt_count hb q hq).ne
  have hp₂ : Path t₂ (g.split cur t₁.count sr.separator) ℓ cur path :=
    hp.congr hs.root rfl (fun _ q hq _ => by rw [hold q hq]) hb
  have hover : t₂.overflows path = t₁.overflows path :=
    overflows_congr hcfg fun q hq => by rw [hold q hq]
  have hcount := hs.count
  rw [← hover, ← hcfg] at hroom
  cases hp₂ with
  | root =>
    rw [BPlusTree.afterSplit, hh.root]
    exact ⟨rfl, by rw [BPlusTree.overflows] at hroom; omega⟩
  | @child _ p _ path hp' hc =>
    have hhint := hh.child ℓ p (hp'.mem hb₂) cur hc (by simp)
    rw [BPlusTree.afterSplit, hhint]
    exact ⟨hc, ℓ, path, hp', by omega⟩

theorem Within.split (hs : SplitsAt t₁ t₂ cur sr.separator) (hb : BLink t₁ g)
    (hw : ∀ ℓ, ∀ x ∈ g.chain ℓ, x ≠ cur → (t₁.nodes x).keys.length ≤ t₁.cfg.nodeCapacity)
    (hcfg : t₂.cfg = t₁.cfg) (hcur : (t₂.nodes cur).keys.length ≤ t₁.cfg.nodeCapacity)
    (hnew : (t₂.nodes t₁.count).keys.length ≤ t₁.cfg.nodeCapacity) :
    Within t₂ (g.split cur t₁.count sr.separator) := by
  intro ℓ x hx
  rw [hcfg]
  rcases mem_chain_split.1 hx with hx | ⟨rfl, -⟩
  · by_cases hxc : x = cur
    · rwa [hxc]
    · rw [hs.others x hxc (hb.lt_count ℓ x hx).ne]
      exact hw ℓ x hx hxc
  · exact hnew

/-- The split of a node on course. -/
theorem steady_split (key : Key) (hs : SplitsAt t₁ t₂ cur sr.separator) (hb : BLink t₁ g)
    (hb₂ : BLink t₂ (g.split cur t₁.count sr.separator)) (hp : Path t₁ g ℓ cur path)
    (hleaf : ℓ = 0 → (t₂.nodes t₁.count).children = []) (hh : Homed t₁ g [])
    (hw : ∀ ℓ, ∀ x ∈ g.chain ℓ, x ≠ cur → (t₁.nodes x).keys.length ≤ t₁.cfg.nodeCapacity)
    (hcfg : t₂.cfg = t₁.cfg) (hcur : (t₂.nodes cur).keys.length ≤ t₁.cfg.nodeCapacity)
    (hnew : (t₂.nodes t₁.count).keys.length ≤ t₁.cfg.nodeCapacity)
    (hroom : t₁.count + (1 + t₁.overflows path) ≤ t₁.cfg.maxNodes) :
    Steady t₂ (g.split cur t₁.count sr.separator) key (t₂.afterSplit cur sr) := by
  have hh₂ := hh.split hb hb₂ hs (hp.mem hb) hleaf
  refine ⟨?_, Within.split hs hb hw hcfg hcur hnew,
    onCourse_afterSplit hs hb hb₂ hp hh₂ hcfg hroom⟩
  rw [owed_afterSplit]
  exact hh₂

/-! ### The sections -/

theorem insertSection_steady (hb : BLink t g) (hcap : 2 ≤ t.cfg.nodeCapacity)
    (hp : Path t g 0 cur path)
    (hlow : ∀ v ∈ g.low cur, v < key) (hhigh : BPlusTree.exceeds (t.nodes cur) key = false)
    (hh : Homed t g []) (hw : Within t g)
    (hroom : t.count + t.overflows (cur :: path) ≤ t.cfg.maxNodes)
    (hb' : BLink (t.insertSection cur key id).1 (g.next t (t.insertSection cur key id).2)) :
    Steady (t.insertSection cur key id).1 (g.next t (t.insertSection cur key id).2) key
      (t.insertSection cur key id).2 := by
  have hc := hp.mem hb
  have hb₁ := hb.insertEntry id hc hlow hhigh
  have hedit := insertEntry_edits t cur key id
  have hh₁ : Homed (t.insertEntry cur key id) g [] := hh.edit hedit
  have hw₁ : ∀ ℓ, ∀ x ∈ g.chain ℓ, x ≠ cur →
      ((t.insertEntry cur key id).nodes x).keys.length ≤ t.cfg.nodeCapacity := by
    intro ℓ x hx hne
    rw [hedit.others x hne]
    exact hw ℓ x hx
  have hlen : ((t.insertEntry cur key id).nodes cur).keys.length =
      (t.nodes cur).keys.length + 1 := by
    rw [insertEntry_cur]
    exact List.length_insertIdx_of_le_length (Search.lowerBound_le _ _) _
  unfold BPlusTree.insertSection at hb' ⊢
  dsimp only at hb' ⊢
  split_ifs at hb' ⊢ with hfit
  · refine ⟨hh₁, fun ℓ x hx => ?_, trivial⟩
    by_cases hxc : x = cur
    · rw [hxc]
      exact hfit
    · exact hw₁ ℓ x hx hxc
  · have hfull : t.cfg.nodeCapacity ≤ (t.nodes cur).keys.length := by
      rw [hlen] at hfit
      omega
    rw [overflows_full hfull] at hroom
    cases hsplit : (t.insertEntry cur key id).splitLeaf cur with
    | none =>
      have hnone := splitLeaf_eq_none.1 hsplit
      have hmax : t.cfg.maxNodes ≤ t.count := of_decide_eq_true hnone
      omega
    | some res =>
      obtain ⟨t₂, sr⟩ := res
      rw [hsplit] at hb'
      dsimp only at hb' ⊢
      have hcount : cur ≠ (t.insertEntry cur key id).count := (hb.lt_count 0 cur hc).ne
      have hne : ((t.insertEntry cur key id).nodes cur).keys ≠ [] :=
        List.ne_nil_of_length_pos (by omega)
      obtain ⟨hs, hr, A, B, hkeys, hmid, hl, hnew⟩ := splitLeaf_spec hsplit hcount hne
      have hcfg := (splitLeaf_cfg hsplit).1
      have hnext : g.next t (t₂.afterSplit cur sr) = g.split cur t.count sr.separator :=
        next_afterSplit hr
      rw [hnext] at hb' ⊢
      have hsum := congrArg List.length hkeys
      rw [List.length_append, List.length_cons] at hsum
      have hle := hw 0 cur hc
      have hp₁ : Path (t.insertEntry cur key id) g 0 cur path :=
        hp.congr rfl rfl (fun _ q _ _ => (hedit.fields q).2.1) hb
      have hover : (t.insertEntry cur key id).overflows path = t.overflows path :=
        overflows_congr rfl fun q hq => by rw [hedit.others q (hp.ne hb q hq)]
      have hcur : (t₂.nodes cur).keys.length ≤ t.cfg.nodeCapacity := by
        rw [hl]
        simp only [List.length_append, List.length_singleton]
        show A.length + 1 ≤ t.cfg.nodeCapacity
        omega
      have hright : (t₂.nodes (t.insertEntry cur key id).count).keys.length ≤
          t.cfg.nodeCapacity := by
        rw [hnew]
        show B.length ≤ t.cfg.nodeCapacity
        omega
      have hsteady := steady_split key hs hb₁ hb' hp₁ (fun _ => by rw [hnew]) hh₁ hw₁ hcfg hcur
        hright (by rw [hover]; exact hroom)
      exact hsteady

theorem spliceSection_steady (hb : BLink t g) (hpend : Pending t g ℓ child sr)
    (hp : Path t g (ℓ + 1) cur path) (hch : child ∈ (t.nodes cur).children)
    (hh : Homed t g []) (hw : Within t g)
    (hroom : t.count + t.overflows (cur :: path) ≤ t.cfg.maxNodes)
    (hb' : BLink (t.spliceSection cur child sr).1 (g.next t (t.spliceSection cur child sr).2)) :
    Steady (t.spliceSection cur child sr).1 (g.next t (t.spliceSection cur child sr).2) key
      (t.spliceSection cur child sr).2 := by
  have hc := hp.mem hb
  have hs₁ : Splicing t g ℓ cur child sr :=
    ⟨hc, hch, hpend.right_mem, hpend.right_low, hpend.unspliced⟩
  have hb₁ := hs₁.bLink hb
  have hh₁ := hh.splice hb hs₁
  have hw₁ : ∀ ℓ, ∀ x ∈ g.chain ℓ, x ≠ cur →
      ((t.splice cur child sr).nodes x).keys.length ≤ t.cfg.nodeCapacity := by
    intro ℓ x hx hne
    rw [splice_keys, if_neg hne]
    exact hw ℓ x hx
  have hlen : ((t.splice cur child sr).nodes cur).keys.length =
      (t.nodes cur).keys.length + 1 := by
    have hpos : BPlusTree.childPosition (t.nodes cur) child ≤ (t.nodes cur).keys.length := by
      have hlt := List.idxOf_lt_length_of_mem hch
      rw [hb.length_children hc] at hlt
      exact Nat.le_of_lt_succ hlt
    rw [splice_keys, if_pos rfl]
    exact List.length_insertIdx_of_le_length hpos _
  unfold BPlusTree.spliceSection at hb' ⊢
  dsimp only at hb' ⊢
  split_ifs at hb' ⊢ with hfit
  · refine ⟨hh₁, fun ℓ x hx => ?_, trivial⟩
    by_cases hxc : x = cur
    · rw [hxc]
      exact hfit
    · exact hw₁ ℓ x hx hxc
  -- a node that overflows was full, so that the room for its half is reckoned in
  · have hfull : t.cfg.nodeCapacity ≤ (t.nodes cur).keys.length := by
      rw [hlen] at hfit
      omega
    rw [overflows_full hfull] at hroom
    cases hsplit : (t.splice cur child sr).splitInternal cur with
    | none =>
      have hnone := splitInternal_eq_none.1 hsplit
      have hmax : t.cfg.maxNodes ≤ t.count := of_decide_eq_true hnone
      omega
    | some res =>
      obtain ⟨t₂, sr'⟩ := res
      rw [hsplit] at hb'
      dsimp only at hb' ⊢
      have hcount : cur ≠ (t.splice cur child sr).count := (hb.lt_count _ cur hc).ne
      have hne : ((t.splice cur child sr).nodes cur).keys ≠ [] :=
        List.ne_nil_of_length_pos (by omega)
      have hfresh : (t.splice cur child sr).count ∉ ((t.splice cur child sr).nodes cur).children :=
        fun hm => hb₁.nodes_fresh ((hb₁.internal ℓ cur hc).2.1 _ hm)
      obtain ⟨hs, hr, A, B, hkeys, -, -, hl, -, -, hnew, -⟩ :=
        splitInternal_spec hsplit hcount hne hfresh
      have hcfg := (splitInternal_cfg hsplit).1
      have hnext : g.next t (t₂.afterSplit cur sr') = g.split cur t.count sr'.separator :=
        next_afterSplit hr
      rw [hnext] at hb' ⊢
      have hsum := congrArg List.length hkeys
      rw [List.length_append, List.length_cons, hlen] at hsum
      have hle := hw _ cur hc
      -- the nodes above are as they were
      have hold : ∀ q ∈ path, ((t.splice cur child sr).nodes q).children = (t.nodes q).children ∧
          ((t.splice cur child sr).nodes q).keys = (t.nodes q).keys := by
        intro q hq
        rw [splice_children, splice_keys, if_neg (hp.ne hb q hq), if_neg (hp.ne hb q hq)]
        exact ⟨rfl, rfl⟩
      have hp₁ : Path (t.splice cur child sr) g (ℓ + 1) cur path :=
        hp.congr rfl rfl (fun _ q hq _ => (hold q hq).1) hb
      have hover : (t.splice cur child sr).overflows path = t.overflows path :=
        overflows_congr rfl fun q hq => by rw [(hold q hq).2]
      have hcur : (t₂.nodes cur).keys.length ≤ t.cfg.nodeCapacity := by
        rw [hl]
        omega
      have hright : (t₂.nodes (t.splice cur child sr).count).keys.length ≤ t.cfg.nodeCapacity := by
        rw [hnew]
        omega
      have hsteady := steady_split key hs hb₁ hb' hp₁ nofun hh₁ hw₁ hcfg hcur hright
        (by rw [hover]; exact hroom)
      exact hsteady

theorem Within.setHints (h : Within t g) (cs : List NodeId) (a : NodeId) :
    Within (t.setHints cs a) g := by
  intro ℓ x hx
  rw [setHints_keys]
  exact h ℓ x hx

theorem growRoot_steady (hb : BLink t g) (hcap : 2 ≤ t.cfg.nodeCapacity) (hh : Homed t g [])
    (hw : Within t g) (hg : t.growRoot child sr = some t') :
    Steady t' (g.grow t.count) key (.hintChild child sr t.count) := by
  obtain ⟨-, -, hnew, hold⟩ := growRoot_spec hg
  refine ⟨hh.growRoot hb hg, fun ℓ x hx => ?_, ?_⟩
  · rw [(growRoot_cfg hg).1]
    rw [chain_grow] at hx
    split_ifs at hx
    · rw [List.mem_singleton.1 hx, hnew]
      exact (Nat.le_succ 1).trans hcap
    · rw [hold x (hb.lt_count ℓ x hx).ne]
      exact hw ℓ x hx
  · have hmem : t.count ∈ (g.grow t.count).chain (g.top + 1) := by
      rw [chain_grow, if_pos rfl]
      exact List.mem_singleton_self _
    exact ⟨by rw [hnew]; simp, by rw [hnew]; simp, g.top, hmem⟩

variable {cfg : BTreeConfig}

/-- **Every section** of an insert with room keeps the hints right and the nodes within their
capacity, and stays on course. -/
theorem Steady.step (h : Steady t g key pc) (ha : Alone cfg m (.insert key id) (t, pc) g)
    (hcap : 2 ≤ cfg.nodeCapacity) :
    Steady (t.runSection (.insert key id) pc).1
      (g.next t (t.runSection (.insert key id) pc).2) key
      (t.runSection (.insert key id) pc).2 := by
  have hb := ha.blink
  have hb' := (ha.step hcap).blink
  have hcap' : 2 ≤ t.cfg.nodeCapacity := by rw [ha.cfg]; exact hcap
  obtain ⟨hh, hw, hc⟩ := h
  dsimp only at hb hb'
  cases pc with
  | lockRoot =>
    obtain ⟨hf, hroom⟩ := hc
    obtain ⟨leaf, path, -, -, hfind⟩ := hf.findLeaf_spec g.top t.root [] .root (hf.holds_root key)
    rw [BPlusTree.allocations, hfind _ (hb.top_lt_count.trans (Nat.lt_succ_self _))] at hroom
    exact ⟨hh, hw, hf, g.top, [], leaf, path, .root, hf.holds_root key, hfind, hroom⟩
  | descend cur out =>
    obtain ⟨hf, ℓ, path, leaf, path', hp, hk, hfind, hroom⟩ := hc
    have hmem := hp.mem hb
    cases ℓ with
    | zero =>
      have hleaf := (hb.leaf cur hmem).1
      have hhere := hfind 1 Nat.one_pos
      rw [BPlusTree.findLeaf, if_pos hleaf] at hhere
      cases hhere
      rw [runSection_insert key id hk.not_exceeds hleaf] at hb' ⊢
      exact insertSection_steady hb hcap' hp hk.1 hk.not_exceeds hh hw hroom hb'
    | succ ℓ =>
      have hinner := (hb.internal ℓ cur hmem).1
      obtain ⟨hchild, hk'⟩ := hf.holds_child hmem hk
      rw [runSection_child (.insert key id) hk.not_exceeds hinner]
      refine ⟨hh, hw, hf, ℓ, cur :: path, leaf, path', .child hp hchild, hk', fun fuel hfuel => ?_,
        hroom⟩
      have hnext := hfind (fuel + 1) (Nat.succ_lt_succ hfuel)
      rwa [BPlusTree.findLeaf, if_neg (by rw [hinner]; exact Bool.false_ne_true)] at hnext
  | relocate cur child sr =>
    obtain ⟨hch, ℓ, path, hp, hroom⟩ := hc
    obtain ⟨ℓ', hpend, -⟩ := ha.call
    obtain rfl := hb.level_unique _ _ _ hpend.child_mem ((hb.internal ℓ cur (hp.mem hb)).2.1 _ hch)
    rw [BPlusTree.runSection, if_pos hch] at hb' ⊢
    exact spliceSection_steady hb hpend hp hch hh hw hroom hb'
  | growRoot child sr =>
    obtain ⟨hroot, hroom⟩ := hc
    rw [BPlusTree.runSection, if_pos hroot]
    cases hgrow : t.growRoot child sr with
    | none =>
      have hfull := growRoot_eq_none.1 hgrow
      have hmax : t.cfg.maxNodes ≤ t.count := of_decide_eq_true hfull
      omega
    | some t' =>
      have hnext : g.next t (.hintChild child sr t.count) = g.grow t.count := if_pos rfl
      dsimp only
      rw [hnext]
      exact growRoot_steady hb hcap' hh hw hgrow
  | hintChild child sr newRoot =>
    obtain ⟨hch, hright, ℓ, hmem⟩ := hc
    have hright' : sr.right ∈ ((t.setHints [child] newRoot).nodes newRoot).children := by
      rwa [setHints_children]
    exact ⟨hh.setHints hb hmem hch, hw.setHints [child] newRoot, hright', ℓ, hmem⟩
  | hintRight right newRoot =>
    obtain ⟨hright, ℓ, hmem⟩ := hc
    exact ⟨hh.setHints hb hmem hright, hw.setHints [right] newRoot, trivial⟩
  | done out => exact ⟨hh, hw, trivial⟩
  | _ => exact hc.elim

/-- An insert with room stays on course to its end. -/
theorem Steady.solo (h : Steady t g key pc) (ha : Alone cfg m (.insert key id) (t, pc) g)
    (hcap : 2 ≤ cfg.nodeCapacity) (n : ℕ) :
    ∃ g', Alone cfg m (.insert key id) (BPlusTree.solo (.insert key id) n (t, pc)) g' ∧
      Steady (BPlusTree.solo (.insert key id) n (t, pc)).1 g' key
        (BPlusTree.solo (.insert key id) n (t, pc)).2 := by
  induction n generalizing t g pc with
  | zero => exact ⟨g, ha, h⟩
  | succ n ih => exact ih (h.step ha hcap) (ha.step hcap)

end BTree

end Vdb
