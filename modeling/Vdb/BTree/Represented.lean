import Vdb.BTree.Course
import Vdb.BTree.Arena
import Vdb.Lib.Run

/-!
# The representation invariant

`BPlusTree.Represented` says what a B+-tree looks like, of the nodes that can be reached from its
root and of nothing else.

* `WellFormed.represented` : a well-formed tree with the right hints and no overfull node is such a
  tree.
* `BPlusTree.represented_run` : so is the tree of every run in which every insert finds room in the
  arena, and nothing in it fails, throws or runs on.
* `BPlusTree.overfull_leaf` : an insert that throws leaves an overfull leaf.
-/

namespace Vdb

namespace BTree

variable {t t' : BPlusTree} {g g' : Shape} {key : Key} {id : InternalId} {pc : Pc} {ℓ : ℕ}
  {cur : NodeId} {cfg : BTreeConfig} {m : Multiset Entry}

/-! ### The invariant -/

/-- The representation invariant, of the nodes that can be reached from the root: `t.depth d` lists
those `d` steps below it, from left to right. -/
structure BPlusTree.Represented (t : BPlusTree) : Prop where
  /-- Keys are sorted, and the right links of a level visit its nodes from left to right. -/
  shape : t.InShape
  leaves : ∃ h, ∀ d, ∀ x ∈ t.depth d, (t.nodes x).isLeaf = true ↔ d = h
  filled : ∀ d, ∀ x ∈ t.depth (d + 1), t.cfg.nodeCapacity / 2 ≤ (t.nodes x).keys.length ∧
    (t.nodes x).keys.length ≤ t.cfg.nodeCapacity
  arity : ∀ d, ∀ x ∈ t.depth d, (t.nodes x).isLeaf = false →
    (t.nodes x).children.length = (t.nodes x).keys.length + 1
  /-- A child ends at the separator behind it, the last one where its parent ends. -/
  bounded : ∀ d, ∀ x ∈ t.depth d, (t.nodes x).isLeaf = false →
    (t.nodes x).children.map (fun c => (t.nodes c).highKey) =
      (t.nodes x).keys.map some ++ [(t.nodes x).highKey]
  unbounded : (t.nodes t.root).highKey = none
  hinted : ∀ d, ∀ x ∈ t.depth d, (t.nodes x).isLeaf = false → ∀ c ∈ (t.nodes x).children,
    (t.nodes c).parentHint = some x
  unhinted : (t.nodes t.root).parentHint = none

/-- The children of a node end where the next ones begin, and the last one where the node ends. -/
theorem Formed.children_high (h : Formed t g) (hp : cur ∈ g.chain (ℓ + 1)) :
    (t.nodes cur).children.map (fun c => (t.nodes c).highKey) =
      (t.nodes cur).keys.map some ++ [(t.nodes cur).highKey] := by
  have hmap := (h.blink.internal ℓ cur hp).2.2
  obtain ⟨P, Q, hPQ⟩ := List.append_of_mem hp
  have hthread : Spine.Threaded (fun a b => (t.nodes a).highKey = g.low b)
      (fun a => (t.nodes a).highKey = (t.nodes cur).highKey) (t.nodes cur).children := by
    constructor
    · have hlevel := (h.blink.threaded ℓ).links
      rw [h.chain_eq hPQ] at hlevel
      refine hlevel.left_of_append.right_of_append.imp ?_
      rintro a b ⟨-, v, hlow, hhigh⟩
      rw [hhigh, hlow]
    · intro c hc
      obtain ⟨C, hC⟩ := List.getLast?_eq_some_iff.1 hc
      obtain ⟨-, -, -, hhigh, -⟩ := h.next_last hPQ hC
      exact hhigh
  cases hch : (t.nodes cur).children with
  | nil =>
    rw [hch] at hmap
    cases hmap
  | cons c D =>
    rw [hch] at hmap hthread
    rw [hthread.map_next, (List.cons.inj hmap).2]

theorem WellFormed.represented (h : WellFormed t g) (hh : Homed t g []) (hw : Within t g) :
    t.Represented := by
  -- what is true of every level is true of every depth
  have hdepth : ∀ d, ∀ x ∈ t.depth d, d ≤ g.top ∧ x ∈ g.chain (g.top - d) := by
    intro d x hx
    rcases Nat.lt_or_ge g.top d with hlt | hge
    · rw [h.depth_eq_nil d hlt] at hx
      cases hx
    · exact ⟨hge, h.depth_eq d hge ▸ hx⟩
  have hinner : ∀ d, ∀ x ∈ t.depth d, (t.nodes x).isLeaf = false →
      ∃ ℓ, x ∈ g.chain (ℓ + 1) := by
    intro d x hx hleaf
    obtain ⟨-, hx⟩ := hdepth d x hx
    cases hℓ : g.top - d with
    | zero =>
      rw [hℓ] at hx
      rw [(h.blink.leaf x hx).1] at hleaf
      cases hleaf
    | succ ℓ => exact ⟨ℓ, hℓ ▸ hx⟩
  constructor
  case shape => exact h.inShape
  case leaves =>
    refine ⟨g.top, fun d x hx => ?_⟩
    obtain ⟨hd, hx⟩ := hdepth d x hx
    constructor
    · intro hleaf
      by_contra hne
      obtain ⟨ℓ, hℓ⟩ := Nat.exists_eq_succ_of_ne_zero
        (Nat.sub_ne_zero_of_lt (lt_of_le_of_ne hd hne))
      rw [hℓ] at hx
      rw [(h.blink.internal ℓ x hx).1] at hleaf
      cases hleaf
    · rintro rfl
      rw [Nat.sub_self] at hx
      exact (h.blink.leaf x hx).1
  case filled =>
    intro d x hx
    obtain ⟨hd, hx⟩ := hdepth (d + 1) x hx
    refine ⟨(h.enough x _ hx).1.resolve_right fun halone => ?_, hw _ x hx⟩
    -- below the root no node is alone
    obtain ⟨p, post, hp⟩ := h.blink.exists_mem_chain (ℓ := g.top - (d + 1) + 1) (by omega)
    have hpm : p ∈ g.chain (g.top - (d + 1) + 1) := by rw [hp]; exact List.mem_cons_self
    exact h.not_alone hpm ((h.enough p _ hpm).2 (Nat.succ_pos _)) halone
  case arity =>
    intro d x hx hleaf
    obtain ⟨ℓ, hx⟩ := hinner d x hx hleaf
    exact h.blink.length_children hx
  case bounded =>
    intro d x hx hleaf
    obtain ⟨ℓ, hx⟩ := hinner d x hx hleaf
    exact h.children_high hx
  case unbounded =>
    have hthread := h.blink.threaded g.top
    rw [h.root_alone] at hthread
    exact hthread.only.2
  case hinted =>
    intro d x hx hleaf c hc
    obtain ⟨ℓ, hx⟩ := hinner d x hx hleaf
    exact hh.child ℓ x hx c hc (by simp)
  case unhinted => exact hh.root

/-! ### Runs of calls -/

namespace BPlusTree

variable (t : BPlusTree)

/-- What a call makes of the tree. -/
def call (op : SeqOp) : BPlusTree := ((t.perform t.rounds op).map Prod.fst).getD t

/-- An insert finds room in the arena for the nodes it allocates. -/
def Room : SeqOp → Prop
  | .insert key _ => t.count + t.allocations key ≤ t.cfg.maxNodes
  | _ => True

instance (op : SeqOp) : Decidable (t.Room op) := by
  unfold Room
  cases op <;> infer_instance

/-- The node an insert has come to by a hint is the parent of the split node, so that neither
`move_right_to_child_` nor `child_position_` misses it, and without a hint it was the root that was
split. -/
def AtParent : Pc → Prop
  | .relocate cur child _ => child ∈ (t.nodes cur).children
  | .growRoot child _ => t.root = child
  | .freshHint _ _ => False
  | .targetLost => False
  | .badLink => False
  | _ => True

/-- The representation invariant holds before the call; the call comes to an end, and returns; and
no assertion fails on the way. -/
structure Sound (op : SeqOp) : Prop where
  represented : t.Represented
  returns : ∃ r, r ≠ .lengthError ∧
    ∀ fuel, t.rounds ≤ fuel → t.perform fuel op = some (t.call op, r)
  insert : ∀ key id, op = .insert key id → ∀ n,
    (solo (.insert key id) n (t, .lockRoot)).1.AtParent (solo (.insert key id) n (t, .lockRoot)).2
  remove : ∀ key id, op = .remove key id → ∀ fuel, t.count < fuel →
    ∀ q ∈ t.removeLookups fuel key id, q.2 ∈ q.1.children

end BPlusTree

/-- What holds of a tree between two calls. -/
structure Kept (t : BPlusTree) (g : Shape) (m : Multiset Entry) : Prop extends Stores t g m where
  homed : Homed t g []
  within : Within t g

theorem Kept.new (cfg : BTreeConfig) :
    Kept (.new cfg) ⟨0, fun ℓ => if ℓ = 0 then [0] else [], fun _ => none⟩ 0 where
  wellFormed := wellFormed_new cfg
  contents := rfl
  size := rfl
  homed := ⟨fun ℓ p hp => absurd hp (by simp), rfl⟩
  within := fun _ _ _ => Nat.zero_le _

theorem Kept.of_formed (h : Stores t g m) (h' : Formed t g') (hh : Homed t g' [])
    (hw : Within t g') : Kept t g m :=
  ⟨h, hh.of_formed h' h.wellFormed.toFormed, hw.of_formed h' h.wellFormed.toFormed⟩

theorem OnCourse.atParent (h : OnCourse t g key pc) : t.AtParent pc := by
  cases pc <;> first | exact trivial | exact h.1 | exact h.elim

theorem Alone.solo_range {lo hi : Key} {s : BPlusTree × Pc} (h : Alone cfg m (.range lo hi) s g)
    (hcap : 2 ≤ cfg.nodeCapacity) (n : ℕ) : (BPlusTree.solo (.range lo hi) n s).1 = s.1 := by
  induction n generalizing s g with
  | zero => rfl
  | succ n ih => exact (ih (h.step hcap)).trans (runSection_range_reads h.call).1

namespace Kept

variable {op : SeqOp} {r : Reply} {fuel : ℕ}

theorem steady (h : Kept t g m) (hcap : 2 ≤ t.cfg.nodeCapacity) (id : InternalId)
    (hroom : t.Room (.insert key id)) (n : ℕ) : ∃ g', Alone t.cfg m (.insert key id)
        (BPlusTree.solo (.insert key id) n (t, .lockRoot)) g' ∧
      Steady (BPlusTree.solo (.insert key id) n (t, .lockRoot)).1 g' key
        (BPlusTree.solo (.insert key id) n (t, .lockRoot)).2 := by
  have hsize := h.size
  rw [← h.contents] at hsize
  have ha := h.wellFormed.alone hsize (.insert key id)
  rw [h.contents] at ha
  have hs : Steady t g key .lockRoot := ⟨h.homed, h.within, h.wellFormed.toFormed, hroom⟩
  exact hs.solo ha hcap n

/-- An insert with room does not throw. -/
theorem insert_returns (h : Kept t g m) (hcap : 2 ≤ t.cfg.nodeCapacity)
    (hroom : t.Room (.insert key id)) (hp : t.perform fuel (.insert key id) = some (t', r)) :
    r ≠ .lengthError ∧ ∃ g', Formed t' g' ∧ Homed t' g' [] ∧ Within t' g' := by
  obtain ⟨g', ha, hs⟩ := h.steady hcap id hroom fuel
  rw [BPlusTree.perform] at hp
  split at hp
  · next t₁ out hsolo =>
    cases hp
    rw [hsolo] at ha hs
    exact ⟨Reply.noConfusion, g', ha.wellFormed.1.toFormed, hs.homed, hs.within⟩
  · next t₁ hsolo =>
    rw [hsolo] at hs
    exact hs.course.elim
  · cases hp

/-- A query leaves the tree as it is. -/
theorem query_reads (h : Kept t g m) (hcap : 2 ≤ t.cfg.nodeCapacity) {lo hi : Key} {t₁ : BPlusTree}
    (hsolo : BPlusTree.solo (.range lo hi) fuel (t, .lockRoot) = (t₁, pc)) : t₁ = t := by
  have hsize := h.size
  rw [← h.contents] at hsize
  have hfst := (h.wellFormed.alone hsize (.range lo hi)).solo_range hcap fuel
  rw [hsolo] at hfst
  exact hfst

/-- **Every call** with room returns, and leaves the hints right and the nodes within their
capacity. -/
theorem perform_keeps (h : Kept t g m) (hcap : 2 ≤ t.cfg.nodeCapacity) {op : SeqOp}
    (hroom : t.Room op) (hfuel : t.count < fuel) (hp : t.perform fuel op = some (t', r)) :
    r ≠ .lengthError ∧ ∃ g', Formed t' g' ∧ Homed t' g' [] ∧ Within t' g' := by
  have hsame : t' = t → ∃ g', Formed t' g' ∧ Homed t' g' [] ∧ Within t' g' := by
    rintro rfl
    exact ⟨g, h.wellFormed.toFormed, h.homed, h.within⟩
  cases op with
  | insert key id => exact h.insert_returns hcap hroom hp
  | remove key id =>
    obtain ⟨t₁, found, g', hrem, hkeep⟩ := h.wellFormed.remove_keeps hcap h.homed h.within key id
    rw [BPlusTree.perform, hrem fuel hfuel] at hp
    cases hp
    exact ⟨Reply.noConfusion, g', hkeep⟩
  | find key =>
    rw [BPlusTree.perform] at hp
    split at hp
    · next t₁ out hsolo =>
      cases hp
      exact ⟨Reply.noConfusion, hsame (h.query_reads hcap hsolo)⟩
    · cases hp
  | range lo hi =>
    rw [BPlusTree.perform] at hp
    split at hp
    · next t₁ out hsolo =>
      cases hp
      exact ⟨Reply.noConfusion, hsame (h.query_reads hcap hsolo)⟩
    · cases hp
  | size =>
    cases hp
    exact ⟨Reply.noConfusion, hsame rfl⟩

/-- **One call** with room is sound, and what holds between two calls holds after it. -/
theorem step (h : Kept t g m) (hcap : 2 ≤ t.cfg.nodeCapacity) {op : SeqOp} (hroom : t.Room op) :
    t.Sound op ∧ (t.call op).cfg = t.cfg ∧ ∃ g', Kept (t.call op) g' (op.after m) := by
  obtain ⟨t', r, hn, hstores⟩ := h.toStores.perform hcap op
  have hcall : t.call op = t' := by
    rw [BPlusTree.call, hn _ le_rfl]
    rfl
  obtain ⟨hr, g₁, hf, hh, hw⟩ := h.perform_keeps hcap hroom t.count_lt_rounds (hn _ le_rfl)
  rw [hcall]
  obtain ⟨-, hcfg, g', hst⟩ := (hstores.resolve_left fun he => hr he.1).2
  refine ⟨⟨h.wellFormed.represented h.homed h.within, ⟨r, hr, hcall ▸ hn⟩, ?_, ?_⟩, hcfg, g',
    .of_formed hst hf hh hw⟩
  · rintro key id rfl n
    obtain ⟨g₂, -, hs⟩ := h.steady hcap id hroom n
    exact hs.course.atParent
  · rintro key id rfl fuel hfuel
    exact h.wellFormed.removeLookups hcap key id hfuel

end Kept

namespace BPlusTree

/-- **The representation invariant holds in every run** of calls on an empty tree in which every
insert finds room: before every call and in the end.  Every call comes to an end and returns, no
assertion fails, and an insert looks for a new root only over the root. -/
theorem represented_run (cfg : BTreeConfig) (hcap : 2 ≤ cfg.nodeCapacity) (ops : List SeqOp)
    (hroom : Run.Along call Room (new cfg) ops) :
    Run.Along call Sound (new cfg) ops ∧ (ops.foldl call (new cfg)).Represented := by
  have hstep : ∀ (t : BPlusTree) (op : SeqOp), (2 ≤ t.cfg.nodeCapacity ∧ ∃ g m, Kept t g m) →
      t.Room op → 2 ≤ (t.call op).cfg.nodeCapacity ∧ ∃ g m, Kept (t.call op) g m := by
    rintro t op ⟨hcap, g, m, h⟩ hroom
    obtain ⟨-, hcfg, g', h'⟩ := h.step hcap hroom
    exact ⟨by rwa [hcfg], g', _, h'⟩
  have hnew : 2 ≤ (new cfg).cfg.nodeCapacity ∧ ∃ g m, Kept (new cfg) g m :=
    ⟨hcap, _, 0, .new cfg⟩
  refine ⟨Run.Along.always hstep ?_ hnew hroom, ?_⟩
  · rintro t op ⟨hcap, g, m, h⟩ hroom
    exact (h.step hcap hroom).1
  · obtain ⟨-, g, m, h⟩ := hroom.invariant hstep hnew
    exact h.wellFormed.represented h.homed h.within

/-- Inserts that grow the tree by two levels, and removals that take it back to one leaf. -/
def growShrink : List SeqOp :=
  [4, 2, 6, 1, 3, 5, 7].map (fun k => .insert k k) ++ [1, 7, 2, 3, 6, 4].map fun k => .remove k k

theorem represented_run_growShrink :
    Run.Along call Sound (new { nodeCapacity := 2, maxNodes := 8 }) growShrink ∧
      (growShrink.foldl call (new { nodeCapacity := 2, maxNodes := 8 })).Represented :=
  represented_run { nodeCapacity := 2, maxNodes := 8 } (by decide) growShrink (by decide +kernel)

/-- In an arena of three nodes the fifth insert throws, and leaves a leaf of three keys under a root
where two are allowed. -/
theorem overfull_leaf : ∃ t t' : BPlusTree,
    ([1, 2, 3, 4].map fun k => SeqOp.insert k k).foldl call
      (new { nodeCapacity := 2, maxNodes := 3 }) = t ∧
    t.perform t.rounds (.insert 5 5) = some (t', .lengthError) ∧ ¬ t'.Represented := by
  refine ⟨_, _, rfl, rfl, fun h => ?_⟩
  have hfilled := fun x hx => (h.filled 0 x hx).2
  revert hfilled
  decide +kernel

end BPlusTree

end BTree

end Vdb
