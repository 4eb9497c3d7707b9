import Vdb.BTree.Order
import Mathlib.Data.Finset.Card

/-!
# The sequential B+-tree

`WellFormed t g` : a B-link tree with nothing left to be linked.  The children of a level, read
left to right, are the level below (`Formed.below`), and every node but the root is half full.

Two siblings are then neighbours on their level, and the high key of a node is the separator
behind it (`Formed.high_child`) or the high key of its parent (`Formed.high_last`).  A `Path`
lists the ancestors of a node, as `remove` collects them.
-/

namespace Vdb

namespace BTree

/-- Nothing waits to be linked from above. -/
structure Formed (t : BPlusTree) (g : Shape) : Prop where
  blink : BLink t g
  below : ∀ ℓ < g.top, childrenOf t g ℓ = g.chain ℓ
  root_alone : g.chain g.top = [t.root]
  hinted : ∀ ℓ < g.top, ∀ x ∈ g.chain ℓ, (t.nodes x).parentHint ≠ none

/-- The node `x` holds enough for its place. -/
def EnoughAt (t : BPlusTree) (g : Shape) (x : NodeId) : Prop :=
  ∀ ℓ, x ∈ g.chain ℓ →
    (t.cfg.nodeCapacity / 2 ≤ (t.nodes x).keys.length ∨ g.chain ℓ = [x]) ∧
    (0 < ℓ → 0 < (t.nodes x).keys.length)

/-- A sequential B+-tree of shape `g`. -/
structure WellFormed (t : BPlusTree) (g : Shape) : Prop extends Formed t g where
  enough : ∀ x, EnoughAt t g x

variable {t : BPlusTree} {g : Shape}

theorem wellFormed_iff : WellFormed t g ↔ BLink t g ∧ Tidy t g [] [] := by
  have hf : ∀ xs : List NodeId, xs.filter (· ∉ ([] : List NodeId)) = xs := fun xs =>
    List.filter_eq_self.2 fun x _ => by simp
  constructor
  · intro h
    refine ⟨h.blink, ?_, ?_, fun ℓ hℓ x hx _ _ => h.hinted ℓ hℓ x hx,
      fun ℓ x hx => (h.enough x ℓ hx).1, fun ℓ x hx => (h.enough x _ hx).2 (Nat.succ_pos ℓ)⟩
    · exact fun ℓ hℓ => (h.below ℓ hℓ).trans (hf _).symm
    · exact (hf _).trans h.root_alone
  · rintro ⟨hb, ht⟩
    refine ⟨⟨hb, fun ℓ hℓ => (ht.below ℓ hℓ).trans (hf _), (hf _).symm.trans ht.root_alone,
      fun ℓ hℓ x hx => ht.hinted ℓ hℓ x hx (by simp) (by simp)⟩, fun x ℓ hx => ?_⟩
    refine ⟨ht.half_full ℓ x hx, fun hℓ => ?_⟩
    obtain ⟨ℓ, rfl⟩ := Nat.exists_eq_succ_of_ne_zero hℓ.ne'
    exact ht.nonempty ℓ x hx

/-- A tree has more nodes than levels above its leaves. -/
theorem BLink.top_lt_count (hb : BLink t g) : g.top < t.count := by
  have hhead : ∀ ℓ ∈ Finset.range (g.top + 1), (g.chain ℓ).headD 0 ∈ g.chain ℓ := by
    intro ℓ hℓ
    obtain ⟨x, post, hd⟩ := hb.exists_mem_chain (Nat.le_of_lt_succ (Finset.mem_range.1 hℓ))
    rw [hd]
    exact List.mem_cons_self
  have hinj : Set.InjOn (fun ℓ => (g.chain ℓ).headD 0) ↑(Finset.range (g.top + 1)) := by
    intro a ha b hb' hab
    have hab' : (g.chain a).headD 0 = (g.chain b).headD 0 := hab
    exact hb.level_unique a b _ (hhead a ha) (hab' ▸ hhead b hb')
  have hcard := Finset.card_le_card_of_injOn (t := Finset.range t.count) _
    (fun ℓ hℓ => Finset.mem_coe.2 (Finset.mem_range.2 (hb.lt_count ℓ _ (hhead ℓ hℓ)))) hinj
  rw [Finset.card_range, Finset.card_range] at hcard
  exact hcard

theorem wellFormed_new (cfg : BTreeConfig) :
    WellFormed (.new cfg) ⟨0, fun ℓ => if ℓ = 0 then [0] else [], fun _ => none⟩ where
  blink := .new cfg
  below ℓ hℓ := absurd hℓ (Nat.not_lt_zero ℓ)
  root_alone := rfl
  hinted ℓ hℓ := absurd hℓ (Nat.not_lt_zero ℓ)
  enough x ℓ hx := by
    cases ℓ with
    | zero =>
      refine ⟨.inr ?_, fun h => absurd h (lt_irrefl 0)⟩
      rw [show x = 0 from List.mem_singleton.1 hx]
      rfl
    | succ ℓ => cases hx

namespace Formed

variable {ℓ : ℕ} {p c d : NodeId} {C D P Q : List NodeId}

theorem lt_top (h : Formed t g) (hp : p ∈ g.chain (ℓ + 1)) : ℓ < g.top :=
  Nat.lt_of_succ_le (h.blink.level_le_top hp)

/-- A level, cut at the children of one node. -/
theorem chain_eq (h : Formed t g) (hp : g.chain (ℓ + 1) = P ++ p :: Q) :
    g.chain ℓ = (P.flatMap fun x => (t.nodes x).children) ++ (t.nodes p).children ++
      Q.flatMap fun x => (t.nodes x).children := by
  have hmem : p ∈ g.chain (ℓ + 1) := by rw [hp]; simp
  rw [← h.below ℓ (h.lt_top hmem), childrenOf, hp]
  simp

/-- Siblings are neighbours on their level. -/
theorem chain_siblings (h : Formed t g) (hp : p ∈ g.chain (ℓ + 1))
    (hc : (t.nodes p).children = C ++ c :: d :: D) :
    ∃ A B, g.chain ℓ = A ++ c :: d :: B := by
  obtain ⟨P, Q, hPQ⟩ := List.append_of_mem hp
  refine ⟨(P.flatMap fun x => (t.nodes x).children) ++ C,
    D ++ Q.flatMap fun x => (t.nodes x).children, ?_⟩
  rw [h.chain_eq hPQ, hc]
  simp

theorem joined_siblings (h : Formed t g) (hp : p ∈ g.chain (ℓ + 1))
    (hc : (t.nodes p).children = C ++ c :: d :: D) : Joined t g c d := by
  obtain ⟨A, B, hd⟩ := h.chain_siblings hp hc
  have := h.blink.threaded ℓ
  rw [hd] at this
  exact this.rel

/-- The last child of a node ends where the node ends, and the next node on its level is the
first child of the next node above. -/
theorem next_last (h : Formed t g) (hp : g.chain (ℓ + 1) = P ++ p :: Q)
    (hc : (t.nodes p).children = C ++ [c]) :
    ∃ A B, g.chain ℓ = A ++ c :: B ∧ (t.nodes c).highKey = (t.nodes p).highKey ∧
      (Q = [] ∧ B = [] ∨
        ∃ q Q' d D, Q = q :: Q' ∧ (t.nodes q).children = d :: D ∧ ∃ B', B = d :: B') := by
  have hchain := h.chain_eq hp
  rw [hc] at hchain
  have hcut : g.chain ℓ = (P.flatMap fun x => (t.nodes x).children) ++ C ++ c ::
      Q.flatMap fun x => (t.nodes x).children := by rw [hchain]; simp
  have hnext := h.blink.next hcut
  have hnextp := h.blink.next hp
  refine ⟨_, _, hcut, ?_, ?_⟩
  · cases Q with
    | nil =>
      rcases hnext with ⟨-, -, hhigh⟩ | ⟨_, _, he, -⟩
      · rcases hnextp with ⟨-, -, hhigh'⟩ | ⟨_, _, he, -⟩
        · rw [hhigh, hhigh']
        · cases he
      · cases he
    | cons q Q =>
      have hq : q ∈ g.chain (ℓ + 1) := by rw [hp]; simp
      obtain ⟨-, -, hmap⟩ := h.blink.internal ℓ q hq
      cases hqc : (t.nodes q).children with
      | nil => rw [hqc] at hmap; cases hmap
      | cons d D =>
        rw [hqc, List.map_cons] at hmap
        have hdlow : g.low d = g.low q := (List.cons.inj hmap).1
        rcases hnext with ⟨he, -⟩ | ⟨e, _, he, -, v, hlow, hhigh⟩
        · rw [List.flatMap_cons, hqc] at he
          cases he
        · rw [List.flatMap_cons, hqc] at he
          cases he
          rcases hnextp with ⟨he, -⟩ | ⟨_, _, he, -, w, hlow', hhigh'⟩
          · cases he
          · cases he
            rw [hhigh, hhigh', ← hlow, hdlow, hlow']
  · cases Q with
    | nil => exact .inl ⟨rfl, rfl⟩
    | cons q Q =>
      refine .inr ?_
      have hq : q ∈ g.chain (ℓ + 1) := by rw [hp]; simp
      have hlen := h.blink.length_children hq
      cases hqc : (t.nodes q).children with
      | nil => rw [hqc] at hlen; cases hlen
      | cons d D => exact ⟨q, Q, d, D, rfl, hqc, _, by rw [List.flatMap_cons, hqc]; rfl⟩

end Formed

/-- `path` lists the ancestors of the node `x` of level `ℓ`, the parent first. -/
inductive Path (t : BPlusTree) (g : Shape) : ℕ → NodeId → List NodeId → Prop
  | root : Path t g g.top t.root []
  | child {ℓ : ℕ} {p c : NodeId} {path : List NodeId} :
      Path t g (ℓ + 1) p path → c ∈ (t.nodes p).children → Path t g ℓ c (p :: path)

theorem Path.mem (hb : BLink t g) {ℓ : ℕ} {x : NodeId} {path : List NodeId}
    (h : Path t g ℓ x path) : x ∈ g.chain ℓ := by
  induction h with
  | root => exact hb.root_mem
  | child _ hc ih => exact (hb.internal _ _ ih).2.1 _ hc

/-! ### Well-formedness read off the tree itself -/

/-- The nodes `d` steps below the root, left to right. -/
def BPlusTree.depth (t : BPlusTree) : ℕ → List NodeId
  | 0 => [t.root]
  | d + 1 => (t.depth d).flatMap fun x => if (t.nodes x).isLeaf then [] else (t.nodes x).children

theorem Formed.depth_eq (h : Formed t g) : ∀ d ≤ g.top, t.depth d = g.chain (g.top - d) := by
  intro d
  induction d with
  | zero => intro _; exact h.root_alone.symm
  | succ d ih =>
    intro hd
    have hℓ : g.top - d = g.top - (d + 1) + 1 := by omega
    rw [BPlusTree.depth, ih (Nat.le_of_succ_le hd), hℓ,
      ← h.below (g.top - (d + 1)) (Nat.sub_lt (Nat.zero_lt_of_lt hd) (Nat.succ_pos d))]
    refine List.flatMap_congr fun x hx => ?_
    rw [(h.blink.internal _ x hx).1]
    rfl

theorem Formed.depth_eq_nil (h : Formed t g) : ∀ d, g.top < d → t.depth d = [] := by
  intro d hd
  induction d with
  | zero => exact absurd hd (Nat.not_lt_zero _)
  | succ d ih =>
    rw [BPlusTree.depth]
    rcases Nat.lt_or_ge g.top d with hlt | hge
    · rw [ih hlt]
      rfl
    · obtain rfl : d = g.top := Nat.le_antisymm hge (Nat.le_of_lt_succ hd)
      rw [h.depth_eq _ le_rfl, Nat.sub_self]
      refine List.flatMap_eq_nil_iff.2 fun x hx => ?_
      rw [(h.blink.leaf x hx).1]
      rfl

/-- The lower ends of a level grow from left to right. -/
theorem Formed.low_sorted (h : Formed t g) : ∀ ℓ,
    (g.chain ℓ).Pairwise fun a b => ∀ u ∈ g.low a, ∃ v, g.low b = some v ∧ u ≤ v := by
  intro ℓ
  induction ℓ with
  | zero =>
    refine h.blink.leaf_pairwise.imp ?_
    rintro a b ⟨v, hv, -, hle⟩ u hu
    exact ⟨v, hv, hle u hu⟩
  | succ ℓ ih =>
    rcases Nat.lt_or_ge g.top (ℓ + 1) with hlt | hge
    · rw [h.blink.above _ hlt]
      exact List.Pairwise.nil
    · -- a node starts where its first child starts
      rw [← h.below ℓ (Nat.lt_of_succ_le hge), childrenOf] at ih
      have hfirst : ∀ x ∈ g.chain (ℓ + 1), ∃ c ∈ (t.nodes x).children, g.low c = g.low x := by
        intro x hx
        have hmap := (h.blink.internal ℓ x hx).2.2
        cases hc : (t.nodes x).children with
        | nil => rw [hc] at hmap; cases hmap
        | cons c D =>
          rw [hc, List.map_cons] at hmap
          exact ⟨c, List.mem_cons_self, (List.cons.inj hmap).1⟩
      refine (List.pairwise_flatMap.1 ih).2.imp_of_mem ?_
      intro a b ha hb hab
      obtain ⟨c, hc, hlc⟩ := hfirst a ha
      obtain ⟨d, hd, hld⟩ := hfirst b hb
      rw [← hlc, ← hld]
      exact hab c hc d hd

/-- The separators of an internal node are sorted. -/
theorem Formed.keys_sorted (h : Formed t g) {ℓ : ℕ} {x : NodeId} (hx : x ∈ g.chain (ℓ + 1)) :
    (t.nodes x).keys.Pairwise (· ≤ ·) := by
  have hmap := (h.blink.internal ℓ x hx).2.2
  have hsort : (t.nodes x).children.Pairwise
      fun a b => ∀ u ∈ g.low a, ∃ v, g.low b = some v ∧ u ≤ v := by
    have := h.low_sorted ℓ
    rw [← h.below ℓ (h.lt_top hx)] at this
    exact (List.pairwise_flatMap.1 this).1 x hx
  have hlow : ((t.nodes x).children.map g.low).Pairwise
      fun a b => ∀ u ∈ a, ∃ v, b = some v ∧ u ≤ v := List.pairwise_map.2 hsort
  rw [hmap] at hlow
  refine (List.pairwise_map.1 (List.pairwise_cons.1 hlow).2).imp ?_
  intro a b hab
  obtain ⟨v, hv, hle⟩ := hab a rfl
  cases hv
  exact hle

/-- In every node the keys are sorted, and the nodes of every level, in the order of their
parents, are threaded by their right links. -/
def BPlusTree.InShape (t : BPlusTree) : Prop :=
  ∀ d, (∀ x ∈ t.depth d, (t.nodes x).keys.Pairwise (· ≤ ·)) ∧
    Spine.Threaded (fun a b => (t.nodes a).rightLink = some b)
      (fun a => (t.nodes a).rightLink = none) (t.depth d)

theorem Formed.inShape (h : Formed t g) : t.InShape := by
  intro d
  rcases Nat.lt_or_ge g.top d with hlt | hge
  · rw [h.depth_eq_nil d hlt]
    exact ⟨by rintro x ⟨⟩, ⟨.nil, by rintro a ⟨⟩⟩⟩
  · rw [h.depth_eq d hge]
    refine ⟨fun x hx => ?_, (h.blink.threaded _).mono (fun a _ b _ hab => hab.1)
      fun a _ ha => ha.1⟩
    cases hℓ : g.top - d with
    | zero =>
      rw [hℓ] at hx
      exact (h.blink.leaf x hx).2.sorted
    | succ ℓ =>
      rw [hℓ] at hx
      exact h.keys_sorted hx

end BTree

end Vdb
