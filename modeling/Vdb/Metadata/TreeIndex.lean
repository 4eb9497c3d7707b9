import Vdb.BTree.Sequential
import Vdb.Metadata.Index

/-!
# A B+-tree as the index of a column

`TreeIndex` is the index that a column has: a `BPlusTree` whose keys are the sortable ones.  It is
lawful because a tree answers as the multiset of its pairs (`BTree.Stores.perform`), as long as its
arena has not been exhausted.
-/

namespace Vdb

namespace Metadata

open BTree (BPlusTree)

/-- A tree with an arena of `maxNodes` nodes. -/
structure TreeIndex (maxNodes : ℕ) where
  tree : BPlusTree

namespace TreeIndex

variable {n : ℕ}

/-- A pair as the tree stores it. -/
def entry (e : UInt64 × InternalId) : BTree.Entry := (e.1.toNat, e.2)

theorem entry_injective : Function.Injective entry := by
  rintro ⟨a, i⟩ ⟨b, j⟩ h
  obtain ⟨hkey, hid⟩ := Prod.mk.inj h
  rw [Prod.mk.injEq]
  exact ⟨UInt64.toNat_inj.1 hkey, hid⟩

def insert (t : TreeIndex n) (key : UInt64) (id : InternalId) : Outcome (TreeIndex n) Unit :=
  match t.tree.perform t.tree.rounds (.insert key.toNat id) with
  | some (tree, .unit) => .ok () ⟨tree⟩
  | some (tree, _) => .error (.lengthError (ascii "BPlusTree: max_nodes exceeded")) ⟨tree⟩
  | none => .error .assertionFailed t

def remove (t : TreeIndex n) (key : UInt64) (id : InternalId) : TreeIndex n :=
  match t.tree.perform t.tree.rounds (.remove key.toNat id) with
  | some (tree, _) => ⟨tree⟩
  | none => t

def range (t : TreeIndex n) (lo hi : UInt64) : List InternalId :=
  match t.tree.perform t.tree.rounds (.range lo.toNat hi.toNat) with
  | some (_, .entries out) => out.map Prod.snd
  | _ => []

instance : ColumnIndex (TreeIndex n) where
  empty := ⟨.new { maxNodes := n }⟩
  insert := insert
  remove := remove
  range := range

/-- The tree stores these pairs. -/
def Has (t : TreeIndex n) (m : Multiset (UInt64 × InternalId)) : Prop :=
  2 ≤ t.tree.cfg.nodeCapacity ∧ ∃ g, BTree.Stores t.tree g (m.map entry)

variable {t t' : TreeIndex n} {m : Multiset (UInt64 × InternalId)} {key : UInt64} {id : InternalId}

theorem has_empty : (ColumnIndex.empty : TreeIndex n).Has 0 :=
  ⟨show 2 ≤ 128 by decide, _, BTree.wellFormed_new _, rfl, rfl⟩

theorem Has.insert (h : t.Has m) (he : t.insert key id = .ok () t') : t'.Has ((key, id) ::ₘ m) := by
  obtain ⟨hcap, g, hstores⟩ := h
  obtain ⟨tree, r, hn, hcases⟩ := hstores.perform hcap (.insert key.toNat id)
  unfold TreeIndex.insert at he
  rw [hn _ le_rfl] at he
  obtain ⟨rfl, -⟩ | ⟨-, hlegal, hcfg, g', hstores'⟩ := hcases
  · cases he
  · cases hlegal
    cases he
    refine ⟨by rwa [hcfg], g', ?_⟩
    rw [Multiset.map_cons]
    exact hstores'

theorem Has.remove (h : t.Has m) (key : UInt64) (id : InternalId) :
    (t.remove key id).Has (m.erase (key, id)) := by
  obtain ⟨hcap, g, hstores⟩ := h
  obtain ⟨tree, r, hn, hcases⟩ := hstores.perform hcap (.remove key.toNat id)
  unfold TreeIndex.remove
  rw [hn _ le_rfl]
  obtain ⟨rfl, -⟩ | ⟨-, hlegal, hcfg, g', hstores'⟩ := hcases
  · -- only an insert throws
    obtain ⟨removed, -, hend⟩ := Option.map_eq_some_iff.1 (hn _ le_rfl)
    cases hend
  · refine ⟨by rwa [hcfg], g', ?_⟩
    rw [Multiset.map_erase entry entry_injective]
    exact hstores'

theorem Has.range (h : t.Has m) (lo hi : UInt64) : (t.range lo hi : Multiset InternalId) =
    (m.filter fun e => lo ≤ e.1 ∧ e.1 ≤ hi).map Prod.snd := by
  obtain ⟨hcap, g, hstores⟩ := h
  obtain ⟨tree, r, hn, hcases⟩ := hstores.perform hcap (.range lo.toNat hi.toNat)
  unfold TreeIndex.range
  rw [hn _ le_rfl]
  obtain ⟨rfl, -⟩ | ⟨-, hlegal, -⟩ := hcases
  · have hperform := hn _ le_rfl
    rw [BPlusTree.perform] at hperform
    split at hperform <;> cases hperform
  · cases hlegal with
    | range hout hsorted =>
      dsimp only
      rw [← Multiset.map_coe, hout, Multiset.filter_map, Multiset.map_map]
      refine congrArg (Multiset.map Prod.snd) (Multiset.filter_congr fun e _ => ?_)
      exact and_congr UInt64.le_iff_toNat_le.symm UInt64.le_iff_toNat_le.symm

instance : LawfulColumnIndex (TreeIndex n) where
  Has := Has
  empty := has_empty
  insert := Has.insert
  remove key id h := h.remove key id
  range lo hi h := h.range lo hi

instance : BoundedColumnIndex (TreeIndex n) where
  insert_throws t key id := by
    change (TreeIndex.insert t key id).ThrowsOnly Exn.OutOfRoom
    unfold TreeIndex.insert
    split <;> trivial

end TreeIndex

end Metadata

end Vdb
