import Vdb.Metadata.Column
import Mathlib.Data.Multiset.Filter

/-!
# What an index is for

`LawfulColumnIndex` says that an index holds a multiset of pairs of a key and a row, and answers a
range from it, `BoundedColumnIndex` when it may throw.  `PairIndex` is the index that does nothing
else: a list of the pairs.
-/

namespace Vdb

namespace Metadata

/-- An index that holds a multiset of pairs. -/
class LawfulColumnIndex (ι : Type) [ColumnIndex ι] where
  /-- The index holds these pairs. -/
  Has : ι → Multiset (UInt64 × InternalId) → Prop
  empty : Has ColumnIndex.empty 0
  insert : ∀ {t t' m key id}, Has t m → ColumnIndex.insert t key id = .ok () t' →
    Has t' ((key, id) ::ₘ m)
  remove : ∀ {t m} key id, Has t m → Has (ColumnIndex.remove t key id) (m.erase (key, id))
  range : ∀ {t m} lo hi, Has t m →
    (ColumnIndex.range t lo hi : Multiset InternalId) =
      (m.filter fun e => lo ≤ e.1 ∧ e.1 ≤ hi).map Prod.snd

/-- An index that throws only where it has no room. -/
class BoundedColumnIndex (ι : Type) [ColumnIndex ι] : Prop where
  insert_throws : ∀ (t : ι) key id, (ColumnIndex.insert t key id).ThrowsOnly Exn.OutOfRoom

/-- An index kept as the list of its pairs; it never throws. -/
def PairIndex : Type := List (UInt64 × InternalId)

instance : DecidableEq PairIndex := inferInstanceAs (DecidableEq (List (UInt64 × InternalId)))

instance : ColumnIndex PairIndex where
  empty := ([] : List (UInt64 × InternalId))
  insert t key id := .ok () (((key, id) :: t : List (UInt64 × InternalId)))
  remove t key id := @List.erase (UInt64 × InternalId) instBEqOfDecidableEq t (key, id)
  range t lo hi :=
    ((t : List (UInt64 × InternalId)).filter fun e => lo ≤ e.1 ∧ e.1 ≤ hi).map Prod.snd

instance : BoundedColumnIndex PairIndex := ⟨fun _ _ _ => trivial⟩

instance : LawfulColumnIndex PairIndex where
  Has t m := Multiset.ofList t = m
  empty := rfl
  insert h he := by
    cases he
    subst h
    rfl
  remove key id h := by
    subst h
    rfl
  range lo hi h := by
    subst h
    rfl

end Metadata

end Vdb
