import Mathlib.Algebra.Group.Nat.Defs
import Mathlib.Data.Nat.Notation
import Mathlib.Order.Lattice

/-!
# Identifiers and distances
-/

namespace Vdb

/-- Row number inside the database, an index into its parallel arrays. -/
abbrev InternalId := ℕ

/-- What a caller names a row by. -/
abbrev ExternalId := ℕ

/-- Any two distances compare, and two that are as near as each other need not be equal. -/
class Distance (δ : Type*) extends Preorder δ where
  le_total : ∀ a b : δ, a ≤ b ∨ b ≤ a
  decidableLE : DecidableLE δ
  decidableLT : DecidableLT δ

attribute [reducible, instance] Distance.decidableLE Distance.decidableLT

instance {δ : Type*} [LinearOrder δ] : Distance δ where
  le_total := fun a b => LinearOrder.le_total a b
  decidableLE := inferInstance
  decidableLT := inferInstance

end Vdb
