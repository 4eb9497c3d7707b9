import Vdb.Database.Shape

/-!
# The posting lists of a database

What the lists of one column obey after any calls: a call publishes at most the row that it appends,
and only `set_metadata` writes a value where the lists may name the row already.

* `VDB.Laid.writes` : one call keeps the rule, if overwriting a row does.
* `VDB.laid_run` : any calls do.
* `VDB.sized_run` : the sizes of the arrays after any calls.
-/

namespace Vdb

namespace Database

open Metadata

namespace VDB

variable {ι δ : Type} [ColumnIndex ι] [Distance δ] {K : Kernels δ} {config : VDBConfig}
  {X : Index → List Vec → Prop} {R : PostRule} {attr : ℕ} {db db₀ : VDB ι}
  {D : Column ι → InternalId → AttrValue → Prop} {op : Op}

/-- `D` holds of a row of column `attr` that is overwritten. -/
def Overwrites (D : Column ι → InternalId → AttrValue → Prop) (attr : ℕ) (db : VDB ι) : Op → Prop
  | .setMetadata ext rec => db.validate rec = .ok () →
    ∀ iid ∈ db.extToInt ext, D (db.metadata.column attr) iid (rec.attr attr)
  | _ => True

/-- What is asked of a call for the lists of column `attr`. -/
structure Writes (K : Kernels δ) (D : Column ι → InternalId → AttrValue → Prop) (attr : ℕ)
    (db : VDB ι)
    (op : Op) : Prop where
  leaves : db.Leaves K op
  bools : ∀ rec ∈ op.record, rec.BoolsOk
  overwrites : db.Overwrites D attr op

instance [∀ c i v, Decidable (D c i v)] : (op : Op) → Decidable (db.Overwrites D attr op)
  | .setMetadata ext rec => inferInstanceAs (Decidable (db.validate rec = .ok () →
      ∀ iid ∈ db.extToInt ext, D (db.metadata.column attr) iid (rec.attr attr)))
  | .insert _ _ => .isTrue trivial
  | .insertReserved _ _ _ => .isTrue trivial
  | .remove _ => .isTrue trivial
  | .update _ _ _ => .isTrue trivial
  | .compact => .isTrue trivial
  | .reload _ => .isTrue trivial

instance [∀ c i v, Decidable (D c i v)] : Decidable (db.Writes K D attr op) :=
  decidable_of_iff (db.Leaves K op ∧ (∀ rec ∈ op.record, rec.BoolsOk) ∧ db.Overwrites D attr op)
    ⟨fun h => ⟨h.1, h.2.1, h.2.2⟩, fun h => ⟨h.leaves, h.bools, h.overwrites⟩⟩

/-- **One call** keeps the rule. -/
theorem Laid.writes (hX : Index.Keeps K config X)
    (hplain : ∀ spec, config.schema[attr]? = some spec → spec.indexed = false)
    (hD : Column.Adheres R D)
    (h : db.Laid X (Column.Watches R attr db.IsLive) db.IsLive config)
    (hw : db.Writes K D attr op) :
    (db.apply K op).Laid X (Column.Watches R attr (db.apply K op).IsLive) (db.apply K op).IsLive
      config := by
  refine h.step hX (Column.survives_watches hplain) hw.leaves
    (fun rec hrec a => (hw.bools rec hrec).attr a)
    fun ext rec hop hv iid hext S a c n hc htyped hcol => ⟨hcol.1.setRow iid _, ?_⟩
  subst hop
  rintro rfl
  refine (hcol.2 rfl).setRow ⟨htyped, (hw.bools rec rfl).attr a⟩ fun hlt hs hposted =>
    hD _ _ _ _ _ hposted hlt hs ?_
  have hover := hw.overwrites hv iid hext
  rwa [MetadataStore.column_of_getElem hc] at hover

/-- **Any calls** keep the rule. -/
theorem laid_run (hX : Index.Keeps K config X)
    (hplain : ∀ spec, config.schema[attr]? = some spec → spec.indexed = false)
    (hD : Column.Adheres R D)
    (hnew : VDB.new config = .ok db₀) (ops : List Op)
    (h : Run.Along (apply K) (fun db op => db.Writes K D attr op) db₀ ops) :
    let db := ops.foldl (apply K) db₀
    db.Laid X (Column.Watches R attr db.IsLive) db.IsLive config :=
  Run.Along.invariant
    (I := fun db : VDB ι => db.Laid X (Column.Watches R attr db.IsLive) db.IsLive config)
    (fun _ _ hl hw => hl.writes hX hplain hD hw)
    (laid_start hX.make (Column.survives_watches hplain) hnew) h

/-- Any call that leaves a database keeps the sizes of the arrays. -/
theorem Laid.leaves (hX : Index.Keeps K config X) (h : db.Laid X Column.HasSize db.IsLive config)
    (hl : db.Leaves K op) : (db.apply K op).Laid X Column.HasSize (db.apply K op).IsLive config :=
  h.step (P := fun _ => Column.HasSize) hX (Column.survives_hasSize config.schema) hl
    (fun _ _ _ => trivial)
    fun _ rec _ _ iid _ _ a _ _ _ _ hcol => Column.Sized.setRow hcol iid (rec.attr a)

/-- The sizes of the arrays after any calls. -/
theorem sized_run (hX : Index.Keeps K config X) (hnew : VDB.new config = .ok db₀) (ops : List Op)
    (h : Run.Along (apply K) (fun db op => db.Leaves K op) db₀ ops) :
    let db := ops.foldl (apply K) db₀
    db.Laid X Column.HasSize db.IsLive config :=
  Run.Along.invariant (I := fun db : VDB ι => db.Laid X Column.HasSize db.IsLive config)
    (fun _ _ h hl => h.leaves hX hl)
    (laid_start (P := fun _ => Column.HasSize) hX.make (Column.survives_hasSize config.schema)
      hnew) h

end VDB

end Database

end Vdb
