import Vdb.Database.Snapshot

/-!
# One call after the other

The operations of a `VDB` as a caller of one thread sees them: an `Op` is a call with its arguments
and a `Reply` what it returns.  A call that throws leaves a state too; a call whose `assert` fails
leaves none.
-/

namespace Vdb

namespace Database

open Metadata

inductive Op where
  | insert (vec : Vec) (rec : Record)
  | insertReserved (ext : ExternalId) (vec : Vec) (rec : Record)
  | remove (ext : ExternalId)
  | update (ext : ExternalId) (vec : Vec) (rec : Option Record)
  | setMetadata (ext : ExternalId) (rec : Record)
  | compact
  /-- `save_snapshot`, and `load_snapshot` into a fresh database. -/
  | reload (lsn : ℕ)
  deriving DecidableEq

inductive Reply where
  | id (ext : ExternalId)
  | found (b : Bool)
  | done
  deriving DecidableEq

namespace VDB

variable {ι δ : Type} [ColumnIndex ι] [Distance δ] (K : Kernels δ) (db : VDB ι)

def call : Op → Outcome (VDB ι) Reply
  | .insert vec rec => (db.insert K vec rec).andThen fun ext db => .ok (.id ext) db
  | .insertReserved ext vec rec =>
    (db.insertReserved K ext vec rec).andThen fun _ db => .ok .done db
  | .remove ext => (db.remove ext).andThen fun b db => .ok (.found b) db
  | .update ext vec rec => (db.update K ext vec rec).andThen fun b db => .ok (.found b) db
  | .setMetadata ext rec => (db.setMetadata ext rec).andThen fun b db => .ok (.found b) db
  | .compact => (db.compact K).andThen fun _ db => .ok .done db
  | .reload lsn => .ok .done (db.reload lsn)

/-- The state a call leaves. -/
def apply (op : Op) : VDB ι := (db.call K op).state

/-- Databases without attributes, of every kind. -/
def plainConfig (kind : IndexKind) : VDBConfig := { kind, dim := 1 }

def plainDb (kind : IndexKind) : VDB PairIndex where
  config := plainConfig kind
  index := Index.make (plainConfig kind)
  metadata :=
    { schema := [], fingerprint := computeFingerprint [], rows := 0, columns := [], payload := [] }

theorem new_plainDb (kind : IndexKind) :
    VDB.new (plainConfig kind) = Except.ok (ε := Exn) (plainDb kind) := rfl

/-- A Brute database with one Tag attribute. -/
def taggedConfig : VDBConfig :=
  { kind := .brute, dim := 1, schema := [{ name := [97], type := .tag }] }

def taggedDb : VDB PairIndex where
  config := taggedConfig
  index := Index.make taggedConfig
  metadata :=
    { schema := taggedConfig.schema, fingerprint := computeFingerprint taggedConfig.schema,
      rows := 0
      columns := taggedConfig.schema.map Column.new, payload := [] }

theorem new_taggedDb : VDB.new taggedConfig = Except.ok (ε := Exn) taggedDb := rfl

end VDB

end Database

end Vdb
