import Vdb.Durable.Accepted
import Vdb.Durable.Durability
import Vdb.Wal.Outage

/-!
# A database that is opened again

The constructor loads the snapshot and replays the log that it finds.  The snapshot is of the
records up to its lsn; of those behind it the log has a front.

* `Image` : what a snapshot is of.
* `Image.reopened` : the database is then what the records make that the constructor has found, and
  it gives out no id that one of them has given out.
-/

namespace Vdb

open Metadata Database

namespace Durable

open DurableVDB (applyRecord)

variable {ι δ : Type} [ColumnIndex ι] [Distance δ] {K : Kernels δ} {config : VDBConfig}

/-- The file of a snapshot, its lsn and the database that it is of: an empty one if there is no
file. -/
inductive IsImage (config : VDBConfig) : Option Bytes → ℕ → VDB ι → Prop
  | empty {db : VDB ι} : VDB.new config = .ok db → IsImage config none 0 db
  | saved {db : VDB ι} {lsn : ℕ} : lsn < 2 ^ 64 → db.SizesFit → db.Rebuilds →
    IsImage config (some (db.save lsn)) lsn db

/-- The snapshot is of the records up to its lsn, and those behind it give out ids that it has not
given out. -/
structure Image (config : VDBConfig) (log : List WalRecord) (next : ExternalId)
    (snapshot : Option Bytes) (lsn : ℕ) (db : VDB ι) : Prop where
  file : IsImage config snapshot lsn db
  rest : db.AtRest config
  logical : db.logical = replayed WalRecord.key (WalRecord.effect config.schema.length)
    (fun _ => none) (log.filter (·.lsn ≤ lsn))
  older : ∀ x ∈ (log.filter (·.lsn ≤ lsn)).filterMap WalRecord.minted, x < db.nextExtId
  newer : Minting db.nextExtId (log.filter (lsn < ·.lsn))
  next : db.nextExtId ≤ next

/-- What is known of the records that have been appended. -/
structure History (log : List WalRecord) (next : ExternalId) : Prop where
  ordered : (0 :: log.map WalRecord.lsn).Pairwise (· < ·)
  bools : ∀ r ∈ log, r.metadata.BoolsOk
  minting : Minting 0 log
  given : ∀ x ∈ log.filterMap WalRecord.minted, x < next

variable {log rs : List WalRecord} {next : ExternalId} {snapshot : Option Bytes} {lsn : ℕ}
  {db : VDB ι} {opts : Options} {walDir : Bytes} {files : Dir} {d : DurableVDB ι}
  {cs : List Content}

omit [ColumnIndex ι] [Distance δ]

theorem Minting.sublist {rs : List WalRecord} (h : Minting next log) (hs : rs.Sublist log) :
    Minting next rs :=
  ⟨h.1.sublist (hs.filterMap _), fun x hx => h.2 x ((hs.filterMap _).subset hx)⟩

/-- There is an id behind the last one. -/
theorem History.room (h : History log next) {r : WalRecord} (hr : r ∈ log) {x : ExternalId}
    (hx : x ∈ r.minted) : x + 1 < 2 ^ 64 :=
  (h.minting.2 x (List.mem_filterMap.2 ⟨r, hr, hx⟩)).2

/-- A log falls apart at an lsn. -/
theorem mem_split {x : ExternalId} (log : List WalRecord) (lsn : ℕ)
    (hx : x ∈ log.filterMap WalRecord.minted) :
    x ∈ (log.filter (·.lsn ≤ lsn)).filterMap WalRecord.minted ∨
      x ∈ (log.filter (lsn < ·.lsn)).filterMap WalRecord.minted := by
  obtain ⟨r, hr, hx⟩ := List.mem_filterMap.1 hx
  by_cases hle : r.lsn ≤ lsn
  · exact .inl (List.mem_filterMap.2 ⟨r, List.mem_filter.2 ⟨hr, decide_eq_true hle⟩, hx⟩)
  · exact .inr (List.mem_filterMap.2
      ⟨r, List.mem_filter.2 ⟨hr, decide_eq_true (Nat.lt_of_not_le hle)⟩, hx⟩)

variable [ColumnIndex ι]

/-- **The snapshot is loaded** as what it is of. -/
theorem IsImage.load (h : IsImage config snapshot lsn db) (hrest : db.AtRest config)
    (hdim : config.dim < 2 ^ 32) {db₀ db₁ : VDB ι} {lsn' : ℕ} (hnew : VDB.new config = .ok db₀)
    (hload : snapshot = none ∧ lsn' = 0 ∧ db₁ = db₀ ∨
      ∃ bytes rest, snapshot = some bytes ∧ db₀.load bytes = .ok ((lsn', db₁), rest)) :
    lsn' = lsn ∧ db₁.AtRest config ∧ db₁.nextExtId = db.nextExtId ∧ db₁.logical = db.logical := by
  cases h with
  | empty hdb =>
    rcases hload with ⟨-, rfl, rfl⟩ | ⟨bytes, rest, hnone, -⟩
    · obtain rfl : db = db₁ := Except.ok.inj (hdb.symm.trans hnew)
      exact ⟨rfl, hrest, rfl, rfl⟩
    · cases hnone
  | saved hlsn hfit hrebuilds =>
    rcases hload with ⟨hnone, -⟩ | ⟨bytes, rest, hsome, hbytes⟩
    · cases hnone
    · cases hsome
      obtain ⟨es, hes⟩ := hrest.holds
      obtain ⟨db', hread, hrestores, hes'⟩ := hes.load_save Column.reloads_ok
        (fun _ _ _ hc => hc) hnew hdim hlsn hfit hrebuilds
      have hbytes' := hread []
      rw [List.append_nil, hbytes] at hbytes'
      cases hbytes'
      refine ⟨rfl, ⟨⟨es, hes'⟩, ?_⟩, hrestores.nextExtId, hes.logical_same hes' fun _ _ _ hc => hc⟩
      rw [hrestores.intToExt, hrestores.nextExtId]
      exact hrest.ids

variable [Distance δ]

/-- **A database that is opened** on a snapshot, and on a front of the records behind it, is what
the records make up to where its log goes on. -/
theorem Image.reopened (himage : Image config log next snapshot lsn db) (hlog : History log next)
    (hdim : config.dim < 2 ^ 32)
    (hopen : DurableVDB.open K config opts walDir files snapshot = .ok d)
    (hfound : Wal.Found files (openerOf config) cs) (hfront : (leftOf cs).records <+: rs)
    (hsub : rs.Sublist log) (hnewer : rs.filter (lsn < ·.lsn) = log.filter (lsn < ·.lsn))
    (hfit : d.db.Fits) :
    d.db.AtRest config ∧ lsn < d.nextLsn ∧ d.snapshot = snapshot ∧
      d.db.logical = replayed WalRecord.key (WalRecord.effect config.schema.length) (fun _ => none)
        (log.filter (·.lsn < d.nextLsn)) ∧
      Image config (log.filter (·.lsn < d.nextLsn)) d.db.nextExtId snapshot lsn db ∧
      History (log.filter (·.lsn < d.nextLsn)) d.db.nextExtId ∧
      (leftOf cs).records.Sublist (log.filter (·.lsn < d.nextLsn)) ∧
      (leftOf cs).records.filter (lsn < ·.lsn) =
        (log.filter (·.lsn < d.nextLsn)).filter (lsn < ·.lsn) := by
  obtain ⟨db₀, db₁, db₂, wal, lsn', hnew, hload, hreopen, rfl⟩ := DurableVDB.open_parts hopen
  obtain ⟨hlsn, hrest, hnext, hlogical⟩ := himage.file.load himage.rest hdim hnew hload
  subst hlsn
  obtain ⟨-, hhigh, happlied⟩ := hfound.reopen_ok hreopen
  dsimp only at hfit ⊢
  set front := (leftOf cs).records with hfrontdef
  set last := max lsn' wal.highestLsn + 1 with hlast
  have hordered := hlog.ordered
  have hrs := prefix_eq_filter hfront (hordered.sublist ((hsub.map _).cons_cons 0))
  rw [← hhigh] at hrs
  -- what is left of the records behind the snapshot
  have hleft : front.filter (lsn' < ·.lsn) =
      (log.filter (·.lsn < last)).filter (lsn' < ·.lsn) := by
    have hcomm : (log.filter (·.lsn < last)).filter (lsn' < ·.lsn) =
        (rs.filter (lsn' < ·.lsn)).filter (·.lsn < last) := by
      rw [hnewer, List.filter_filter, List.filter_filter]
      exact List.filter_congr fun r _ => Bool.and_comm ..
    rw [hcomm, hrs, List.filter_filter, List.filter_filter]
    refine List.filter_congr fun r _ => ?_
    rw [← Bool.decide_and, ← Bool.decide_and, decide_eq_decide]
    omega
  have hkept : (log.filter (·.lsn < last)).filter (·.lsn ≤ lsn') = log.filter (·.lsn ≤ lsn') := by
    rw [List.filter_filter]
    refine List.filter_congr fun r _ => ?_
    rw [← Bool.decide_and, decide_eq_decide]
    omega
  have hfrontsub : front.Sublist (log.filter (·.lsn < last)) := by
    have hbelow : rs.filter (·.lsn ≤ wal.highestLsn) =
        (rs.filter (·.lsn ≤ wal.highestLsn)).filter (·.lsn < last) := by
      refine (List.filter_eq_self.2 fun r hr => ?_).symm
      have hle := of_decide_eq_true (List.mem_filter.1 hr).2
      exact decide_eq_true (by omega)
    rw [hrs, hbelow]
    exact (List.filter_sublist.trans hsub).filter _
  have hminting : Minting db₁.nextExtId (front.filter (lsn' < ·.lsn)) := by
    rw [hnext]
    refine himage.newer.sublist ?_
    rw [← hnewer]
    exact hfront.sublist.filter _
  obtain ⟨hrest₂, hle, hmem, hlogical₂⟩ := atRest_replay hrest
    (fun r hr => hlog.bools r (hsub.subset (hfront.subset hr))) hminting happlied hfit
  have hfilter : (log.filter (·.lsn < last)).Sublist log := List.filter_sublist
  have hpair : ((log.filter (·.lsn < last)).map WalRecord.lsn).Pairwise (· < ·) :=
    (List.pairwise_cons.1 (hordered.sublist ((hfilter.map _).cons_cons 0))).2
  refine ⟨hrest₂, by omega, rfl, ?_, ?_, ?_, hfrontsub, hleft⟩
  · funext x
    rw [hlogical₂, hlogical, himage.logical, hleft, ← hkept, ← replayed_append,
      filter_append_filter_lt hpair]
  · exact
    { file := himage.file
      rest := himage.rest
      logical := by rw [hkept, himage.logical]
      older := by
        rw [hkept]
        exact himage.older
      newer := himage.newer.sublist (hfilter.filter _)
      next := hnext ▸ hle }
  · exact
    { ordered := hordered.sublist ((hfilter.map _).cons_cons 0)
      bools := fun r hr => hlog.bools r (hfilter.subset hr)
      minting := hlog.minting.sublist hfilter
      given := fun x hx => by
        rcases mem_split _ lsn' hx with hx | hx
        · rw [hkept] at hx
          exact (himage.older x hx).trans_le (hnext ▸ hle)
        · rw [← hleft] at hx
          exact hmem x hx }

/-! ### Whether it can be opened -/

/-- A snapshot can be loaded. -/
theorem IsImage.loads (h : IsImage config snapshot lsn db) (hrest : db.AtRest config)
    (hdim : config.dim < 2 ^ 32) {db₀ : VDB ι} (hnew : VDB.new config = .ok db₀) :
    ∃ db₁, snapshot = none ∧ lsn = 0 ∧ db₁ = db₀ ∨
      ∃ bytes rest, snapshot = some bytes ∧ db₀.load bytes = .ok ((lsn, db₁), rest) := by
  cases h with
  | empty hdb => exact ⟨db₀, .inl ⟨rfl, rfl, rfl⟩⟩
  | saved hlsn hfit hrebuilds =>
    obtain ⟨es, hes⟩ := hrest.holds
    obtain ⟨db', hread, -⟩ := hes.load_save Column.reloads_ok (fun _ _ _ hc => hc) hnew hdim hlsn
      hfit hrebuilds
    have hbytes := hread []
    rw [List.append_nil] at hbytes
    exact ⟨db', .inr ⟨_, _, rfl, hbytes⟩⟩

/-- **A log that is replayed** has only records that pass behind the snapshot. -/
theorem Image.accepted (himage : Image config log next snapshot lsn db) (hlog : History log next)
    (hdim : config.dim < 2 ^ 32)
    (hopen : DurableVDB.open K config opts walDir files snapshot = .ok d)
    (hfound : Wal.Found files (openerOf config) cs) (hsub : (leftOf cs).records ⊆ log) :
    ∀ r ∈ (leftOf cs).records, lsn < r.lsn → r.Accepted config.schema := by
  obtain ⟨db₀, db₁, db₂, wal, lsn', hnew, hload, hreopen, rfl⟩ := DurableVDB.open_parts hopen
  obtain ⟨rfl, hrest, -, -⟩ := himage.file.load himage.rest hdim hnew hload
  obtain ⟨-, -, happlied⟩ := hfound.reopen_ok hreopen
  rw [applyAll_replayRecord] at happlied
  have hall := accepted_of_applyAll (fun r hr x hx => ?_) happlied
  · intro r hr hlt
    rw [hrest.schema] at hall
    refine WalRecord.accepted_carried.1 (hall _ (List.mem_map_of_mem ?_))
    exact List.mem_filter.2 ⟨hr, decide_eq_true hlt⟩
  · obtain ⟨q, hq, rfl⟩ := List.mem_map.1 hr
    exact hlog.room (hsub (List.mem_of_mem_filter hq)) hx

/-- **A log whose records pass** is replayed unless there is no room. -/
theorem Image.opens [BoundedColumnIndex ι] (himage : Image config log next snapshot lsn db)
    (hlog : History log next) (hdim : config.dim < 2 ^ 32) {db₀ : VDB ι}
    (hnew : VDB.new config = .ok db₀) (hfound : Wal.Found files (openerOf config) cs)
    (hsub : (leftOf cs).records ⊆ log)
    (haccepted : ∀ r ∈ (leftOf cs).records, lsn < r.lsn → r.Accepted config.schema) {e : Exn}
    (hopen : (DurableVDB.open K config opts walDir files snapshot : Except Exn (DurableVDB ι)) =
      .error e) : e.OutOfRoom := by
  obtain ⟨db₁, hload⟩ := himage.file.loads himage.rest hdim hnew
  obtain ⟨-, hrest, -, -⟩ := himage.file.load himage.rest hdim hnew hload
  obtain ⟨s, hreopen⟩ := DurableVDB.open_error hnew hload hopen
  obtain ⟨db₂, happlied⟩ := hfound.reopen_error hreopen
  rw [applyAll_replayRecord] at happlied
  have hroom : (applyAll (applyRecord K)
      (((leftOf cs).records.filter (lsn < ·.lsn)).map WalRecord.carried) db₁).ThrowsOnly
        Exn.OutOfRoom := by
    refine applyAll_throwsOnly (fun r hr x hx => ?_) fun r hr => ?_
    · obtain ⟨q, hq, rfl⟩ := List.mem_map.1 hr
      exact hlog.room (hsub (List.mem_of_mem_filter hq)) hx
    · obtain ⟨q, hq, rfl⟩ := List.mem_map.1 hr
      obtain ⟨hmem, hlt⟩ := List.mem_filter.1 hq
      rw [hrest.schema]
      exact WalRecord.accepted_carried.2 (haccepted q hmem (of_decide_eq_true hlt))
  rwa [happlied] at hroom

end Durable

end Vdb
