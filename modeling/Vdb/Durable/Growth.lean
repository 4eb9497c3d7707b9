import Vdb.Durable.Accepted
import Vdb.Durable.Cut
import Vdb.Durable.Reopen

/-!
# What a section adds

A section of a call gives out ids, saves a snapshot, or changes the log, one of them at a time.

* `Moves.gives` : the ids that it gives out have not been given out before.
* `Moves.follows` : it appends one record to the log, or takes segments away that the snapshot
  covers.
-/

namespace Vdb

namespace Durable

open Metadata Database

/-- The lsn of the snapshot that a checkpoint has saved. -/
def Pc.saved {δ : Type} : Pc δ → Option ℕ
  | .logCheckpoint _ lsn => some lsn
  | .capture (.checkpoint _ lsn) => some lsn
  | .fsync (.checkpoint _ lsn) _ _ => some lsn
  | .synced (.checkpoint _ lsn) _ => some lsn
  | .truncate _ lsn => some lsn
  | .creditCheckpoint _ lsn => some lsn
  | _ => none

/-- What an action gives out: ids that have not been given out before. -/
structure Gives {ι : Type} (db db' : VDB ι) (r : Option WalRecord) : Prop where
  le : db.nextExtId ≤ db'.nextExtId
  minted : ∀ q ∈ r, ∀ x ∈ q.minted,
    db.nextExtId ≤ x ∧ x < db'.nextExtId ∧ x + 1 < 2 ^ 64

section

variable {ι : Type} [ColumnIndex ι] {config : VDBConfig} {log : List WalRecord}
  {r : Option WalRecord} {db db' saved : VDB ι} {snapshot : Option Bytes} {lsn : ℕ}

omit [ColumnIndex ι] in
/-- The ids that are given out increase. -/
theorem Minting.after {next : ExternalId} (h : Minting next log) (hg : Gives db db' r)
    (hgiven : ∀ x ∈ log.filterMap WalRecord.minted, x < db.nextExtId) (hle : next ≤ db.nextExtId) :
    Minting next (log ++ r.toList) := by
  cases r with
  | none =>
    rw [Option.toList_none, List.append_nil]
    exact h
  | some q =>
    have hq := hg.minted q rfl
    rw [Option.toList_some]
    unfold Minting
    rw [List.filterMap_append]
    cases hm : q.minted with
    | none =>
      rw [List.filterMap_cons_none hm, List.filterMap_nil, List.append_nil]
      exact h
    | some y =>
      obtain ⟨hy, -, hroom⟩ := hq y hm
      rw [List.filterMap_cons_some hm, List.filterMap_nil]
      refine ⟨List.pairwise_append.2 ⟨h.1, List.pairwise_singleton .., fun x hx z hz => ?_⟩,
        fun x hx => ?_⟩
      · rw [List.mem_singleton.1 hz]
        exact (hgiven x hx).trans_le hy
      · rcases List.mem_append.1 hx with hx | hx
        · exact h.2 x hx
        · rw [List.mem_singleton.1 hx]
          exact ⟨hle.trans hy, hroom⟩

omit [ColumnIndex ι] in
theorem History.after (h : History log db.nextExtId) (hg : Gives db db' r)
    (hlsn : ∀ q ∈ r, 0 < q.lsn ∧ ∀ s ∈ log, s.lsn < q.lsn) (hbools : ∀ q ∈ r, q.metadata.BoolsOk) :
    History (log ++ r.toList) db'.nextExtId where
  ordered := by
    rw [List.map_append, ← List.cons_append]
    refine List.pairwise_append.2 ⟨h.ordered, by cases r <;> simp, fun m hm n hn => ?_⟩
    obtain ⟨q, hq, rfl⟩ := List.mem_map.1 hn
    obtain ⟨hpos, hlt⟩ := hlsn q (Option.mem_toList.1 hq)
    rcases List.mem_cons.1 hm with rfl | hm
    · exact hpos
    · obtain ⟨s, hs, rfl⟩ := List.mem_map.1 hm
      exact hlt s hs
  bools q hq := (List.mem_append.1 hq).elim (h.bools q) fun hq =>
    hbools q (Option.mem_toList.1 hq)
  minting := h.minting.after hg h.given (Nat.zero_le _)
  given x hx := by
    rw [List.filterMap_append, List.mem_append] at hx
    rcases hx with hx | hx
    · exact (h.given x hx).trans_le hg.le
    · obtain ⟨q, hq, hx⟩ := List.mem_filterMap.1 hx
      exact (hg.minted q (Option.mem_toList.1 hq) x hx).2.1

/-- Records behind a snapshot leave it as it is. -/
theorem Image.after (h : Image config log db.nextExtId snapshot lsn saved)
    (hlog : History log db.nextExtId) (hg : Gives db db' r) (hlsn : ∀ q ∈ r, lsn < q.lsn) :
    Image config (log ++ r.toList) db'.nextExtId snapshot lsn saved := by
  have hold : (log ++ r.toList).filter (·.lsn ≤ lsn) = log.filter (·.lsn ≤ lsn) := by
    rw [List.filter_append, (List.filter_eq_nil_iff (l := r.toList)).2, List.append_nil]
    intro q hq
    simpa using hlsn q (Option.mem_toList.1 hq)
  have hnew : (log ++ r.toList).filter (lsn < ·.lsn) = log.filter (lsn < ·.lsn) ++ r.toList := by
    rw [List.filter_append, (List.filter_eq_self (l := r.toList)).2]
    exact fun q hq => decide_eq_true (hlsn q (Option.mem_toList.1 hq))
  exact
  { file := h.file
    rest := h.rest
    logical := by rw [hold, h.logical]
    older := by
      rw [hold]
      exact h.older
    newer := by
      rw [hnew]
      refine h.newer.after hg (fun x hx => ?_) h.next
      exact hlog.given x ((List.filter_sublist.filterMap _).subset hx)
    next := h.next.trans hg.le }

/-- A snapshot of a database to which all records have been applied. -/
theorem image_saved (hrest : db.AtRest config) (hlog : History log db.nextExtId)
    (hlast : ∀ q ∈ log, q.lsn ≤ lsn) (hlsn : lsn < 2 ^ 64) (hfit : db.SizesFit)
    (hrebuilds : db.Rebuilds) (hlogical : db.logical = replayed WalRecord.key
      (WalRecord.effect config.schema.length) (fun _ => none) log) :
    Image config log db.nextExtId (some (db.save lsn)) lsn db := by
  have hall : log.filter (·.lsn ≤ lsn) = log :=
    List.filter_eq_self.2 fun q hq => decide_eq_true (hlast q hq)
  have hnone : log.filter (lsn < ·.lsn) = [] :=
    List.filter_eq_nil_iff.2 fun q hq => by simpa using hlast q hq
  exact
  { file := .saved hlsn hfit hrebuilds
    rest := hrest
    logical := by rw [hall, hlogical]
    older := by
      rw [hall]
      exact hlog.given
    newer := by
      rw [hnone]
      exact ⟨.nil, nofun⟩
    next := le_rfl }

end

namespace DurableVDB

variable {ι δ : Type} [ColumnIndex ι] [Distance δ] {K : Kernels δ} {config : VDBConfig}
  {base : Logical} {d d' : DurableVDB ι} {w : Bool} {env : Env} {pc pc' : Pc δ}
  {r : Option WalRecord} {e : Exn} {log : List WalRecord} {rest : List (Task δ)} {o : Opener}
  {l : Log}
  {db : VDB ι} {m : Mutation} {req : Request}

omit [ColumnIndex ι] [Distance δ] in
theorem nextExtId_reserved (db : VDB ι) (hnext : db.nextExtId + 1 < 2 ^ 64) (req : Request) :
    db.nextExtId ≤ (req.reserved db).nextExtId := by
  cases req with
  | insert vec rec =>
    dsimp only [Request.reserved, VDB.reserveId]
    rw [Nat.mod_eq_of_lt hnext]
    exact Nat.le_succ _
  | _ => exact le_rfl

omit [Distance δ] in
theorem alike_applyStart (d : DurableVDB ι) (m : Mutation) :
    d.db.Alike (d.applyStart (δ := δ) m).state.db := by
  cases m with
  | insert ext vec rec =>
    dsimp only [applyStart]
    split <;> exact ⟨rfl, rfl⟩
  | remove ext =>
    rw [applyStart, Outcome.state_andThen_ok, Outcome.state_mapState]
    exact VDB.alike_remove d.db
  | update ext vec rec =>
    dsimp only [applyStart]
    split <;> exact ⟨rfl, rfl⟩
  | setMetadata ext rec =>
    rw [applyStart, Outcome.state_andThen_ok, Outcome.state_mapState]
    exact VDB.alike_setMetadata d.db

/-- The next section of a call, of which an insert has an id that has been given out. -/
theorem alike_applyNext (d : DurableVDB ι) (ext : ExternalId) (call : Call δ)
    (hext : ∀ vec rec, call = .inserting vec rec → ext < d.db.nextExtId) :
    d.db.Alike (d.applyNext K ext call).state.db := by
  cases call with
  | inserting vec rec =>
    rw [applyNext, Outcome.state_andThen_ok, Outcome.state_mapState]
    exact VDB.alike_insertAllocate d.db (hext vec rec rfl)
  | updating vec rec =>
    rw [applyNext, Outcome.state_andThen_ok, Outcome.state_mapState]
    exact VDB.alike_updateAllocate d.db rec
  | insertLinking vec rec iid pc =>
    cases pc with
    | done =>
      rw [applyNext, Outcome.state_andThen_ok, Outcome.state_mapState]
      exact VDB.alike_insertPublish d.db
    | _ => exact ⟨rfl, rfl⟩
  | updateLinking vec rec old iid pc =>
    cases pc with
    | done =>
      rw [applyNext, Outcome.state_andThen_ok, Outcome.state_mapState]
      exact VDB.alike_updatePublish d.db
    | _ => exact ⟨rfl, rfl⟩

omit [ColumnIndex ι] [Distance δ] in
/-- A section that gives nothing out. -/
theorem gives_none {db db' : VDB ι} (h : db.nextExtId ≤ db'.nextExtId) : Gives db db' none :=
  ⟨h, nofun⟩

/-- **A section that returns** gives out new ids only. -/
theorem Moves.gives (hm : d.Moves K w env pc pc' d' r) (hnext : d.db.nextExtId + 1 < 2 ^ 64)
    (hext : ∀ job vec rec, pc = .applying job (.inserting vec rec) →
      job.mutation.ext < d.db.nextExtId) :
    Gives d.db d'.db r := by
  cases hm with
  | logs req job wal ops hw hmut hlsn happ =>
    refine ⟨nextExtId_reserved d.db hnext req, fun q hq x hx => ?_⟩
    obtain rfl := Option.some.inj hq
    cases req with
    | insert vec rec =>
      -- only an insert gives out an id, the one it has reserved
      rw [← Option.some.inj hmut] at hx
      obtain rfl := Option.some.inj hx
      refine ⟨le_rfl, ?_, hnext⟩
      dsimp only [Request.reserved, VDB.reserveId]
      rw [Nat.mod_eq_of_lt hnext]
      exact Nat.lt_succ_self _
    | remove ext =>
      rw [← Option.some.inj hmut] at hx
      cases hx
    | update ext vec rec =>
      obtain ⟨effective, -, hmut⟩ := Option.map_eq_some_iff.1 hmut
      rw [← hmut] at hx
      cases hx
    | setMetadata ext rec =>
      rw [← Option.some.inj hmut] at hx
      cases hx
  | applies job call db happ =>
    have halike := alike_applyStart (δ := δ) d job.mutation
    rw [happ] at halike
    exact gives_none halike.nextExtId.ge
  | continues job call next db happ =>
    have halike := alike_applyNext (K := K) d job.mutation.ext call fun vec rec hcall =>
      hext job vec rec (hcall ▸ rfl)
    rw [happ] at halike
    exact gives_none halike.nextExtId.ge
  | logsCheckpoint reply lsn wal happ =>
    refine ⟨le_rfl, fun q hq x hx => ?_⟩
    obtain rfl := Option.some.inj hq
    cases hx
  | _ => exact gives_none le_rfl

theorem Throws.gives (ht : d.Throws K w env pc e d') (hnext : d.db.nextExtId + 1 < 2 ^ 64)
    (hext : ∀ job vec rec, pc = .applying job (.inserting vec rec) →
      job.mutation.ext < d.db.nextExtId) :
    Gives d.db d'.db none := by
  cases ht with
  | log req e m wal hw hmut hwal => exact gives_none (nextExtId_reserved d.db hnext req)
  | apply job e db happ =>
    have halike := alike_applyStart (δ := δ) d job.mutation
    rw [happ] at halike
    exact gives_none halike.nextExtId.ge
  | next job call e db happ =>
    have halike := alike_applyNext (K := K) d job.mutation.ext call fun vec rec hcall =>
      hext job vec rec (hcall ▸ rfl)
    rw [happ] at halike
    exact gives_none halike.nextExtId.ge
  | save reply e replaced => exact gives_none (by split_ifs <;> exact le_rfl)
  | _ => exact gives_none le_rfl

/-- What a section does to the snapshot. -/
theorem Moves.saved (hm : d.Moves K w env pc pc' d' r) :
    (d'.snapshot = d.snapshot ∧ ∀ n ∈ pc'.saved, n ∈ pc.saved) ∨
      (∃ reply, pc = .save reply) ∧ d'.snapshot = some (d.db.save (d.nextLsn - 1)) ∧ d'.db = d.db ∧
        r = none ∧ ∀ n ∈ pc'.saved, n = d.nextLsn - 1 := by
  have hplain : ∀ d₁ : DurableVDB ι, d₁.snapshot = d.snapshot → pc'.saved = none →
      (d₁.snapshot = d.snapshot ∧ ∀ n ∈ pc'.saved, n ∈ pc.saved) := fun d₁ hs hnone =>
    ⟨hs, by rw [hnone]; exact nofun⟩
  cases hm with
  | stays => exact .inl ⟨rfl, fun n hn => hn⟩
  | logs req job wal ops hw hmut hlsn happ =>
    refine .inl (hplain _ rfl ?_)
    unfold DurableVDB.behindPrefix
    split <;> rfl
  | captures p name hfd => exact .inl ⟨rfl, by cases p <;> exact fun n hn => hn⟩
  | syncs p name target hsync => exact .inl ⟨rfl, by cases p <;> exact fun n hn => hn⟩
  | checkpointSynced reply lsn target => exact .inl ⟨rfl, fun n hn => hn⟩
  | applies job call db happ =>
    refine .inl (hplain _ rfl ?_)
    cases call with
    | none =>
      rw [Option.elim_none]
      unfold DurableVDB.behindApply
      split <;> rfl
    | some call => rfl
  | continues job call next db happ =>
    refine .inl (hplain _ rfl ?_)
    cases next with
    | none =>
      rw [Option.elim_none]
      unfold DurableVDB.behindApply
      split <;> rfl
    | some call => rfl
  | finishes job => exact .inl (hplain _ rfl (by split_ifs <;> rfl))
  | saves reply => exact .inr ⟨⟨reply, rfl⟩, rfl, rfl, rfl, fun n hn => (Option.some.inj hn).symm⟩
  | logsCheckpoint reply lsn wal happ => exact .inl ⟨rfl, fun n hn => hn⟩
  | truncates reply lsn wal happ => exact .inl ⟨rfl, fun n hn => hn⟩
  | _ => exact .inl (hplain _ rfl rfl)

theorem Throws.saved (ht : d.Throws K w env pc e d') : d'.snapshot = d.snapshot ∨
    (∃ reply, pc = .save reply) ∧ d'.snapshot = some (d.db.save (d.nextLsn - 1)) ∧
      d'.db = d.db := by
  cases ht with
  | save reply e replaced =>
    split_ifs
    · exact .inr ⟨⟨reply, rfl⟩, rfl, rfl⟩
    · exact .inl rfl
  | _ => exact .inl rfl

/-- What a section does to a log whose appends succeed. -/
theorem Moves.follows (hm : d.Moves K w env pc pc' d' r) (h : d.wal.Holds o l) (hi : l.Intact)
    (hpwrite : env.pwrite = none) (hfit : ∀ q ∈ r, q.Fits) (hroom : d.wal.nextNumber < 10 ^ 12)
    {upto : ℕ} (hupto : ∀ n ∈ pc.saved, n ≤ upto) :
    ∃ l', d'.wal.Holds o l' ∧ Wal.Follows l l' d'.wal r upto := by
  cases hm with
  | logs req job wal ops hw hmut hlsn happ =>
    rw [hpwrite] at happ
    exact h.follows_append hi (hfit _ rfl) hroom happ upto
  | logsCheckpoint reply lsn wal happ =>
    rw [hpwrite] at happ
    exact h.follows_append hi (hfit _ rfl) hroom happ upto
  | syncs p name target hsync => exact h.follows_sync hi name upto
  | truncates reply lsn wal happ =>
    obtain ⟨l', hl', hf⟩ := h.follows_truncate hi happ
    exact ⟨l', hl', hf.mono (hupto lsn rfl)⟩
  | _ => exact ⟨l, h, Wal.follows_refl hi _ upto⟩

theorem Throws.follows (ht : d.Throws K w env pc e d') (h : d.wal.Holds o l) (hi : l.Intact)
    (hpwrite : env.pwrite = none) (hroom : d.wal.nextNumber < 10 ^ 12) (upto : ℕ) :
    ∃ l', d'.wal.Holds o l' ∧ Wal.Follows l l' d'.wal none upto := by
  have hsame : ∀ {wal : Wal} {q : WalRecord}, wal = d.wal ∨
    d.wal.append q env.pwrite = .error e wal →
      ∃ l', wal.Holds o l' ∧ Wal.Follows l l' wal none upto := by
    rintro wal q (rfl | happ)
    · exact ⟨l, h, Wal.follows_refl hi _ upto⟩
    · rw [hpwrite] at happ
      exact absurd happ (h.append_returns hroom q e wal)
  cases ht with
  | log req e m wal hw hmut hwal => exact hsame hwal
  | logCheckpoint reply lsn e wal hwal => exact hsame hwal
  | save reply e replaced =>
    split_ifs
    · exact ⟨l, h, Wal.follows_refl hi _ upto⟩
    · exact ⟨l, h, Wal.follows_refl hi _ upto⟩
  | truncate reply lsn e wal htrunc =>
    obtain ⟨wal', hwal, -⟩ := h.truncate lsn
    rw [hwal] at htrunc
    cases htrunc
  | _ => exact ⟨l, h, Wal.follows_refl hi _ upto⟩

end DurableVDB

end Durable

end Vdb
