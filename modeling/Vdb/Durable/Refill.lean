import Vdb.Durable.Rebuilt
import Vdb.Durable.Rows

/-!
# Room behind a snapshot

A process that opens the files loads the snapshot and replays the records behind it.  The database
that the calls work on has had room for the rows of these, and for those that have been found when
it was opened there was room then.

* `Refills` : what loading and a replay would make of the snapshot and the log at any time.
* `Ample.act` : there is always room for it, and the records pass.
* `opens_of_refills` : a process can open the files, unless the index of a column throws.
* `Booted.step` : what is asked of the database when the calls begin holds of any that is opened.
-/

namespace Vdb

namespace Durable

open Metadata Database
open DurableVDB (applyRecord)

variable {ι δ : Type} [ColumnIndex ι] [Distance δ] {K : Kernels δ} {config : VDBConfig}

namespace Chronicle

variable {c c' : Chronicle ι δ} {a : Action}

variable (config c') in
omit [Distance δ] in
/-- What is loaded comes from the file of the snapshot. -/
theorem restored_congr (h : c'.system.durable.snapshot = c.system.durable.snapshot) :
    c'.restored config = c.restored config ∧ c'.snapshotLsn config = c.snapshotLsn config := by
  unfold restored snapshotLsn
  cases (VDB.new config : Except Exn (VDB ι)) with
  | error e => exact ⟨rfl, rfl⟩
  | ok db =>
    dsimp only
    unfold DurableVDB.loadSnapshot DurableVDB.withDb
    dsimp only
    rw [h]
    cases c.system.durable.snapshot with
    | none => exact ⟨rfl, rfl⟩
    | some bytes =>
      dsimp only
      cases db.load bytes with
      | error e => exact ⟨rfl, rfl⟩
      | ok p => exact ⟨rfl, rfl⟩

/-- The log behind the snapshot: records that a process has found when it has opened the files, and
those of the calls since then.  A replay of the former has given a database with no more rows than
leave room for the latter. -/
structure Refills (K : Kernels δ) (config : VDBConfig) (base : ℕ) (c : Chronicle ι δ)
    (old new : List WalRecord) (db₀ db₁ : VDB ι) : Prop where
  restored : c.restored config = some db₀
  behind : c.behind config = old ++ new
  replays : applyAll (applyRecord K) (old.map WalRecord.carried) db₀ = .ok () db₁
  kept : db₁.Kept config
  schema : db₁.metadata.schema = config.schema
  durable : ∀ r ∈ old, r.lsn ≤ c.system.durable.durableLsn
  since : ∀ r ∈ new, base ≤ r.lsn
  rows : db₁.intToExt.length + new.countP WalRecord.adds ≤
    c.system.durable.db.intToExt.length + c.system.calls.countP Pc.owes

/-- What holds between the sections of calls one at a time, since the next record was to have the
lsn `base`. -/
structure Ample (K : Kernels δ) (config : VDBConfig) (base : ℕ) (c : Chronicle ι δ) : Prop where
  nextLsn : base ≤ c.system.durable.nextLsn
  room : c.system.durable.db.intToExt.length ≤ config.kind.capacity
  replaces : ∀ pc ∈ c.system.calls, ∀ x ∈ pc.replaces, c.system.durable.db.contains x = true
  accepted : ∀ r ∈ c.log, base ≤ r.lsn → r.Accepted config.schema ∨
    ∃ pc ∈ c.system.calls, ∃ job ∈ pc.ahead, job.mutation.toRecord job.lsn = r
  refills : ∃ old new db₀ db₁, c.Refills K config base old new db₀ db₁

omit [ColumnIndex ι] [Distance δ] in
theorem inProgress_of_replaces {pc : Pc δ} {x : ExternalId} (h : pc.replaces = some x) :
    pc.InProgress := by
  cases pc with
  | returned | threw => cases h
  | _ => trivial

omit [Distance δ] in
theorem kept_of_backed (hb : Backed config c)
    (hroom : c.system.durable.db.intToExt.length ≤ config.kind.capacity) :
    c.system.durable.db.Kept config := by
  obtain ⟨sys, es, hdb, hheld, -⟩ := hb.ok.ledger.held
  exact VDB.kept_of_holds (hdb ▸ hheld.holds) hroom

omit [Distance δ] in
/-- The snapshot is older than what is logged next. -/
theorem snapshotLsn_lt (hb : Backed config c) (hdim : config.dim < 2 ^ 32) {db₀ : VDB ι}
    (hnew : VDB.new config = .ok db₀) : c.snapshotLsn config < c.system.durable.nextLsn := by
  obtain ⟨lsn, db, t, l, -, -, himage, hlt, -⟩ := hb.stored.disk
  rw [snapshotLsn_eq hnew hdim himage.file himage.rest]
  exact hlt

omit [Distance δ] in
/-- A checkpoint saves the database as it is. -/
theorem restored_saved (c' : Chronicle ι δ) {db₀ : VDB ι} (hb : Backed config c)
    (hdim : config.dim < 2 ^ 32) (hnew : VDB.new config = .ok db₀) (hsaves : c.system.Saves a)
    (hw : c.system.Writable a)
    (hsaved : c'.system.durable.snapshot =
      some (c.system.durable.db.save (c.system.durable.nextLsn - 1))) :
    ∃ db₁, c'.restored config = some db₁ ∧ db₁.AtRest config ∧
      c'.snapshotLsn config = c.system.durable.nextLsn - 1 ∧
        db₁.intToExt = c.system.durable.db.intToExt := by
  obtain ⟨hroom, hsizes, hrebuilds⟩ := hw.saves hsaves
  obtain ⟨hrest, -⟩ := hb.ok.saves hsaves
  have hlsn : c.system.durable.nextLsn - 1 < 2 ^ 64 := by
    have hpositive := hb.stored.positive
    omega
  obtain ⟨es, hes⟩ := hrest.holds
  obtain ⟨db₁, hread, -, hheld⟩ := hes.load_save Column.reloads_ok (fun _ _ _ hc => hc) hnew hdim
    hlsn hsizes hrebuilds
  have hbytes := hread []
  rw [List.append_nil] at hbytes
  have himage : IsImage config (some (c.system.durable.db.save (c.system.durable.nextLsn - 1)))
      (c.system.durable.nextLsn - 1) c.system.durable.db := .saved hlsn hsizes hrebuilds
  obtain ⟨-, hrest₁, -⟩ := himage.load hrest hdim hnew (.inr ⟨_, _, rfl, hbytes⟩)
  refine ⟨db₁, restored_eq hnew (.inr ⟨_, _, hsaved, hbytes⟩), hrest₁,
    snapshotLsn_eq hnew hdim (hsaved ▸ himage) hrest, ?_⟩
  rw [hheld.ids, hes.ids]

variable {old new : List WalRecord} {db₀ db₁ : VDB ι} {base : ℕ}

/-- Rows and records that are added on a snapshot. -/
theorem Refills.after (h : c.Refills K config base old new db₀ db₁) {r : Option WalRecord}
    (hlog : c'.log = c.log ++ r.toList)
    (hsnapshot : c'.system.durable.snapshot = c.system.durable.snapshot)
    (hlsn : ∀ q ∈ r, c.snapshotLsn config < q.lsn ∧ base ≤ q.lsn)
    (hdurable : c.system.durable.durableLsn ≤ c'.system.durable.durableLsn)
    (hrows : c.system.durable.db.intToExt.length + c.system.calls.countP Pc.owes +
      (r.any WalRecord.adds).toNat ≤
        c'.system.durable.db.intToExt.length + c'.system.calls.countP Pc.owes) :
    c'.Refills K config base old (new ++ r.toList) db₀ db₁ := by
  obtain ⟨hrestored, hsnap⟩ := restored_congr config c' hsnapshot
  refine ⟨hrestored.trans h.restored, ?_, h.replays, h.kept, h.schema,
    fun q hq => (h.durable q hq).trans hdurable, fun q hq => ?_, ?_⟩
  · have hadded : r.toList.filter (c.snapshotLsn config < ·.lsn) = r.toList :=
      List.filter_eq_self.2 fun q hq => decide_eq_true (hlsn q (Option.mem_toList.1 hq)).1
    have hold : c.log.filter (c.snapshotLsn config < ·.lsn) = old ++ new := h.behind
    rw [Chronicle.behind, hlog, hsnap, List.filter_append, hadded, hold, List.append_assoc]
  · rcases List.mem_append.1 hq with hq | hq
    · exact h.since q hq
    · exact (hlsn q (Option.mem_toList.1 hq)).2
  · have hcount : r.toList.countP WalRecord.adds = (r.any WalRecord.adds).toNat := by
      cases r with
      | none => rfl
      | some q =>
        rw [Option.toList_some, List.countP_singleton, Option.any_some]
        cases q.adds <;> rfl
    have hle := h.rows
    rw [List.countP_append, hcount]
    omega

/-- What is saved has every record. -/
theorem refills_saved (c' : Chronicle ι δ) (hb : Backed config c) (hdim : config.dim < 2 ^ 32)
    (hnew : VDB.new config = .ok db₀) (hsaves : c.system.Saves a) (hw : c.system.Writable a)
    (hroom : c.system.durable.db.intToExt.length ≤ config.kind.capacity)
    (hsaved : c'.system.durable.snapshot =
      some (c.system.durable.db.save (c.system.durable.nextLsn - 1)))
    (hlog : c'.log = c.log) (hdb : c'.system.durable.db = c.system.durable.db) :
    ∃ db, c'.Refills K config base [] [] db db := by
  obtain ⟨db, hrestored, hrest, hsnap, hids⟩ := restored_saved c' hb hdim hnew hsaves hw hsaved
  obtain ⟨es, hes⟩ := hrest.holds
  refine ⟨db, hrestored, ?_, rfl, VDB.kept_of_holds hes (hids ▸ hroom), hrest.schema, nofun, nofun,
    ?_⟩
  · rw [behind, hsnap, hlog]
    refine List.filter_eq_nil_iff.2 fun q hq => ?_
    have hbelow := hb.stored.below q hq
    simpa using Nat.le_sub_one_of_lt hbelow
  · rw [hids, hdb]
    exact Nat.le_add_right ..

/-- A call starts. -/
theorem Ample.starts (h : c.Ample K config base) {pc : Pc δ} (howes : pc.owes = false)
    (hnone : pc.replaces = none) : Ample K config base
      ⟨⟨c.system.durable, c.system.calls ++ [pc]⟩, c.log ++ (none : Option WalRecord).toList⟩ := by
  obtain ⟨hbase, hroom, hreplaces, haccepted, old, new, db₀, db₁, hrefills⟩ := h
  refine ⟨hbase, hroom, fun q hq x hx => ?_, fun q hq hlsn => ?_, old, new ++ [], db₀, db₁, ?_⟩
  · rcases List.mem_append.1 hq with hq | hq
    · exact hreplaces q hq x hx
    · rw [List.mem_singleton.1 hq, hnone] at hx
      cases hx
  · rw [Option.toList_none, List.append_nil] at hq
    exact (haccepted q hq hlsn).imp_right fun ⟨pc, hpc, hjob⟩ =>
      ⟨pc, List.mem_append_left _ hpc, hjob⟩
  · refine hrefills.after (r := none) rfl rfl nofun le_rfl ?_
    dsimp only
    rw [List.countP_append, List.countP_singleton, howes]
    exact le_rfl

/-- A section of the call in progress that returns. -/
theorem Ample.moves (h : c.Ample K config base) (hb : Backed config c) (hdim : config.dim < 2 ^ 32)
    (hnew : VDB.new config = .ok db₀) (hsolo : c.system.Solo)
    (hlook : ∀ req ext, .lookUp req ext ∈ c.system.calls → req.looksUp = some ext) {i : ℕ}
    {env : Env} {pc pc' : Pc δ} {d' : DurableVDB ι} {r : Option WalRecord}
    (hi : c.system.calls[i]? = some pc) (hpc : pc.InProgress)
    (hw : c.system.Writable (.run i env))
    (hm : c.system.durable.Moves K c.system.writing env pc pc' d' r) :
    Ample K config base ⟨⟨d', c.system.calls.set i pc'⟩, c.log ++ r.toList⟩ := by
  obtain ⟨hbase, hroom, hreplaces, haccepted, old, new, db₁, db₂, hrefills⟩ := h
  have hmem := List.mem_of_getElem? hi
  have hthere : pc' ∈ c.system.calls.set i pc' :=
    List.mem_set (List.getElem?_eq_some_iff.1 hi).1 _
  have hadds := hm.adds (fun req ext hlookUp => hlook req ext (hlookUp ▸ hmem)) (hreplaces pc hmem)
  have hcount := countP_set_toNat Pc.owes pc' hi
  have hchecks := hm.checks
  have hschema := schema_of_backed hb
  refine ⟨hbase.trans hm.steps.nextLsn, hm.room (kept_of_backed hb hroom),
    fun q hq x hx => hadds.replaces x ?_, fun q hq hlsn => ?_, ?_⟩
  · -- no other call replaces a row
    have honly := hsolo.filterMap_set (fun _ _ => inProgress_of_replaces) hi hpc pc'
    have hx : x ∈ (c.system.calls.set i pc').filterMap Pc.replaces :=
      List.mem_filterMap.2 ⟨q, hq, hx⟩
    rw [honly] at hx
    exact Option.mem_toList.1 hx
  · rcases List.mem_append.1 hq with hq | hq
    -- a record of this call has passed, or the call has yet to apply it
    · rcases haccepted q hq hlsn with hpassed | ⟨p, hp, job, hjob, hrec⟩
      · exact .inl hpassed
      · by_cases hne : p = pc
        · subst hne
          rcases hchecks.ahead job hjob with hpassed | hjob
          · exact .inl (hrec ▸ hschema ▸ hpassed)
          · exact .inr ⟨pc', hthere, job, hjob, hrec⟩
        · exact .inr ⟨p, mem_set_of_ne pc' hi hp hne, job, hjob, hrec⟩
    · rcases hchecks.logged q (Option.mem_toList.1 hq) with hpassed | ⟨job, hjob, hrec⟩
      · exact .inl (hschema ▸ hpassed)
      · exact .inr ⟨pc', hthere, job, hjob, hrec⟩
  · rcases hm.saved with ⟨hsame, -⟩ | ⟨⟨reply, rfl⟩, hsaved, hdb, rfl, -⟩
    · refine ⟨old, new ++ r.toList, db₁, db₂, hrefills.after rfl hsame (fun q hq => ?_)
        hm.awaits.durableLsn ?_⟩
      · rw [(hm.steps.logged q hq).1]
        exact ⟨snapshotLsn_lt hb hdim hnew, hbase⟩
      · have hrows := hadds.rows
        dsimp only
        omega
    · obtain ⟨db, hsnapshot⟩ := refills_saved (K := K)
        ⟨⟨d', c.system.calls.set i _⟩, _⟩ hb hdim hnew
          (System.saves_iff.2 ⟨reply, hi⟩) hw hroom hsaved
        (List.append_nil c.log) hdb
      exact ⟨[], [], db, db, hsnapshot⟩

/-- **One action** of calls one at a time. -/
theorem Ample.act (h : c.Ample K config base) (hb : Backed config c) (hdim : config.dim < 2 ^ 32)
    (hnew : VDB.new config = .ok db₀) (hsolo : c.system.Solo)
    (hlook : ∀ req ext, .lookUp req ext ∈ c.system.calls → req.looksUp = some ext)
    (ha : c.system.GoesOn K a) : (c.act K a).Ample K config base := by
  have hreturns := ha.returns
  unfold Chronicle.act
  cases a with
  | invoke req => exact h.starts (by cases req <;> rfl) (by cases req <;> rfl)
  | checkpoint => exact h.starts rfl rfl
  | sync => exact h.starts rfl rfl
  | run i env =>
    have hran := c.system.act_ran K i env
    generalize c.system.act K (.run i env) = s', c.system.logged (.run i env) = r at hran hreturns ⊢
    cases hran with
    | idles =>
      rw [Option.toList_none, List.append_nil]
      exact h
    | throws pc e d' hi ht =>
      exact absurd ⟨e, List.mem_set (List.getElem?_eq_some_iff.1 hi).1 _⟩ hreturns
    | moves pc pc' d' r hi hm =>
      by_cases hpc : pc.InProgress
      · exact h.moves hb hdim hnew hsolo hlook hi hpc ha.turn.writable hm
      · obtain ⟨rfl, rfl, rfl⟩ := System.ended_of_moves hm hpc
        obtain ⟨hlt, hget⟩ := List.getElem?_eq_some_iff.1 hi
        rw [Option.toList_none, List.append_nil, ← hget, List.set_getElem_self hlt]
        exact h

/-- The rows, with those that calls owe. -/
def weight (c : Chronicle ι δ) : ℕ :=
  c.system.durable.db.intToExt.length + c.system.calls.countP Pc.owes

omit [ColumnIndex ι] [Distance δ] in
theorem inProgress_of_owes {pc : Pc δ} (h : pc.owes = true) : pc.InProgress := by
  cases pc with
  | returned | threw => cases h
  | _ => trivial

omit [ColumnIndex ι] [Distance δ] in
/-- When all calls have ended, none owes a row. -/
theorem weight_idle (hidle : c.Idle) : c.weight = c.system.durable.db.intToExt.length := by
  have hzero : c.system.calls.countP Pc.owes = 0 :=
    List.countP_eq_zero.2 fun pc hpc howes => hidle pc hpc (inProgress_of_owes howes)
  rw [weight, hzero, Nat.add_zero]

/-- Rows are owed before they are added, and none is taken away. -/
theorem weight_act (h : c.Ample K config base)
    (hlook : ∀ req ext, .lookUp req ext ∈ c.system.calls → req.looksUp = some ext)
    (hreturns : ¬ (c.system.act K a).Thrown) : c.weight ≤ (c.act K a).weight := by
  unfold Chronicle.act weight
  dsimp only
  cases a with
  | run i env =>
    have hran := c.system.act_ran K i env
    generalize c.system.act K (.run i env) = s', c.system.logged (.run i env) = r at hran hreturns ⊢
    cases hran with
    | idles => exact le_rfl
    | throws pc e d' hi ht =>
      exact absurd ⟨e, List.mem_set (List.getElem?_eq_some_iff.1 hi).1 _⟩ hreturns
    | moves pc pc' d' r hi hm =>
      have hmem := List.mem_of_getElem? hi
      have hadds := (hm.adds (fun req ext hlookUp => hlook req ext (hlookUp ▸ hmem))
        (h.replaces pc hmem)).rows
      have hcount := countP_set_toNat Pc.owes pc' hi
      dsimp only
      omega
  | _ =>
    refine Nat.add_le_add_left ?_ _
    dsimp only [System.act]
    rw [List.countP_append]
    exact Nat.le_add_right ..

/-- **A process opens the files** of a log whose records pass behind the snapshot, with room for
their rows, unless the index of a column throws. -/
theorem opens_of_refills {walDir : Bytes} (h : c.Refills K config base old new db₀ db₁)
    (hstored : Stored config c') (hdim : config.dim < 2 ^ 32) (hivf : config.kind ≠ .ivf)
    {db : VDB ι} (hnew : VDB.new config = .ok db) (hlog : c'.log = c.log)
    (hsnapshot : c'.system.durable.snapshot = c.system.durable.snapshot)
    (hdurable : c'.system.durable.durableLsn = c.system.durable.durableLsn)
    (hroom : c.weight ≤ config.kind.capacity) (haccepted : ∀ r ∈ new, r.Accepted config.schema)
    {kept : Bytes → ℕ} {opts : Options} {e : Exn}
    (hopen : c'.reopened K config walDir kept opts = .error e) : IndexThrows ι e := by
  -- what a process loads, and the records that it finds
  obtain ⟨lsn, saved, cs, rs, himage, hfound, -, -, hfront, hsub, hnewer, hthrough, -⟩ :=
    hstored.outage kept
  obtain ⟨loaded, hload⟩ := himage.file.loads himage.rest hdim hnew
  obtain ⟨s, hreopen⟩ := DurableVDB.open_error hnew hload hopen
  obtain ⟨db₂, happlied⟩ := hfound.reopen_error hreopen
  rw [applyAll_replayRecord] at happlied
  obtain ⟨hrestored, hsnap⟩ := restored_congr config c' hsnapshot
  obtain rfl : loaded = db₀ :=
    Option.some.inj ((restored_eq hnew hload).symm.trans (hrestored.trans h.restored))
  have hlsn : c.snapshotLsn config = lsn :=
    hsnap.symm.trans (snapshotLsn_eq hnew hdim himage.file himage.rest)
  have hbehind : rs.filter (lsn < ·.lsn) = old ++ new := by
    rw [hnewer, hlog, ← hlsn]
    exact h.behind
  -- what has been found before is found again
  obtain ⟨front, hleft, hwithin⟩ : ∃ front,
      (leftOf cs).records.filter (lsn < ·.lsn) = old ++ front ∧ front <+: new := by
    have hle : (leftOf cs).records.filter (lsn < ·.lsn) <+: old ++ new := by
      rw [← hbehind]
      exact hfront.filter _
    have hmem : ∀ r ∈ old ++ new, r ∈ c'.log ∧ lsn < r.lsn := by
      intro r hr
      rw [← hbehind, hnewer] at hr
      obtain ⟨hr, hlt⟩ := List.mem_filter.1 hr
      exact ⟨hr, of_decide_eq_true hlt⟩
    have hsubset : old ⊆ (leftOf cs).records.filter (lsn < ·.lsn) := by
      intro r hr
      obtain ⟨hlogged, hlt⟩ := hmem r (List.mem_append_left _ hr)
      exact List.mem_filter.2
        ⟨hthrough r hlogged hlt (hdurable ▸ h.durable r hr), decide_eq_true hlt⟩
    have hnodup : old.Nodup := by
      have hordered := (List.pairwise_cons.1 hstored.history.ordered).2
      have hlog : c'.log.Nodup := List.Nodup.of_map _ (hordered.imp fun hlt => hlt.ne)
      have hall : (old ++ new).Nodup := by
        rw [← hbehind, hnewer]
        exact hlog.filter _
      exact hall.of_append_left
    obtain ⟨front, hleft⟩ := List.prefix_of_prefix_length_le (List.prefix_append old new) hle
      (hnodup.subperm hsubset).length_le
    rw [← hleft] at hle
    exact ⟨front, hleft.symm, (List.prefix_append_right_inj old).1 hle⟩
  -- and what it gives is where the calls have started
  rw [hleft, List.map_append, applyAll_append, h.replays] at happlied
  have hthrows : (applyAll (applyRecord K) (front.map WalRecord.carried) db₁).ThrowsOnly
      (IndexThrows ι) := by
    refine applyAll_indexThrows h.kept hivf (fun r hr x hx => ?_) ?_ fun r hr => ?_
    · obtain ⟨q, hq, rfl⟩ := List.mem_map.1 hr
      have hmem : q ∈ (leftOf cs).records.filter (lsn < ·.lsn) := by
        rw [hleft]
        exact List.mem_append_right _ hq
      exact hstored.history.room (hsub.subset (hfront.subset (List.mem_of_mem_filter hmem))) hx
    · have hcount : (front.map WalRecord.carried).countP WalRecord.adds =
          front.countP WalRecord.adds := List.countP_map ..
      have hle : front.countP WalRecord.adds ≤ new.countP WalRecord.adds :=
        hwithin.sublist.countP_le
      have hrows := h.rows
      unfold weight at hroom
      omega
    · obtain ⟨q, hq, rfl⟩ := List.mem_map.1 hr
      rw [h.schema]
      exact WalRecord.accepted_carried.2 (haccepted q (hwithin.subset hq))
  dsimp only [Outcome.andThen] at happlied
  rwa [happlied] at hthrows

/-! ### A process that has just opened the files -/

/-- A database that is opened is in this state until it is called. -/
structure Booted (K : Kernels δ) (config : VDBConfig) (c : Chronicle ι δ) : Prop where
  room : c.system.durable.db.intToExt.length ≤ config.kind.capacity
  loaded : ∀ db₀ ∈ c.restored config, db₀.intToExt.length ≤ config.kind.capacity
  opened : c.system.calls = [] → c.Opened K config

theorem booted_open {opts : Options} {walDir : Bytes} {files : Dir} {snapshot : Option Bytes}
    {d : DurableVDB ι} {cs : List Content} {log rs : List WalRecord} {next : ExternalId} {lsn : ℕ}
    {db : VDB ι} (himage : Image config log next snapshot lsn db) (hlog : History log next)
    (hdim : config.dim < 2 ^ 32)
    (hopen : DurableVDB.open K config opts walDir files snapshot = .ok d)
    (hfound : Wal.Found files (openerOf config) cs) (hfront : (leftOf cs).records <+: rs)
    (hsub : rs.Sublist log) (hnewer : rs.filter (lsn < ·.lsn) = log.filter (lsn < ·.lsn))
    (hfit : d.db.Fits)
    (hloaded : ∀ db₀ ∈ (⟨{ durable := d }, log.filter (·.lsn < d.nextLsn)⟩ :
      Chronicle ι δ).restored config, db₀.intToExt.length ≤ config.kind.capacity) :
    Booted K config (⟨{ durable := d }, log.filter (·.lsn < d.nextLsn)⟩ : Chronicle ι δ) := by
  obtain ⟨-, -, hsnapshot, -, himage', -, -, hleft⟩ :=
    himage.reopened hlog hdim hopen hfound hfront hsub hnewer hfit
  obtain ⟨-, -, -, hcredited, -⟩ := DurableVDB.open_found hopen hfound
  obtain ⟨db₀, db₁, db₂, wal, lsn', hnew, hload, hreopen, hd⟩ := DurableVDB.open_parts hopen
  obtain ⟨rfl, hrest, -, -⟩ := himage.file.load himage.rest hdim hnew hload
  obtain ⟨-, -, happlied⟩ := hfound.reopen_ok hreopen
  rw [applyAll_replayRecord, hleft] at happlied
  set c : Chronicle ι δ := ⟨{ durable := d }, log.filter (·.lsn < d.nextLsn)⟩ with hc
  have hrestored : c.restored config = some db₁ := by
    rw [← hsnapshot] at hload
    exact restored_eq hnew hload
  have hsnap : c.snapshotLsn config = lsn' :=
    snapshotLsn_eq hnew hdim (hsnapshot ▸ himage'.file) himage'.rest
  have hreplays : applyAll (applyRecord K) ((c.behind config).map WalRecord.carried) db₁ =
      .ok () d.db := by
    have hdb : d.db = db₂ := congrArg DurableVDB.db hd
    rw [behind, hsnap, hdb]
    exact happlied
  obtain ⟨es, hes⟩ := hrest.holds
  have hkept := kept_applyAll (VDB.kept_of_holds hes (hloaded db₁ hrestored)) hreplays
  -- the rows that a replay adds have found room
  refine ⟨hkept.aligned.ids.trans_le hkept.size, hloaded, fun _ => ⟨rfl, fun r hr => ?_, db₁,
    hrestored, hreplays⟩⟩
  have hlt : r.lsn < d.nextLsn := of_decide_eq_true (List.mem_filter.1 hr).2
  change r.lsn ≤ d.durableLsn
  omega

/-- **One action** of concurrent calls. -/
theorem Booted.act (h : c.Booted K config) (hb : Backed config c) (hdim : config.dim < 2 ^ 32)
    (hnew : VDB.new config = .ok db₀) (hw : c.system.Writable a) :
    (c.act K a).Booted K config := by
  have hkept := kept_of_backed hb h.room
  have hsame : ∀ {c' : Chronicle ι δ}, c'.system.durable.snapshot = c.system.durable.snapshot →
      ∀ db ∈ c'.restored config, db.intToExt.length ≤ config.kind.capacity := by
    intro c' hsnapshot db hdb
    rw [(restored_congr config c' hsnapshot).1] at hdb
    exact h.loaded db hdb
  have hfresh : ∀ (c' : Chronicle ι δ), c.system.Saves a → c'.system.durable.snapshot =
      some (c.system.durable.db.save (c.system.durable.nextLsn - 1)) →
      ∀ db ∈ c'.restored config, db.intToExt.length ≤ config.kind.capacity := by
    intro c' hsaves hsaved db hdb
    obtain ⟨db', hrestored, -, -, hids⟩ := restored_saved c' hb hdim hnew hsaves hw hsaved
    cases hrestored.symm.trans hdb
    exact hids ▸ h.room
  -- a process that has been called is not one that has just opened the files
  have hset : ∀ {i : ℕ} {pc : Pc δ} (pc' : Pc δ), c.system.calls[i]? = some pc →
      c.system.calls.set i pc' ≠ [] := by
    intro i pc pc' hi hnil
    rw [(List.set_eq_nil_iff i pc').1 hnil] at hi
    cases hi
  have hacts := c.system.act_acts K a
  unfold Chronicle.act
  generalize c.system.act K a = s', c.system.logged a = r at hacts ⊢
  cases hacts with
  | starts pc hpc => exact ⟨h.room, hsame rfl, fun hnil => absurd hnil (by simp)⟩
  | idles =>
    rw [Option.toList_none, List.append_nil]
    exact h
  | moves i env pc pc' d' r hrun hi hm =>
    refine ⟨hm.room hkept, ?_, fun hnil => absurd hnil (hset pc' hi)⟩
    rcases hm.saved with ⟨hsnapshot, -⟩ | ⟨⟨reply, rfl⟩, hsaved, -⟩
    · exact hsame hsnapshot
    · exact hfresh _ (hrun ▸ System.saves_iff.2 ⟨reply, hi⟩) hsaved
  | throws i env pc e d' hrun hi ht =>
    refine ⟨ht.room hkept, ?_, fun hnil => absurd hnil (hset _ hi)⟩
    rcases ht.saved with hsnapshot | ⟨⟨reply, rfl⟩, hsaved, -⟩
    · exact hsame hsnapshot
    · exact hfresh _ (hrun ▸ System.saves_iff.2 ⟨reply, hi⟩) hsaved

variable {walDir : Bytes}

/-- **One event.** -/
theorem Booted.step (h : c.Booted K config) (hb : Backed config c) (hdim : config.dim < 2 ^ 32)
    (hnew : VDB.new config = .ok db₀) {e : Event} (he : c.Fair K config walDir e) :
    (c.step K config walDir e).Booted K config := by
  cases e with
  | act a => exact h.act hb hdim hnew he.2
  | outage kept opts =>
    have hopens : Opens (c.reopened K config walDir kept opts) := he
    dsimp only [Chronicle.step]
    cases hopen : c.reopened K config walDir kept opts with
    | error e =>
      rw [hopen] at hopens
      exact hopens.elim
    | ok d =>
      rw [hopen] at hopens
      obtain ⟨lsn, db, cs, rs, himage, hfound, -, -, hfront, hsub, hnewer, -⟩ :=
        hb.stored.outage kept
      obtain ⟨-, -, hsnapshot, -⟩ :=
        himage.reopened hb.stored.history hdim hopen hfound hfront hsub hnewer hopens
      refine booted_open himage hb.stored.history hdim hopen hfound hfront hsub hnewer hopens ?_
      intro db' hdb'
      rw [(restored_congr config _ hsnapshot).1] at hdb'
      exact h.loaded db' hdb'

theorem booted_start {opts : Options} {d : DurableVDB ι} (hdim : config.dim < 2 ^ 32)
    (hopen : DurableVDB.open K config opts walDir [] none = .ok d) :
    Booted K config ({ system := { durable := d } } : Chronicle ι δ) := by
  have hfound : Wal.Found [] (openerOf config) [] := Traced.found_nothing _
  obtain ⟨db₀, db₁, db₂, wal, lsn, hnew, hload, hreopen, hd⟩ := DurableVDB.open_parts hopen
  have himage := image_new hnew
  obtain ⟨-, -, happlied⟩ := hfound.reopen_ok hreopen
  obtain ⟨-, -, rfl⟩ : none = none ∧ lsn = 0 ∧ db₁ = db₀ := by
    rcases hload with hload | ⟨bytes, rest, hsome, -⟩
    · exact hload
    · cases hsome
  cases happlied
  have hsnapshot : d.snapshot = none := congrArg DurableVDB.snapshot hd
  have hdb : d.db = db₁ := congrArg DurableVDB.db hd
  refine booted_open himage ⟨List.pairwise_singleton .., nofun, ⟨.nil, nofun⟩, nofun⟩ hdim hopen
    hfound List.nil_prefix (List.Sublist.refl []) rfl (hdb ▸ himage.rest.fits) ?_
  intro db hdb'
  have hrestored : Chronicle.restored config
      (⟨{ durable := d }, [].filter (·.lsn < d.nextLsn)⟩ : Chronicle ι δ) = some db₁ :=
    restored_eq hnew (.inl ⟨hsnapshot, rfl, rfl⟩)
  cases hrestored.symm.trans hdb'
  have hkept := VDB.kept_new hnew
  exact hkept.aligned.ids.trans_le hkept.size

end Chronicle

end Durable

end Vdb
