import Vdb.Durable.Growth

/-!
# What is on disk

As long as appends succeed the log on disk and the snapshot have every record that is known,
whatever calls run and whichever of them throw.

* `Traced.Keeps` : the files of the log, and what they have of it.
* `Stored.act` : one action keeps what is on disk.
* `Stored.outage` : what is left of it after an outage.
-/

namespace Vdb

namespace Durable

open Metadata Database

variable {ι δ : Type} [ColumnIndex ι] [Distance δ]

def Action.pwrite : Action → Option Fault
  | .run _ env => env.pwrite
  | _ => none

def Pc.isSave : Pc δ → Bool
  | .save _ => true
  | _ => false

/-- A checkpoint is about to save the database. -/
def System.Saves (s : System ι δ) : Action → Prop
  | .run i _ => s.calls[i]?.any Pc.isSave
  | _ => False

instance System.decidableSaves (s : System ι δ) : DecidablePred s.Saves
  | .run i _ => inferInstanceAs (Decidable (s.calls[i]?.any Pc.isSave = true))
  | .invoke _ | .checkpoint | .sync => .isFalse id

omit [ColumnIndex ι] [Distance δ] in
theorem System.saves_iff {s : System ι δ} {i : ℕ} {env : Env} :
    s.Saves (.run i env) ↔ ∃ reply, s.calls[i]? = some (.save reply) := by
  refine (Option.any_eq_true _ _).trans ⟨?_, ?_⟩
  · rintro ⟨pc, hi, hpc⟩
    cases pc with
    | save reply => exact ⟨reply, hi⟩
    | _ => cases hpc
  · rintro ⟨reply, hi⟩
    exact ⟨_, hi, rfl⟩

/-- What is asked of an action: no append fails, and there is room for what is written. -/
structure System.Writable (s : System ι δ) (a : Action) : Prop where
  pwrite : a.pwrite = none
  fits : ∀ r ∈ s.logged a, r.Fits
  segments : s.durable.wal.nextNumber < 10 ^ 12
  saves : s.Saves a → s.durable.nextLsn ≤ 2 ^ 64 ∧ s.durable.db.SizesFit ∧ s.durable.db.Rebuilds

instance System.decidableWritable (s : System ι δ) (a : Action) : Decidable (s.Writable a) :=
  decidable_of_iff (a.pwrite = none ∧ (∀ r ∈ s.logged a, r.Fits) ∧
      s.durable.wal.nextNumber < 10 ^ 12 ∧ (s.Saves a → s.durable.nextLsn ≤ 2 ^ 64 ∧
        s.durable.db.SizesFit ∧ s.durable.db.Rebuilds))
    ⟨fun ⟨h1, h2, h3, h4⟩ => ⟨h1, h2, h3, h4⟩, fun ⟨h1, h2, h3, h4⟩ => ⟨h1, h2, h3, h4⟩⟩

/-! ### The log on disk -/

section

omit [ColumnIndex ι] [Distance δ]

variable {config : VDBConfig} {t : Traced ι δ} {log : List WalRecord} {lsn lsn' : ℕ} {l l' : Log}
  {s : System ι δ} {r : Option WalRecord}

/-- The files have the log `l`, of the records that have been appended; what is behind the snapshot
is all there. -/
structure Traced.Keeps (config : VDBConfig) (t : Traced ι δ) (log : List WalRecord) (lsn : ℕ)
    (l : Log) : Prop where
  holds : t.wal.Holds (openerOf config) l
  intact : l.Intact
  placed : ∀ p ∈ l.places, p ∈ t.log
  known : ∀ p ∈ t.log, p.record ∈ log
  /-- The files of what is reclaimed have gone. -/
  gone : ∀ p ∈ t.reclaimed, ∃ n < l.active.number, p.file = segmentName n ∧
    ∀ c ∈ l.closed, c.number ≠ n
  records : l.records.Sublist log
  newer : l.records.filter (lsn < ·.lsn) = log.filter (lsn < ·.lsn)

/-- A larger lsn keeps less. -/
theorem filter_filter_lt (h : lsn ≤ lsn') (rs : List WalRecord) :
    (rs.filter (lsn < ·.lsn)).filter (lsn' < ·.lsn) = rs.filter (lsn' < ·.lsn) := by
  rw [List.filter_filter]
  refine List.filter_congr fun r _ => ?_
  rw [← Bool.decide_and, decide_eq_decide]
  omega

/-- What is in the log is not reclaimed. -/
theorem Traced.Keeps.not_reclaimed (h : t.Keeps config log lsn l) {p : Place} (hp : p ∈ l.places) :
    p ∉ t.reclaimed := by
  intro hgone
  obtain ⟨n, hlt, hfile, hne⟩ := h.gone p hgone
  obtain ⟨c, hc, hp⟩ := List.mem_flatMap.1 hp
  have hnumber : c.number = n := by
    refine segmentName_inj (h.holds.numbered.short _ (List.mem_map_of_mem hc)) ?_ ?_
    · exact hlt.trans h.holds.lt
    · exact ((mem_placesFrom.1 hp).1.symm.trans hfile)
  rcases (Wal.mem_segments_iff l).1 hc with hc | rfl
  · exact hne c hc hnumber
  · exact hlt.ne' hnumber

/-- **One section** keeps this. -/
theorem Traced.Keeps.after (h : t.Keeps config log lsn l)
    (hordered : (0 :: log.map WalRecord.lsn).Pairwise (· < ·))
    (hholds : s.durable.wal.Holds (openerOf config) l')
    (hf : Wal.Follows l l' s.durable.wal r lsn) (hle : lsn ≤ lsn') :
    (t.after s r).Keeps config (log ++ r.toList) lsn' l' where
  holds := hholds
  intact := hf.intact
  placed p hp := by
    rcases hf.places p hp with hp | ⟨q, hq, rfl⟩
    · exact mem_after.2 (.inl (h.placed p hp))
    · exact mem_after.2 (.inr ⟨q, hq, rfl⟩)
  known p hp := by
    rcases mem_after.1 hp with hp | ⟨q, hq, rfl⟩
    · exact List.mem_append_left _ (h.known p hp)
    · exact List.mem_append_right _ (Option.mem_toList.2 hq)
  gone p hp := by
    -- a segment of before that is not the active one
    have hold : ∀ n < l.active.number, p.file = segmentName n → (∀ c ∈ l'.segments, c.number ≠ n) →
        ∃ n < l'.active.number, p.file = segmentName n ∧ ∀ c ∈ l'.closed, c.number ≠ n :=
      fun n hn hfile hne => ⟨n, hn.trans_le hf.active, hfile, fun c hc =>
        hne c ((Wal.mem_segments_iff l').2 (.inl hc))⟩
    rcases hp with hp | ⟨⟨f, hlocated, -⟩, hnone⟩
    · obtain ⟨n, hn, hfile, hne⟩ := h.gone p hp
      refine ⟨n, hn.trans_le hf.active, hfile, fun c hc => ?_⟩
      obtain ⟨b, hb, hnumber⟩ := hf.closed c hc
      rw [← hnumber]
      rcases (Wal.mem_segments_iff l).1 hb with hb | rfl
      · exact hne b hb
      · exact hn.ne'
    · -- it was in a segment, and is in none now
      obtain ⟨b, hb, hfile⟩ : ∃ b ∈ l.segments, p.file = segmentName b.number := by
        obtain ⟨l₁, l₂, hfiles, -⟩ := List.lookup_eq_some_iff.1 hlocated.find
        have hmem : (p.file, f) ∈ segmentFiles
            (l.segments.map (Content.entry (openerOf config))) := by
          rw [← h.holds.files, hfiles]
          simp
        obtain ⟨e, he, heq⟩ := List.mem_map.1 hmem
        obtain ⟨b, hb, rfl⟩ := List.mem_map.1 he
        exact ⟨b, hb, (congrArg Prod.fst heq).symm⟩
      have hne : ∀ c ∈ l'.segments, c.number ≠ b.number := by
        intro c hc heq
        have hfind := hholds.find hc
        rw [heq, ← hfile, hnone] at hfind
        cases hfind
      refine ⟨b.number, ?_, hfile, fun c hc => hne c ((Wal.mem_segments_iff l').2 (.inl hc))⟩
      have hactive : b.number ≤ l.active.number := by
        rcases (Wal.mem_segments_iff l).1 hb with hb | rfl
        · have hincreasing := h.holds.numbered.increasing
          rw [Log.segments, List.map_append, List.map_singleton] at hincreasing
          exact ((List.pairwise_append.1 hincreasing).2.2 _ (List.mem_map_of_mem hb) _
            (List.mem_singleton_self _)).le
        · exact le_rfl
      refine (hactive.trans hf.active).lt_of_ne fun heq => ?_
      exact hne l'.active ((Wal.mem_segments_iff l').2 (.inr rfl)) heq.symm
  records := hf.records.trans (h.records.append_right _)
  newer := by
    have hl := (h.records.map WalRecord.lsn).cons_cons 0
    rw [hf.newer (hordered.sublist hl) lsn' hle, List.filter_append, List.filter_append,
      ← filter_filter_lt hle, h.newer, filter_filter_lt hle]

end

/-! ### Actions -/

/-- Every record has been applied to the database. -/
structure Chronicle.Replayed (config : VDBConfig) (c : Chronicle ι δ) : Prop where
  rest : c.system.durable.db.AtRest config
  logical : c.system.durable.db.logical = replayed WalRecord.key
    (WalRecord.effect config.schema.length) (fun _ => none) c.log

/-- A call in progress works on its mutation. -/
def Pc.Runs {δ : Type} : Pc δ → Prop
  | .applying job call => job.mutation.Runs call
  | _ => True

/-- What holds between two events of the files: the log on disk and the snapshot have every known
record. -/
structure Stored (config : VDBConfig) (c : Chronicle ι δ) : Prop where
  history : History c.log c.system.durable.db.nextExtId
  positive : 0 < c.system.durable.nextLsn
  below : ∀ r ∈ c.log, r.lsn < c.system.durable.nextLsn
  runs : ∀ pc ∈ c.system.calls, pc.Runs
  disk : ∃ (lsn : ℕ) (db : VDB ι) (t : Traced ι δ) (l : Log), t.system = c.system ∧ t.Inv ∧
    Image config c.log c.system.durable.db.nextExtId c.system.durable.snapshot lsn db ∧
    lsn < c.system.durable.nextLsn ∧ (∀ pc ∈ c.system.calls, ∀ n ∈ pc.saved, n ≤ lsn) ∧
    t.Keeps config c.log lsn l

section

variable {K : Kernels δ} {config : VDBConfig} {c : Chronicle ι δ} {s : System ι δ}
  {r : Option WalRecord} {a : Action} {d d' : DurableVDB ι} {w : Bool} {env : Env} {pc pc' : Pc δ}

/-- A call that goes on works on the same mutation. -/
theorem DurableVDB.Moves.runs (hm : d.Moves K w env pc pc' d' r) (h : pc.Runs) : pc'.Runs := by
  have hbehind : ∀ (d : DurableVDB ι) (job : Job), (d.behindApply job : Pc δ).Runs := by
    intro d job
    unfold DurableVDB.behindApply
    split <;> trivial
  cases hm with
  | stays => exact h
  | logs req job wal ops hw hmut hlsn happ =>
    unfold DurableVDB.behindPrefix
    split <;> trivial
  | applies job call db happ =>
    cases call with
    | none => exact hbehind _ job
    | some call =>
      change job.mutation.Runs call
      -- only an insert and an update leave a call to go on with
      generalize job.mutation = m at happ
      cases m with
      | insert ext vec rec =>
        dsimp only [DurableVDB.applyStart] at happ
        split at happ
        · cases happ
        · injection happ with hcall _
          cases hcall
          exact ⟨rfl, rfl⟩
      | update ext vec rec =>
        dsimp only [DurableVDB.applyStart] at happ
        split at happ
        · cases happ
        · injection happ with hcall _
          cases hcall
          exact ⟨rfl, rfl⟩
      | remove ext =>
        obtain ⟨_, d₁, -, happ⟩ := Outcome.andThen_ok happ
        cases happ
      | setMetadata ext rec =>
        obtain ⟨_, d₁, -, happ⟩ := Outcome.andThen_ok happ
        cases happ
  | continues job call next db happ =>
    cases next with
    | none => exact hbehind _ job
    | some next =>
      rcases DurableVDB.applyNext_next happ with ⟨-, hnone⟩ | ⟨call', hsome, -, hruns⟩ | ⟨hnone, -⟩
      · cases hnone
      · cases hsome
        exact hruns _ h
      · cases hnone
  | finishes job => split_ifs <;> trivial
  | _ => trivial

omit [Distance δ] in
/-- The id of an insert in progress has been given out. -/
theorem Stored.ext_lt (h : Stored config c) {job : Job} {vec : Vec} {rec : Record}
    (hmem : .applying job (.inserting vec rec) ∈ c.system.calls) :
    job.mutation.ext < c.system.durable.db.nextExtId := by
  obtain ⟨lsn, db, t, l, hsystem, ht, -, -, -, hkeeps⟩ := h.disk
  -- its record has been logged, and an id is given out before it is
  obtain ⟨⟨p, hp, hrecord⟩, -⟩ := ht.calls _ (hsystem ▸ hmem)
  have hlog : job.mutation.toRecord job.lsn ∈ c.log := hrecord ▸ hkeeps.known p hp
  have hruns : job.mutation.Runs (.inserting vec rec : Call δ) := h.runs _ hmem
  obtain ⟨m, lsn, doCkpt⟩ := job
  cases m with
  | insert ext vec' rec' =>
    exact h.history.given ext (List.mem_filterMap.2 ⟨_, hlog, rfl⟩)
  | _ => exact hruns.elim

omit [Distance δ] in
/-- **One section**, given what it does to the ids, the snapshot and the log. -/
theorem Stored.section (h : Stored config c)
    (hinv : ∀ t : Traced ι δ, t.system = c.system → t.Inv → (t.after s r).Inv)
    (hruns : ∀ pc ∈ s.calls, pc.Runs) (hgives : Gives c.system.durable.db s.durable.db r)
    (hlsn : ∀ q ∈ r, q.lsn = c.system.durable.nextLsn ∧
      c.system.durable.nextLsn < s.durable.nextLsn)
    (hnext : c.system.durable.nextLsn ≤ s.durable.nextLsn)
    (hbools : ∀ q ∈ r, q.metadata.BoolsOk)
    (hfollows : ∀ l lsn, c.system.durable.wal.Holds (openerOf config) l → l.Intact →
      (∀ pc ∈ c.system.calls, ∀ n ∈ pc.saved, n ≤ lsn) →
      ∃ l', s.durable.wal.Holds (openerOf config) l' ∧ Wal.Follows l l' s.durable.wal r lsn)
    (hsaved : (s.durable.snapshot = c.system.durable.snapshot ∧
        ∀ pc ∈ s.calls, ∀ n ∈ pc.saved, ∃ pc ∈ c.system.calls, n ∈ pc.saved) ∨
      (r = none ∧ s.durable.db = c.system.durable.db ∧
        s.durable.snapshot = some (c.system.durable.db.save (c.system.durable.nextLsn - 1)) ∧
        c.system.durable.nextLsn ≤ 2 ^ 64 ∧ c.system.durable.db.SizesFit ∧
        c.system.durable.db.Rebuilds ∧ c.Replayed config ∧
        ∀ pc ∈ s.calls, ∀ n ∈ pc.saved,
          (∃ pc ∈ c.system.calls, n ∈ pc.saved) ∨ n = c.system.durable.nextLsn - 1)) :
    Stored config ⟨s, c.log ++ r.toList⟩ := by
  obtain ⟨lsn, db, t, l, hsystem, ht, himage, hlt, hcalls, hkeeps⟩ := h.disk
  have hholds : c.system.durable.wal.Holds (openerOf config) l := hsystem ▸ hkeeps.holds
  obtain ⟨l', hl', hf⟩ := hfollows l lsn hholds hkeeps.intact hcalls
  have hhistory : History (c.log ++ r.toList) s.durable.db.nextExtId :=
    h.history.after hgives (fun q hq => (hlsn q hq).1 ▸ ⟨h.positive, h.below⟩) hbools
  have hbelow : ∀ q ∈ c.log ++ r.toList, q.lsn < s.durable.nextLsn := by
    intro q hq
    rcases List.mem_append.1 hq with hq | hq
    · exact (h.below q hq).trans_le hnext
    · obtain ⟨heq, hlt⟩ := hlsn q (Option.mem_toList.1 hq)
      exact heq ▸ hlt
  refine ⟨hhistory, h.positive.trans_le hnext, hbelow, hruns, ?_⟩
  -- the snapshot is the old one with one more record behind it, or a new one of all of them
  rcases hsaved with ⟨hsame, hsaved⟩ |
    ⟨rfl, hdb, hsnapshot, hroom, hsizes, hrebuilds, ⟨hrest, hlogical⟩, hsaved⟩
  · refine ⟨lsn, db, t.after s r, l', rfl, hinv t hsystem ht, ?_, hlt.trans_le hnext,
      fun pc hpc n hn => ?_, hkeeps.after h.history.ordered hl' hf le_rfl⟩
    · dsimp only
      rw [hsame]
      exact himage.after h.history hgives fun q hq => (hlsn q hq).1 ▸ hlt
    · obtain ⟨pc, hpc, hn⟩ := hsaved pc hpc n hn
      exact hcalls pc hpc n hn
  · have hle : lsn ≤ c.system.durable.nextLsn - 1 := Nat.le_sub_one_of_lt hlt
    have hsub : c.system.durable.nextLsn - 1 < c.system.durable.nextLsn :=
      Nat.sub_one_lt h.positive.ne'
    refine ⟨c.system.durable.nextLsn - 1, c.system.durable.db, t.after s none, l', rfl,
      hinv t hsystem ht, ?_, hsub.trans_le hnext, fun pc hpc n hn => ?_,
      hkeeps.after h.history.ordered hl' hf hle⟩
    · dsimp only
      rw [hsnapshot, hdb, Option.toList_none, List.append_nil]
      exact image_saved hrest h.history (fun q hq => Nat.le_sub_one_of_lt (h.below q hq))
        (hsub.trans_le hroom) hsizes hrebuilds hlogical
    · rcases hsaved pc hpc n hn with ⟨pc, hpc, hn⟩ | rfl
      · exact (hcalls pc hpc n hn).trans hle
      · exact le_rfl

/-- **One action** keeps what is on disk. -/
theorem Stored.act (h : Stored config c) (hbools : ∀ r ∈ c.system.logged a, r.metadata.BoolsOk)
    (hcounts : c.system.durable.db.nextExtId + 1 < 2 ^ 64) (hw : c.system.Writable a)
    (hsaves : c.system.Saves a → c.Replayed config) : Stored config (c.act K a) := by
  have hinv : ∀ t : Traced ι δ, t.system = c.system → t.Inv →
      (t.after (c.system.act K a) (c.system.logged a)).Inv := by
    intro t hsystem ht
    have hact := ht.act (K := K) a
    unfold Traced.act at hact
    rwa [hsystem] at hact
  have hfits := hw.fits
  have hacts := c.system.act_acts K a
  unfold Chronicle.act
  generalize hs : c.system.act K a = s, hr : c.system.logged a = r at *
  -- the lsns of snapshots that calls hold were held before
  have hstays : ∀ pc ∈ s.calls, pc ∈ c.system.calls ∨ pc.saved = none →
      ∀ n ∈ pc.saved, ∃ pc ∈ c.system.calls, n ∈ pc.saved := by
    rintro pc - (hpc | hnone) n hn
    · exact ⟨pc, hpc, hn⟩
    · rw [hnone] at hn
      cases hn
  cases hacts with
  | starts pc hpc =>
    have hfresh : pc.saved = none ∧ pc.Runs := by
      rcases hpc with ⟨req, rfl⟩ | rfl | rfl
      · cases req <;> exact ⟨rfl, trivial⟩
      · exact ⟨rfl, trivial⟩
      · exact ⟨rfl, trivial⟩
    refine h.section hinv (fun q hq => ?_) (DurableVDB.gives_none le_rfl) nofun le_rfl nofun
      (fun l lsn hl hi _ => ⟨l, hl, Wal.follows_refl hi _ lsn⟩) (.inl ⟨rfl, fun q hq => ?_⟩)
    · rcases List.mem_append.1 hq with hq | hq
      · exact h.runs q hq
      · exact List.mem_singleton.1 hq ▸ hfresh.2
    · refine hstays q hq ((List.mem_append.1 hq).imp_right fun hq => ?_)
      exact List.mem_singleton.1 hq ▸ hfresh.1
  | idles =>
    rw [Option.toList_none, List.append_nil]
    exact h
  | moves i env pc pc' d' r hrun hi hm =>
    have hmem := List.mem_of_getElem? hi
    have hsteps := hm.steps
    have hset : ∀ q ∈ c.system.calls.set i pc', q ∈ c.system.calls ∨ q = pc' := fun q hq =>
      List.mem_or_eq_of_mem_set hq
    refine h.section hinv (fun q hq => ?_)
      (hm.gives hcounts fun job vec rec hpc => h.ext_lt (hpc ▸ hmem))
      hsteps.logged hsteps.nextLsn hbools (fun l lsn hl hi hcalls => ?_) ?_
    · rcases hset q hq with hq | rfl
      · exact h.runs q hq
      · exact hm.runs (h.runs pc hmem)
    · refine hm.follows hl hi ?_ hfits hw.segments (hcalls pc hmem)
      subst hrun
      exact hw.pwrite
    · rcases hm.saved with ⟨hsame, hsaved⟩ | ⟨⟨reply, rfl⟩, hsnapshot, hdb, hnone, hsaved⟩
      · refine .inl ⟨hsame, fun q hq n hn => ?_⟩
        rcases hset q hq with hq | rfl
        · exact ⟨q, hq, hn⟩
        · exact ⟨pc, hmem, hsaved n hn⟩
      · have hsave : c.system.Saves a := hrun ▸ System.saves_iff.2 ⟨reply, hi⟩
        obtain ⟨hroom, hsizes, hrebuilds⟩ := hw.saves hsave
        refine .inr ⟨hnone, hdb, hsnapshot, hroom, hsizes, hrebuilds, hsaves hsave,
          fun q hq n hn => ?_⟩
        rcases hset q hq with hq | rfl
        · exact .inl ⟨q, hq, hn⟩
        · exact .inr (hsaved n hn)
  | throws i env pc e d' hrun hi ht =>
    have hmem := List.mem_of_getElem? hi
    have hsteps := ht.steps
    have hset : ∀ q ∈ c.system.calls.set i (.threw e), q ∈ c.system.calls ∨ q = .threw e :=
      fun q hq => List.mem_or_eq_of_mem_set hq
    have hold : ∀ q ∈ c.system.calls.set i (.threw e),
        ∀ n ∈ q.saved, ∃ pc ∈ c.system.calls, n ∈ pc.saved := by
      intro q hq n hn
      rcases hset q hq with hq | rfl
      · exact ⟨q, hq, hn⟩
      · cases hn
    refine h.section hinv (fun q hq => ?_)
      (ht.gives hcounts fun job vec rec hpc => h.ext_lt (hpc ▸ hmem)) nofun hsteps.nextLsn nofun
      (fun l lsn hl hi _ => ?_) ?_
    · rcases hset q hq with hq | rfl
      · exact h.runs q hq
      · trivial
    · refine ht.follows hl hi ?_ hw.segments lsn
      subst hrun
      exact hw.pwrite
    · rcases ht.saved with hsame | ⟨⟨reply, rfl⟩, hsnapshot, hdb⟩
      · exact .inl ⟨hsame, hold⟩
      · have hsave : c.system.Saves a := hrun ▸ System.saves_iff.2 ⟨reply, hi⟩
        obtain ⟨hroom, hsizes, hrebuilds⟩ := hw.saves hsave
        exact .inr ⟨rfl, hdb, hsnapshot, hroom, hsizes, hrebuilds, hsaves hsave,
          fun q hq n hn => .inl (hold q hq n hn)⟩

/-! ### Outages -/

omit [Distance δ] in
/-- **An outage** leaves a front of the log.  Behind the snapshot it has what is durable, and all of
it if no byte is lost. -/
theorem Stored.outage (h : Stored config c) (kept : Bytes → ℕ) :
    ∃ (lsn : ℕ) (db : VDB ι) (cs : List Content) (rs : List WalRecord),
      Image config c.log c.system.durable.db.nextExtId c.system.durable.snapshot lsn db ∧
      Wal.Found (c.system.durable.wal.outage kept) (openerOf config) cs ∧ Settled cs ∧
      (leftOf cs).Intact ∧ (leftOf cs).records <+: rs ∧ rs.Sublist c.log ∧
      rs.filter (lsn < ·.lsn) = c.log.filter (lsn < ·.lsn) ∧
      (∀ r ∈ c.log, lsn < r.lsn → r.lsn ≤ c.system.durable.durableLsn →
        r ∈ (leftOf cs).records) ∧
      ((∀ e ∈ c.system.durable.wal.files, e.2.bytes.length ≤ kept e.1) →
        (leftOf cs).records = rs) := by
  obtain ⟨lsn, db, t, l, hsystem, ht, himage, -, -, hkeeps⟩ := h.disk
  have hwal : t.wal = c.system.durable.wal := congrArg (fun s => s.durable.wal) hsystem
  obtain ⟨cs, hfound, hsettled, hintact, hfront, hstable, hwhole⟩ :=
    hkeeps.holds.outage hkeeps.intact kept
  rw [hwal] at hfound hstable hwhole
  refine ⟨lsn, db, cs, l.records, himage, hfound, hsettled, hintact, hfront, hkeeps.records,
    hkeeps.newer, fun r hr hlt hle => ?_, hwhole⟩
  have hmem : r ∈ l.records.filter (lsn < ·.lsn) := by
    rw [hkeeps.newer]
    exact List.mem_filter.2 ⟨hr, decide_eq_true hlt⟩
  obtain ⟨p, hp, rfl⟩ := Log.mem_records.1 (List.mem_of_mem_filter hmem)
  have hcovered := ht.covers p (hkeeps.placed p hp) (by rw [hsystem]; exact hle)
  have hst := hcovered.resolve_right (hkeeps.not_reclaimed hp)
  unfold Traced.Stable at hst
  rw [hwal] at hst
  exact hstable p hp hst

omit [Distance δ] in
/-- A mutator that has waited for its record has a durable one. -/
theorem Stored.committed (h : Stored config c) (hpolicy : c.system.durable.opts.policy = .perOpSync)
    {pc : Pc δ} (hpc : pc ∈ c.system.calls) {job : Job} (hjob : pc.committed = some job) :
    job.mutation.toRecord job.lsn ∈ c.log ∧ job.lsn ≤ c.system.durable.durableLsn := by
  obtain ⟨lsn, db, t, l, hsystem, ht, -, -, -, hkeeps⟩ := h.disk
  have hok : t.Logs job ∧ t.Waited job := by
    have hcall := ht.calls pc (hsystem ▸ hpc)
    cases pc with
    | apply job' =>
      cases hjob
      exact hcall
    | applying job' call =>
      cases hjob
      exact hcall
    | finish job' =>
      cases hjob
      exact hcall
    | _ => cases hjob
  obtain ⟨⟨p, hp, hrecord⟩, hwaited⟩ := hok
  refine ⟨hrecord ▸ hkeeps.known p hp, ?_⟩
  have hlsn := hwaited (by rw [hsystem]; exact hpolicy)
  rwa [hsystem] at hlsn

end

end Durable

end Vdb
