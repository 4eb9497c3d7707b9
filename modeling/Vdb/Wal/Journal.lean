import Vdb.Wal.Replay
import Vdb.Lib.Run
import Mathlib.Data.List.Flatten

/-!
# The log as a list of records

`Journal` is what a log is for: records in the order in which they were appended, cut into segments
only because segments are reclaimed as a whole.

* `Journal.replay_exact` : after every run of appends, truncations and reopenings, a reopening
  delivers the records of the journal, and a truncation removes only records it covers.
* `Journal.vector_of_delete` : a record is delivered without what its type does not carry.
-/

namespace Vdb

structure Journal where
  closed : List (List WalRecord) := []
  active : List WalRecord := []
  /-- How many segments there have been. -/
  created : ℕ := 1
  segMax : ℕ
  /-- The lsn that was appended last. -/
  lastLsn : ℕ := 0

inductive Journal.Action where
  | append (r : WalRecord)
  | truncate (upto : ℕ)
  /-- Close the log, cut its last file to `cut` bytes, open it and replay it. -/
  | reopen (cut segMax : ℕ)

namespace Journal

variable (j : Journal)

def records : List WalRecord := j.closed.flatten ++ j.active

/-- The size of a segment file with these records. -/
def fileSize (rs : List WalRecord) : ℕ := walHeaderSize + (frames rs).length

/-- The active segment has a record, and no room for another one. -/
def Full (r : WalRecord) : Prop :=
  j.active ≠ [] ∧ j.segMax < fileSize j.active + (encodeRecord r).length

instance (r : WalRecord) : Decidable (j.Full r) := inferInstanceAs (Decidable (_ ∧ _))

def append (r : WalRecord) : Journal :=
  if j.Full r then
    { j with
      closed := j.closed ++ [j.active], active := [r], created := j.created + 1, lastLsn := r.lsn }
  else { j with active := j.active ++ [r], lastLsn := r.lsn }

/-- The segment has records, and all of them are covered. -/
def Covered (upto : ℕ) (rs : List WalRecord) : Prop := rs ≠ [] ∧ ∀ r ∈ rs, r.lsn ≤ upto

instance (upto : ℕ) : DecidablePred (Covered upto) := fun _ => inferInstanceAs (Decidable (_ ∧ _))

def truncate (upto : ℕ) : Journal :=
  { j with closed := j.closed.filter fun rs => ¬ Covered upto rs }

/-- The records whose frames lie wholly in the first `room` bytes. -/
def wholeIn : ℕ → List WalRecord → List WalRecord
  | _, [] => []
  | room, r :: rs =>
    if (encodeRecord r).length ≤ room then r :: wholeIn (room - (encodeRecord r).length) rs else []

def reopen (cut segMax : ℕ) : Journal :=
  { j with active := wholeIn (cut - walHeaderSize) j.active, segMax }

def step : Action → Journal
  | .append r => j.append r
  | .truncate upto => j.truncate upto
  | .reopen cut segMax => j.reopen cut segMax

/-- Lsns increase strictly, the sizes of a record fit its frame, segment numbers have twelve digits,
and a cut leaves the header. -/
def Legal : Action → Prop
  | .append r => j.lastLsn < r.lsn ∧ r.Fits ∧ (j.append r).created < 10 ^ 12
  | .truncate _ => True
  | .reopen cut _ => walHeaderSize ≤ cut

instance : DecidablePred j.Legal
  | .append r => inferInstanceAs (Decidable (j.lastLsn < r.lsn ∧ r.Fits ∧ _))
  | .truncate _ => .isTrue trivial
  | .reopen cut _ => inferInstanceAs (Decidable (walHeaderSize ≤ cut))

end Journal

namespace Wal

/-- The files after the active one is cut to a size. -/
def cutActive (w : Wal) (cut : ℕ) : Dir := w.files.modify (w.activeFd.getD []) fun f => f.cut cut

/-- Perform an action, and collect the records it delivers. -/
def perform (w : Wal) : Journal.Action → Outcome (Wal × List WalRecord) Unit
  | .append r => (w.append r none).mapState (·, [])
  | .truncate upto => (w.truncate upto).mapState (·, [])
  | .reopen cut segMax => Wal.reopen collect (w.cutActive cut) w.dir w.opener segMax []

/-- The log after an action. -/
def act (w : Wal) (a : Journal.Action) : Wal := (w.perform a).state.1

end Wal

namespace Journal

variable {w : Wal} {o : Opener} {l : Log} {j : Journal} {r : WalRecord} {a : Action}

/-! ### The journal of a log -/

/-- The log has the records of the journal, and no torn tail. -/
structure Matches (l : Log) (j : Journal) : Prop where
  closed : l.closed.map Content.records = j.closed
  active : l.active.records = j.active
  number : l.active.number = j.created
  tails : ∀ c ∈ l.segments, c.tail = []
  lsns : (0 :: j.records.map WalRecord.lsn).Pairwise (· < ·)
  last : ∀ r ∈ j.records, r.lsn ≤ j.lastLsn

/-- A log in memory, its files and the journal agree. -/
structure Inv (o : Opener) (w : Wal) (j : Journal) : Prop where
  agrees : ∃ l, w.Holds o l ∧ Matches l j
  segMax : w.segMax = j.segMax

theorem wholeIn_sublog (room : ℕ) (rs : List WalRecord) : wholeIn room rs <+: rs := by
  induction rs generalizing room with
  | nil => exact List.prefix_rfl
  | cons r rs ih =>
    rw [wholeIn]
    split_ifs
    · exact (List.cons_prefix_cons).2 ⟨rfl, ih _⟩
    · exact List.nil_prefix

/-- What is left of some frames when they are cut: whole frames, and a part of the next one. -/
theorem take_frames (room : ℕ) {rs : List WalRecord} (hfit : ∀ r ∈ rs, r.Fits) :
    ∃ part, (frames rs).take room = frames (wholeIn room rs) ++ part ∧ (part = [] ∨ Torn part) := by
  induction rs generalizing room with
  | nil => exact ⟨[], by simp [frames, wholeIn], .inl rfl⟩
  | cons r rs ih =>
    have hframe : frames (r :: rs) = encodeRecord r ++ frames rs := rfl
    rw [wholeIn, hframe, List.take_append]
    split_ifs with hle
    · obtain ⟨part, htake, htorn⟩ := ih (room - (encodeRecord r).length)
        fun s hs => hfit s (List.mem_cons_of_mem _ hs)
      refine ⟨part, ?_, htorn⟩
      rw [List.take_of_length_le hle, htake, ← List.append_assoc]
      rfl
    · refine ⟨(encodeRecord r).take room, ?_, .inr fun s n hs => ?_⟩
      · rw [Nat.sub_eq_zero_of_le (Nat.le_of_not_le hle), List.take_zero, List.append_nil]
        rfl
      · rw [decodeRecord_take (hfit r List.mem_cons_self) (Nat.lt_of_not_le hle)] at hs
        cases hs

theorem frames_eq_nil {rs : List WalRecord} : frames rs = [] ↔ rs = [] := by
  constructor
  · intro h
    have := Wal.length_le_frames rs
    rw [h] at this
    exact List.length_eq_zero_iff.1 (Nat.le_zero.1 this)
  · rintro rfl
    rfl

theorem Matches.full_iff (h : Matches l j) (r : WalRecord) : l.Full j.segMax r ↔ j.Full r := by
  unfold Log.Full Full fileSize Content.size
  rw [h.active]
  refine and_congr_left fun _ => ?_
  rw [← not_iff_not, not_not, ← frames_eq_nil, ← List.length_eq_zero_iff]
  omega

theorem records_append (j : Journal) (r : WalRecord) :
    (j.append r).records = j.records ++ [r] := by
  unfold append records
  split_ifs <;> simp

/-! ### One action -/

theorem Matches.append (h : Matches l j) (hlsn : j.lastLsn < r.lsn) :
    Matches ((l.makeRoom j.segMax r).push r) (j.append r) := by
  have htails := h.tails
  have hlsns : (0 :: (j.append r).records.map WalRecord.lsn).Pairwise (· < ·) := by
    rw [records_append, List.map_append, List.map_singleton, ← List.cons_append]
    refine List.pairwise_append.2 ⟨h.lsns, by simp, fun m hm k hk => ?_⟩
    rw [List.mem_singleton.1 hk]
    rcases List.mem_cons.1 hm with rfl | hm
    · exact Nat.zero_lt_of_lt hlsn
    · obtain ⟨s, hs, rfl⟩ := List.mem_map.1 hm
      exact (h.last s hs).trans_lt hlsn
  have hlast : ∀ s ∈ (j.append r).records, s.lsn ≤ (j.append r).lastLsn := by
    have hr : (j.append r).lastLsn = r.lsn := by
      unfold Journal.append
      split_ifs <;> rfl
    rw [records_append, hr]
    intro s hs
    rcases List.mem_append.1 hs with hs | hs
    · exact ((h.last s hs).trans_lt hlsn).le
    · rw [List.mem_singleton.1 hs]
  have hactive : l.active.tail = [] := htails l.active (by simp [Log.segments])
  -- a full segment is sealed before the record goes to a new one
  by_cases hfull : j.Full r
  · have hroom : l.makeRoom j.segMax r = l.rotate := if_pos ((h.full_iff r).2 hfull)
    have hjournal : j.append r = { j with
      closed := j.closed ++ [j.active], active := [r], created := j.created + 1
      lastLsn := r.lsn } := if_pos hfull
    rw [hjournal] at hlsns hlast ⊢
    rw [hroom]
    refine ⟨?_, rfl, congrArg (· + 1) h.number, fun c hc => ?_, hlsns, hlast⟩
    · rw [← h.closed, ← h.active]
      exact List.map_append
    · simp only [Log.segments, Log.push, Log.rotate, List.mem_append, List.mem_singleton] at hc
      rcases hc with (hc | rfl) | rfl
      · exact htails c (List.mem_append_left _ hc)
      · exact hactive
      · rfl
  · have hroom : l.makeRoom j.segMax r = l := if_neg fun hl => hfull ((h.full_iff r).1 hl)
    have hjournal : j.append r = { j with active := j.active ++ [r], lastLsn := r.lsn } :=
      if_neg hfull
    rw [hjournal] at hlsns hlast ⊢
    rw [hroom]
    refine ⟨h.closed, congrArg (· ++ [r]) h.active, h.number, fun c hc => ?_, hlsns, hlast⟩
    simp only [Log.segments, Log.push, List.mem_append, List.mem_singleton] at hc
    rcases hc with hc | rfl
    · exact htails c (List.mem_append_left _ hc)
    · simp [Content.push, hactive]

theorem Inv.append (h : Inv o w j) (hl : j.Legal (.append r)) :
    ∃ w', w.append r none = .ok () w' ∧ Inv o w' (j.append r) := by
  obtain ⟨l, hw, hm⟩ := h.agrees
  obtain ⟨hlsn, hr, hcreated⟩ := hl
  have hroom : l.Full w.segMax r → l.active.number + 1 < 10 ^ 12 := by
    intro hfull
    rw [h.segMax, hm.full_iff] at hfull
    rw [Journal.append, if_pos hfull] at hcreated
    rw [hm.number]
    exact hcreated
  obtain ⟨w', he, hw', hmax, -, -⟩ := hw.append hr hroom
  rw [h.segMax] at hw' hmax
  refine ⟨w', he, ⟨_, hw', hm.append hlsn⟩, ?_⟩
  rw [hmax, Journal.append]
  split_ifs <;> rfl

/-- What a log in memory knows of the lsns of a segment. -/
theorem lastLsn_segment (b : Bool) (c : Content) :
    (c.segment b).lastLsn = ((c.records.getLast?).map WalRecord.lsn).getD 0 := by
  have hnote : ∀ (rs : List WalRecord) (s : Segment),
      (rs.foldl (fun s r => s.note r.lsn) s).lastLsn =
        ((rs.getLast?).map WalRecord.lsn).getD s.lastLsn := by
    intro rs
    induction rs with
    | nil => exact fun _ => rfl
    | cons r rs ih =>
      intro s
      rw [List.foldl_cons, ih]
      cases rs with
      | nil => rfl
      | cons r' rs =>
        rw [List.getLast?_cons_cons, List.getLast?_eq_some_getLast (List.cons_ne_nil r' rs)]
        rfl
  exact hnote _ _

theorem covered_iff {upto : ℕ} {c : Content}
    (h : (0 :: c.records.map WalRecord.lsn).Pairwise (· < ·)) :
    Log.Covered upto c ↔ Covered upto c.records := by
  unfold Log.Covered Covered
  rw [lastLsn_segment]
  rcases List.eq_nil_or_concat c.records with hnil | ⟨rs, r, hrs⟩
  · simp [hnil]
  · rw [List.concat_eq_append] at hrs
    rw [hrs, List.map_append, List.map_singleton, ← List.cons_append] at h
    obtain ⟨-, -, hlast⟩ := List.pairwise_append.1 h
    have hpos : 0 < r.lsn := hlast 0 List.mem_cons_self r.lsn (List.mem_singleton_self _)
    rw [hrs, List.getLast?_concat]
    simp only [Option.map_some, Option.getD_some]
    refine ⟨fun ⟨_, hle⟩ => ⟨by simp, fun s hs => ?_⟩,
      fun ⟨_, hall⟩ => ⟨hpos.ne', hall r (by simp)⟩⟩
    rcases List.mem_append.1 hs with hs | hs
    · exact (hlast s.lsn (List.mem_cons_of_mem _ (List.mem_map_of_mem hs)) r.lsn
        (List.mem_singleton_self _)).le.trans hle
    · rwa [List.mem_singleton.1 hs]

/-- The lsns of one closed segment increase. -/
theorem Matches.closed_lsns (h : Matches l j) {c : Content} (hc : c ∈ l.closed) :
    (0 :: c.records.map WalRecord.lsn).Pairwise (· < ·) := by
  refine h.lsns.sublist ((List.Sublist.map _ ?_).cons_cons 0)
  rw [records, ← h.closed]
  exact (List.sublist_flatten_of_mem (List.mem_map_of_mem hc)).trans (List.sublist_append_left ..)

theorem Matches.truncate (h : Matches l j) (upto : ℕ) :
    Matches (l.truncate upto) (j.truncate upto) := by
  have hfilter : (l.closed.filter fun c => ¬ Log.Covered upto c).map Content.records =
      j.closed.filter fun rs => ¬ Covered upto rs := by
    rw [← h.closed, List.filter_map]
    refine congrArg _ (List.filter_congr fun c hc => ?_)
    simp [covered_iff (h.closed_lsns hc)]
  have hsub : (j.truncate upto).records.Sublist j.records :=
    (List.Sublist.flatten (List.filter_sublist ..)).append (List.Sublist.refl _)
  refine ⟨hfilter, h.active, h.number, fun c hc => h.tails c ?_,
    h.lsns.sublist ((hsub.map _).cons_cons 0), fun r hr => h.last r (hsub.subset hr)⟩
  exact ((List.filter_sublist ..).append (List.Sublist.refl _)).subset hc

theorem Inv.truncate (h : Inv o w j) (upto : ℕ) :
    ∃ w', w.truncate upto = .ok () w' ∧ Inv o w' (j.truncate upto) := by
  obtain ⟨l, hw, hm⟩ := h.agrees
  obtain ⟨w', he, hw', hmax, -, -⟩ := hw.truncate upto
  exact ⟨w', he, ⟨_, hw', hm.truncate upto⟩, hmax.trans h.segMax⟩

theorem Inv.reopen (h : Inv o w j) {cut : ℕ} (hcut : walHeaderSize ≤ cut) (segMax : ℕ) :
    ∃ w', Wal.reopen Wal.collect (w.cutActive cut) w.dir w.opener segMax [] =
        .ok () (w', (j.reopen cut segMax).records.map WalRecord.carried) ∧
      Inv o w' (j.reopen cut segMax) := by
  obtain ⟨l, hw, hm⟩ := h.agrees
  have hfit := hw.active_fits
  obtain ⟨part, htake, htorn⟩ := take_frames (cut - walHeaderSize) hfit
  -- the log after the cut
  set active : Content := ⟨l.active.number, wholeIn (cut - walHeaderSize) l.active.records, part,
    min l.active.synced cut⟩ with hactive
  have hbytes : (File.mk (l.active.bytes o) l.active.synced).cut cut =
      ⟨active.bytes o, active.synced⟩ := by
    have hnil := hm.tails l.active (by simp [Log.segments])
    rw [File.cut, Content.bytes, Content.bytes, hnil, List.append_nil, List.take_append,
      List.take_of_length_le (by simpa [walHeaderSize] using hcut), Wal.length_encodeHeader]
    exact congrArg (fun b => File.mk (encodeHeader o ++ b) _) htake
  have hstored : Wal.Stored (w.cutActive cut) o ⟨l.closed, active⟩ := by
    refine ⟨?_, hw.numbered_active rfl, hw.fits_active fun r hr =>
      hfit r ((wholeIn_sublog _ _).subset hr)⟩
    rw [Wal.cutActive, hw.activeFd]
    exact hw.modifyActive rfl hbytes
  have hrecords : (Log.mk l.closed active).records = (j.reopen cut segMax).records := by
    rw [Log.records, Log.segments, List.flatMap_append, Journal.records, Journal.reopen,
      ← hm.closed, ← hm.active]
    simp [hactive, List.flatMap]
  obtain ⟨w', hw', h', hmax, -⟩ := hstored.reopen w.dir segMax
    (fun c hc => hm.tails c (List.mem_append_left _ hc)) htorn
    (applyAll_collect (((Log.mk l.closed active).records).map WalRecord.carried) [])
  rw [List.nil_append, hrecords] at hw'
  rw [hw.opener]
  have hclean : active.clean.records = active.records ∧ active.clean.number = active.number ∧
      active.clean.tail = [] := by
    unfold Content.clean
    split_ifs with hnil
    · exact ⟨rfl, rfl, hnil⟩
    · exact ⟨rfl, rfl, rfl⟩
  have hsub : (j.reopen cut segMax).records.Sublist j.records :=
    (List.Sublist.refl _).append (wholeIn_sublog _ _).sublist
  refine ⟨w', hw', ⟨_, h', ⟨hm.closed, ?_, ?_, fun c hc => ?_,
    hm.lsns.sublist ((hsub.map _).cons_cons 0), fun r hr => hm.last r (hsub.subset hr)⟩⟩, hmax⟩
  · rw [hclean.1, hactive, Journal.reopen, ← hm.active]
  · rw [hclean.2.1]
    exact hm.number
  · rcases List.mem_append.1 hc with hc | hc
    · exact hm.tails c (List.mem_append_left _ hc)
    · rw [List.mem_singleton.1 hc]
      exact hclean.2.2

/-- Every action returns, and a reopening delivers the records of the journal it leaves. -/
theorem Inv.perform (h : Inv o w j) (hl : j.Legal a) :
    ∃ w' rs, w.perform a = .ok () (w', rs) ∧ Inv o w' (j.step a) ∧
      ∀ cut segMax, a = .reopen cut segMax → rs = (j.step a).records.map WalRecord.carried := by
  cases a with
  | append r =>
    obtain ⟨w', he, h'⟩ := h.append hl
    refine ⟨w', [], ?_, h', fun cut segMax ha => ?_⟩
    · rw [Wal.perform, he]
      rfl
    · cases ha
  | truncate upto =>
    obtain ⟨w', he, h'⟩ := h.truncate upto
    refine ⟨w', [], ?_, h', fun cut segMax ha => ?_⟩
    · rw [Wal.perform, he]
      rfl
    · cases ha
  | reopen cut segMax =>
    obtain ⟨w', he, h'⟩ := h.reopen hl segMax
    exact ⟨w', _, he, h', fun _ _ _ => rfl⟩

/-- A truncation removes only covered records. -/
theorem truncate_removes (j : Journal) (upto : ℕ) (hr : r ∈ j.records)
    (hgone : r ∉ (j.truncate upto).records) : r.lsn ≤ upto := by
  rcases List.mem_append.1 hr with hr | hr
  · obtain ⟨rs, hrs, hmem⟩ := List.mem_flatten.1 hr
    by_contra hlt
    refine hgone (List.mem_append_left _ (List.mem_flatten.2 ⟨rs, ?_, hmem⟩))
    refine List.mem_filter.2 ⟨hrs, ?_⟩
    simpa using fun hc : Covered upto rs => hlt (hc.2 r hmem)
  · exact (hgone (List.mem_append_right _ hr)).elim

/-- The log of an empty directory and the empty journal agree. -/
theorem inv_open (o : Opener) (dir : Bytes) (segMax : ℕ) :
    Inv o (Wal.open [] dir o segMax).state { segMax } := by
  obtain ⟨w, hw, h, hmax, -⟩ := Wal.open_empty o dir segMax
  rw [hw]
  refine ⟨⟨_, h, rfl, rfl, rfl, fun c hc => ?_, by simp [records], by simp [records]⟩, hmax⟩
  rw [List.mem_singleton.1 hc]
  rfl

theorem inv_run (o : Opener) (dir : Bytes) (segMax : ℕ) {as : List Action}
    (h : Run.Along step Legal { segMax } as) :
    Inv o (as.foldl Wal.act (Wal.open [] dir o segMax).state) (as.foldl step { segMax }) := by
  suffices hrun : ∀ (as : List Action) (w : Wal) (j : Journal), Inv o w j →
    Run.Along step Legal j as →
      Inv o (as.foldl Wal.act w) (as.foldl step j) from hrun as _ _ (inv_open o dir segMax) h
  intro as
  induction as with
  | nil => exact fun _ _ hi _ => hi
  | cons a as ih =>
    intro w j hi hrun
    obtain ⟨w', rs, he, hi', -⟩ := hi.perform hrun.1
    have hact : Wal.act w a = w' := by
      rw [Wal.act, he]
      rfl
    exact ih _ _ (hact ▸ hi') hrun.2

/-- **The segmented log is a list of records.**  In every run from an empty directory each action
returns; a reopening delivers the records of the journal in order, and a truncation removes only
records up to its lsn. -/
theorem replay_exact (o : Opener) (dir : Bytes) (segMax : ℕ) (as : List Action) (a : Action)
    (h : Run.Along step Legal { segMax } (as ++ [a])) :
    let j := as.foldl step { segMax }
    ∃ w rs, (as.foldl Wal.act (Wal.open [] dir o segMax).state).perform a = .ok () (w, rs) ∧
      (∀ cut m, a = .reopen cut m → rs = (j.step a).records.map WalRecord.carried) ∧
      ∀ upto, a = .truncate upto → ∀ r ∈ j.records, r ∉ (j.step a).records → r.lsn ≤ upto := by
  intro j
  obtain ⟨hrun, ha, -⟩ := Run.Along.append.1 h
  obtain ⟨w, rs, he, -, hdelivers⟩ := (inv_run o dir segMax hrun).perform ha
  refine ⟨w, rs, he, hdelivers, fun upto hupto r hr hgone => ?_⟩
  subst hupto
  exact truncate_removes j upto hr hgone

/-- A deletion that carries a vector. -/
def deletion : WalRecord := { type := .delete, lsn := 1, extId := 0, vec := [0] }

/-- The second of two records is cut into, and the log reopened. -/
theorem replay_exact_torn :
    let as : List Action := [.append { type := .delete, lsn := 1, extId := 5 },
      .append { type := .delete, lsn := 2, extId := 6 }]
    Run.Along step Legal { segMax := 100 } (as ++ [.reopen 81 100]) ∧
      ∃ w rs, (as.foldl Wal.act (Wal.open [] (ascii "wal") ⟨4, 0, 7⟩ 100).state).perform
          (.reopen 81 100) = .ok () (w, rs) ∧
        rs = [{ type := .delete, lsn := 1, extId := 5 }] := by
  have hlegal : Run.Along step Legal { segMax := 100 }
      ([.append { type := .delete, lsn := 1, extId := 5 },
        .append { type := .delete, lsn := 2, extId := 6 }] ++ [.reopen 81 100]) := by decide
  obtain ⟨w, rs, he, hdelivers, -⟩ := replay_exact ⟨4, 0, 7⟩ (ascii "wal") 100 _ _ hlegal
  exact ⟨hlegal, w, rs, he, (hdelivers 81 100 rfl).trans (by decide)⟩

/-- A record is delivered without what its type does not carry. -/
theorem vector_of_delete :
    let w := Wal.act (Wal.open [] (ascii "wal") ⟨4, 0, 7⟩ 100).state (.append deletion)
    (w.perform (.reopen 100 100)).Returns ∧ (w.perform (.reopen 100 100)).state.2 ≠ [deletion] := by
  decide +kernel

end Journal

end Vdb
