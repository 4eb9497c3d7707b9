import Vdb.Wal.Crash
import Mathlib.Algebra.BigOperators.Group.List.Basic

/-!
# Appends that fail

A `pwrite` may fail after a part of the frame.  The part stays in the file behind the last record,
where later frames overwrite it, or not.

* `Wal.failures_harmless_iff` : when what failed appends leave behind does no harm.
* `Wal.sealed_leftover` : a part that is sealed by a rotation makes the log unreadable.
-/

namespace Vdb

/-- An append, and how its `pwrite` fails if it does. -/
structure Attempt where
  record : WalRecord
  fault : Option Fault := none

namespace Attempt

/-- The records whose append returned. -/
def successes (as : List Attempt) : List WalRecord :=
  as.filterMap fun a => if a.fault.isNone then some a.record else none

/-- The append rotates if the active file has so many bytes of records. -/
def Rotates (segMax size : ℕ) (a : Attempt) : Prop :=
  walHeaderSize < size ∧ segMax < size + (encodeRecord a.record).length

instance (segMax size : ℕ) (a : Attempt) : Decidable (a.Rotates segMax size) :=
  inferInstanceAs (Decidable (_ ∧ _))

/-- The bytes of records after the attempt, if there were `size` before. -/
def sizeAfter (size : ℕ) (a : Attempt) : ℕ :=
  match a.fault with
  | none => size + (encodeRecord a.record).length
  | some _ => size

/-- What is left behind the records after the attempt, if `tail` was before. -/
def tailAfter (tail : Bytes) (a : Attempt) : Bytes :=
  match a.fault with
  | none => tail.drop (encodeRecord a.record).length
  | some fault =>
    (encodeRecord a.record).take fault.written ++
      tail.drop ((encodeRecord a.record).take fault.written).length

/-- How many segments the attempts add. -/
def rotations (segMax : ℕ) : ℕ → List Attempt → ℕ
  | _, [] => 0
  | size, a :: as =>
    if a.Rotates segMax size then rotations segMax (a.sizeAfter walHeaderSize) as + 1
    else rotations segMax (a.sizeAfter size) as

/-- Whenever an append rotates, nothing is left of failed ones; and at the end what is left does not
start with a whole frame. -/
def Harmless (segMax : ℕ) : ℕ → Bytes → List Attempt → Prop
  | _, tail, [] => Torn tail
  | size, tail, a :: as =>
    if a.Rotates segMax size then
      tail = [] ∧ Harmless segMax (a.sizeAfter walHeaderSize) (a.tailAfter []) as
    else Harmless segMax (a.sizeAfter size) (a.tailAfter tail) as

/-- The record has the fields its type carries, of sizes that fit a frame. -/
def Proper (a : Attempt) : Prop := a.record.Fits ∧ a.record.carried = a.record

instance (a : Attempt) : Decidable a.Proper := inferInstanceAs (Decidable (_ ∧ _))

end Attempt

namespace Wal

variable {w w' : Wal} {o : Opener} {l : Log} {files : Dir} {dir : Bytes} {rs : List WalRecord}

/-- The log after an attempt to append. -/
def attempt (w : Wal) (a : Attempt) : Wal := (w.append a.record a.fault).state

/-! ### What a log with leftovers delivers -/

/-- What a replay that returns has delivered. -/
theorem replayFrom_delivers {n si : ℕ} {user : List WalRecord} (hn : si + n < w.segments.length)
    (h : replayFrom collect n si w user = .ok () (w', rs)) :
    rs = user ++ (List.range' si n).flatMap fun k => (w.parsed k).1 := by
  induction n generalizing si w user with
  | zero =>
    cases h
    simp
  | succ n ih =>
    rw [replayFrom] at h
    cases hs : replaySegment collect si w user with
    | error e s =>
      rw [hs] at h
      cases h
    | ok _ s =>
      rw [hs] at h
      obtain ⟨w₁, user₁⟩ := s
      obtain ⟨ha, hnil, hsame⟩ := replaySegment_closed (by omega) hs
      obtain ⟨w₂, hs', -⟩ := replaySegment_whole (by omega) ha hnil user
      rw [hs] at hs'
      cases hs'
      rw [ih (by rw [hsame.length]; omega) h, List.range'_succ, List.flatMap_cons,
        List.append_assoc]
      congr 2
      exact List.flatMap_congr fun k _ => by rw [hsame.parsed]

/-- What is parsed of a segment of a stored log. -/
theorem Replaying.parsed {cs : List Content} {a c : Content} (h : w.Replaying o [] cs a) {k : ℕ}
    (hk : (cs ++ [a])[k]? = some c) :
    (w.parsed k).1 = c.records.map WalRecord.carried ++ (parse c.tail.length c.tail).1 ∧
      (w.parsed k).2 = (parse c.tail.length c.tail).2 := by
  have hmem : c ∈ cs ++ [a] := List.mem_of_getElem? hk
  have hnumber : (w.segments.getD k { number := 0 }).number = c.number := by
    rw [number_getD, h.segments, List.getD_eq_getElem?_getD, List.getElem?_map]
    have hget : (([] : List Content).map (Content.segment true) ++
        (cs.map (unread true) ++ [unread false a]))[k]?.map Segment.number =
        ((cs ++ [a]).map Content.number)[k]? := by
      rw [← List.getElem?_map]
      congr 1
      simp [unread, Function.comp_def]
    rw [hget, List.getElem?_map, hk]
    rfl
  have hbody : w.body k = frames c.records ++ c.tail := by
    have hfind := h.find (c := c) (by simpa using hmem)
    rw [body, hnumber, hfind]
    exact List.drop_left' (length_encodeHeader o)
  have hfit := h.fits c (by simpa using hmem)
  have hle := length_le_frames c.records
  rw [Wal.parsed, hbody, parse_frames hfit (by rw [List.length_append]; omega),
    parse_fuel (m := (frames c.records ++ c.tail).length - c.records.length)
      (n := c.tail.length) (by rw [List.length_append]; omega) le_rfl]
  exact ⟨rfl, rfl⟩

/-- A log recovers exactly if nothing is left behind the records of a sealed segment, and no whole
frame behind those of the active one. -/
theorem Stored.recovers_iff (h : Stored files o l) (dir : Bytes) :
    Recovers files dir o (l.records.map WalRecord.carried) ↔
      (∀ c ∈ l.closed, c.tail = []) ∧ Torn l.active.tail := by
  constructor
  swap
  · rintro ⟨hclosed, htorn⟩ segMax
    obtain ⟨w, hw, -⟩ := h.reopen dir segMax hclosed (.inr htorn)
      (applyAll_collect (l.records.map WalRecord.carried) [])
    exact ⟨w, hw⟩
  intro hrec
  obtain ⟨w', he⟩ := hrec 0
  obtain ⟨w, hw, hre, -⟩ := open_stored h dir 0
  have hlen : w.segments.length = l.closed.length + 1 := by
    rw [hre.segments]
    simp
  rw [Wal.reopen, hw] at he
  dsimp only at he
  rw [replay, hlen, replayFrom_last] at he
  cases hr : replayFrom collect l.closed.length 0 w [] with
  | error e s =>
    rw [hr] at he
    cases he
  | ok _ s =>
    obtain ⟨w₁, rs₁⟩ := s
    rw [hr, Nat.zero_add] at he
    obtain ⟨hsame, hall⟩ := replayFrom_closed (by omega) hr
    have hdelivered := replayFrom_delivers (by omega) hr
    -- what the last segment delivers
    have hlast : l.records.map WalRecord.carried = rs₁ ++ (w.parsed l.closed.length).1 := by
      by_cases ha : w₁.Accepted l.closed.length
      · obtain ⟨size, hseg⟩ := replaySegment_accepted rs₁ ha
        have hstate := congrArg (fun x => x.state.2) he
        dsimp only [Outcome.andThen] at hstate
        rw [hseg, state_endScan, hsame.parsed] at hstate
        exact hstate.symm
      · obtain ⟨e, hrej⟩ := replaySegment_rejected collect rs₁ ha
        dsimp only [Outcome.andThen] at he
        rw [hrej] at he
        cases he
    have hactive := hre.parsed (k := l.closed.length) (c := l.active) (by simp)
    have hclosed : ∀ (k : ℕ) (c : Content), l.closed[k]? = some c →
        (w.parsed k).1 = c.records.map WalRecord.carried ++ (parse c.tail.length c.tail).1 ∧
          (parse c.tail.length c.tail).2 = [] := by
      intro k c hk
      have hlt := (List.getElem?_eq_some_iff.1 hk).1
      obtain ⟨h1, h2⟩ := hre.parsed (c := c) (k := k) (by rw [List.getElem?_append_left hlt, hk])
      exact ⟨h1, h2 ▸ (hall k (Nat.zero_le k) (by omega)).2⟩
    -- no record was delivered beyond those of the segments
    have hsum := congrArg List.length hlast
    rw [hdelivered, hactive.1] at hsum
    have hranges : (List.range' 0 l.closed.length).flatMap (fun k => (w.parsed k).1) =
        l.closed.flatMap fun c =>
          c.records.map WalRecord.carried ++ (parse c.tail.length c.tail).1 := by
      rw [List.flatMap_def, List.flatMap_def]
      congr 1
      refine List.ext_getElem (by simp) fun k h1 h2 => ?_
      rw [List.length_map] at h2
      simpa using (hclosed k l.closed[k] (List.getElem?_eq_getElem h2)).1
    rw [hranges] at hsum
    simp only [Log.records, Log.segments, List.flatMap_append, List.map_append, List.map_flatMap,
      List.length_append, List.length_flatMap, List.length_map, List.flatMap_cons, List.flatMap_nil,
      List.append_nil, List.nil_append, List.sum_map_add] at hsum
    have hnone : (l.closed.map fun c => (parse c.tail.length c.tail).1.length).sum = 0 ∧
        (parse l.active.tail.length l.active.tail).1 = [] := by
      rw [← List.length_eq_zero_iff]
      omega
    refine ⟨fun c hc => ?_, (parse_eq_nil hnone.2).2⟩
    obtain ⟨k, hk⟩ := List.getElem?_of_mem hc
    have hzero := List.sum_eq_zero_iff_forall_eq_nat.1 hnone.1 _ (List.mem_map_of_mem hc)
    rw [← (parse_eq_nil (List.length_eq_zero_iff.1 hzero)).1]
    exact (hclosed k c hk).2

end Wal

namespace Log

variable (l : Log) (segMax : ℕ) (a : Attempt)

/-- The contents of the log after an attempt. -/
def attempt : Log :=
  match a.fault with
  | none => (l.makeRoom segMax a.record).push a.record
  | some fault => (l.makeRoom segMax a.record).tear ((encodeRecord a.record).take fault.written)

/-- What an attempt does to the active segment `c`. -/
def activeAfter (c : Content) : Content :=
  match a.fault with
  | none => c.push a.record
  | some fault => c.tear ((encodeRecord a.record).take fault.written)

theorem attempt_eq : l.attempt segMax a =
    { l.makeRoom segMax a.record with
      active := activeAfter a (l.makeRoom segMax a.record).active } := by
  unfold attempt activeAfter
  cases a.fault <;> rfl

theorem activeAfter_spec (c : Content) :
    (activeAfter a c).number = c.number ∧ (activeAfter a c).size = a.sizeAfter c.size ∧
      (activeAfter a c).tail = a.tailAfter c.tail ∧
      (activeAfter a c).records = c.records ++ Attempt.successes [a] := by
  unfold activeAfter Attempt.sizeAfter Attempt.tailAfter Attempt.successes
  cases ha : a.fault with
  | none =>
    refine ⟨rfl, ?_, rfl, by simp [ha, Content.push]⟩
    simp only [Content.push, Content.size, frames_concat, List.length_append, Nat.add_assoc]
  | some fault => exact ⟨rfl, rfl, rfl, by simp [ha, Content.tear]⟩

theorem records_attempt : (l.attempt segMax a).records = l.records ++ Attempt.successes [a] := by
  rw [attempt_eq, makeRoom]
  have hspec := activeAfter_spec a
  split_ifs <;> simp [records, segments, rotate, Content.sync, hspec]

end Log

namespace Wal

variable {w w' : Wal} {o : Opener} {l : Log} {files : Dir} {dir : Bytes} {rs : List WalRecord}

/-- **An attempt** to append. -/
theorem Holds.attempt (h : w.Holds o l) {a : Attempt} (hr : a.record.Fits)
    (hroom : l.Full w.segMax a.record → l.active.number + 1 < 10 ^ 12) :
    (w.attempt a).Holds o (l.attempt w.segMax a) ∧ (w.attempt a).segMax = w.segMax := by
  unfold Wal.attempt Log.attempt
  cases a.fault with
  | none =>
    obtain ⟨w', he, h', hmax, -⟩ := h.append hr hroom
    rw [he]
    exact ⟨h', hmax⟩
  | some fault =>
    obtain ⟨e, w', he, h', hmax, -⟩ := h.append_fault fault hroom
    rw [he]
    exact ⟨h', hmax⟩

theorem attempts_iff (h : w.Holds o l) (as : List Attempt) (hfit : ∀ a ∈ as, a.record.Fits)
    (hroom : l.active.number + Attempt.rotations w.segMax l.active.size as < 10 ^ 12)
    (dir : Bytes) :
    Recovers (as.foldl attempt w).files dir o
        ((l.records ++ Attempt.successes as).map WalRecord.carried) ↔
      (∀ c ∈ l.closed, c.tail = []) ∧
        Attempt.Harmless w.segMax l.active.size l.active.tail as := by
  induction as generalizing w l with
  | nil =>
    rw [show Attempt.successes [] = [] from rfl, List.append_nil]
    exact h.stored.recovers_iff dir
  | cons a as ih =>
    have hfull : l.Full w.segMax a.record ↔ a.Rotates w.segMax l.active.size := Iff.rfl
    have hsucc : Attempt.successes (a :: as) = Attempt.successes [a] ++ Attempt.successes as :=
      List.filterMap_append (l := [a])
    rw [Attempt.rotations] at hroom
    obtain ⟨h', hmax⟩ := h.attempt (hfit a List.mem_cons_self) fun hf => by
      rw [if_pos (hfull.1 hf)] at hroom
      omega
    obtain ⟨hnumber, hsize, htail, -⟩ :=
      Log.activeAfter_spec a (l.makeRoom w.segMax a.record).active
    have hroom' : (l.attempt w.segMax a).active.number + Attempt.rotations (w.attempt a).segMax
        (l.attempt w.segMax a).active.size as < 10 ^ 12 := by
      rw [hmax, Log.attempt_eq]
      dsimp only
      rw [hnumber, hsize]
      by_cases hrot : a.Rotates w.segMax l.active.size
      · rw [if_pos hrot] at hroom
        rw [Log.makeRoom, if_pos (hfull.2 hrot)]
        change l.active.number + 1 + Attempt.rotations w.segMax (a.sizeAfter walHeaderSize) as < _
        omega
      · rw [if_neg hrot] at hroom
        rwa [Log.makeRoom, if_neg fun hf => hrot (hfull.1 hf)]
    -- what an attempt leaves is judged when a later one rotates
    have hih := ih h' (fun b hb => hfit b (List.mem_cons_of_mem _ hb)) hroom'
    rw [Log.records_attempt, List.append_assoc, ← hsucc] at hih
    rw [List.foldl_cons, hih, hmax, Attempt.Harmless, Log.attempt_eq]
    dsimp only
    rw [hsize, htail]
    by_cases hrot : a.Rotates w.segMax l.active.size
    · rw [if_pos hrot, Log.makeRoom, if_pos (hfull.2 hrot)]
      change (∀ c ∈ l.closed ++ [l.active.sync], c.tail = []) ∧
        Attempt.Harmless w.segMax (a.sizeAfter walHeaderSize) (a.tailAfter []) as ↔ _
      rw [List.forall_mem_append, List.forall_mem_singleton, and_assoc]
      rfl
    · rw [if_neg hrot, Log.makeRoom, if_neg fun hf => hrot (hfull.1 hf)]

/-- **When failed appends do no harm**: from an empty directory, the records whose append returned
are recovered, in order, exactly if whenever an append rotates all that failed ones have left is
overwritten, and at the end what is left does not start with a whole frame. -/
theorem failures_harmless_iff (o : Opener) (dir : Bytes) (segMax : ℕ) (as : List Attempt)
    (hproper : ∀ a ∈ as, a.Proper)
    (hroom : 1 + Attempt.rotations segMax walHeaderSize as < 10 ^ 12) :
    Recovers (as.foldl attempt (Wal.open [] dir o segMax).state).files dir o
        (Attempt.successes as) ↔
      Attempt.Harmless segMax walHeaderSize [] as := by
  obtain ⟨w, hw, h, hmax, -⟩ := open_empty o dir segMax
  have hcarried : (Attempt.successes as).map WalRecord.carried = Attempt.successes as := by
    refine (List.map_congr_left fun r hr => ?_).trans (List.map_id _)
    obtain ⟨a, ha, hsome⟩ := List.mem_filterMap.1 hr
    split_ifs at hsome
    cases hsome
    exact (hproper a ha).2
  have hiff := attempts_iff h as (fun a ha => (hproper a ha).1)
    (by rw [hmax]; exact hroom) dir
  rw [hmax] at hiff
  have hrecords : firstLog.records ++ Attempt.successes as = Attempt.successes as := rfl
  rw [hrecords, hcarried] at hiff
  rw [hw]
  refine hiff.trans ⟨fun h => h.2, fun h => ⟨fun c hc => ?_, h⟩⟩
  cases hc

/-- A part of a frame that the next append overwrites. -/
theorem failures_harmless_overwritten :
    Recovers (([⟨{ type := .delete, lsn := 1, extId := 0 }, some ⟨10, []⟩⟩,
        ⟨{ type := .delete, lsn := 2, extId := 0 }, none⟩] : List Attempt).foldl attempt
        (Wal.open [] (ascii "wal") ⟨4, 0, 7⟩ 90).state).files (ascii "wal") ⟨4, 0, 7⟩
      [{ type := .delete, lsn := 2, extId := 0 }] := by
  refine (failures_harmless_iff ⟨4, 0, 7⟩ (ascii "wal") 90 _ (by decide +kernel)
    (by decide +kernel)).2 ?_
  exact torn_nil

/-- The second of three appends fails after ten bytes, and the third one rotates. -/
def sealedLeftover : List Attempt :=
  [⟨{ type := .delete, lsn := 1, extId := 0 }, none⟩,
    ⟨{ type := .delete, lsn := 2, extId := 0 }, some ⟨10, []⟩⟩,
    ⟨{ type := .setMeta, lsn := 3, extId := 0, metadata := ⟨[], [1, 2, 3, 4]⟩ }, none⟩]

/-- A part of a frame that a rotation seals: the log cannot be replayed. -/
theorem sealed_leftover :
    ¬ Recovers (sealedLeftover.foldl attempt (Wal.open [] (ascii "wal") ⟨4, 0, 7⟩ 90).state).files
      (ascii "wal") ⟨4, 0, 7⟩ (Attempt.successes sealedLeftover) := by
  intro h
  obtain ⟨w, hw⟩ := h 90
  have hthrows : ¬ (Wal.reopen collect
      (sealedLeftover.foldl attempt (Wal.open [] (ascii "wal") ⟨4, 0, 7⟩ 90).state).files
      (ascii "wal") ⟨4, 0, 7⟩ 90 []).Returns := by decide +kernel
  rw [hw] at hthrows
  exact hthrows trivial

end Wal

end Vdb
