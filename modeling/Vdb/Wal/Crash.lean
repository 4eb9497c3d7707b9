import Vdb.Wal.Journal
import Vdb.Wal.Schema

/-!
# A crash while a segment is created

`open_new_segment_` creates the file, writes the header, and syncs the file and the directory.
`CrashPoint` says how far a crash lets it come.

* `Journal.crash_survived_iff` : which crashes the log survives.
* `Journal.torn_header` : after a crash in the middle of the header the log cannot be opened.
-/

namespace Vdb

/-- How much of `open_new_segment_` is on disk. -/
inductive CrashPoint where
  /-- No file, or no directory entry for it. -/
  | beforeCreate
  | created
  /-- The first `k` bytes of the header. -/
  | header (k : ℕ)
  | fileSynced
  | directorySynced
  deriving DecidableEq

namespace CrashPoint

/-- There is no new file, or one with the whole header. -/
def KeepsHeader : CrashPoint → Prop
  | .created => False
  | .header k => walHeaderSize ≤ k
  | _ => True

instance : DecidablePred KeepsHeader
  | .beforeCreate => .isTrue trivial
  | .created => .isFalse id
  | .header k => inferInstanceAs (Decidable (walHeaderSize ≤ k))
  | .fileSynced => .isTrue trivial
  | .directorySynced => .isTrue trivial

/-- The new file. -/
def file (hdr : Bytes) : CrashPoint → Option File
  | .beforeCreate => none
  | .created => some ⟨[], 0⟩
  | .header k => some ((File.mk [] 0).writeAt 0 (hdr.take k))
  | .fileSynced => some ((File.mk [] 0).writeAt 0 hdr).sync
  | .directorySynced => some ((File.mk [] 0).writeAt 0 hdr).sync

end CrashPoint

namespace Wal

variable {w w' : Wal} {o : Opener} {l : Log} {p : CrashPoint}

/-- What `rotate_` calls `open_new_segment_` on. -/
def rotating (w : Wal) : Wal :=
  { w.modifyFile (w.activeFd.getD []) File.sync with
    activeFd := none, segments := sealLast w.segments }

/-- The files a crash in `open_new_segment_` leaves. -/
def crashNewSegment (w : Wal) (p : CrashPoint) : Dir :=
  match p.file (encodeHeader w.opener) with
  | none => w.files
  | some f =>
    (w.files.create (segmentName w.nextNumber)).modify (segmentName w.nextNumber) fun _ => f

/-- The next open and replay deliver these records. -/
def Recovers (files : Dir) (dir : Bytes) (o : Opener) (rs : List WalRecord) : Prop :=
  ∀ segMax, ∃ w, Wal.reopen collect files dir o segMax [] = .ok () (w, rs)

/-- The last segment is replayed last. -/
theorem replayFrom_last {σ : Type} (onRecord : WalRecord → σ → Outcome σ Unit) (n si : ℕ) (w : Wal)
    (user : σ) : replayFrom onRecord (n + 1) si w user =
      (replayFrom onRecord n si w user).andThen fun _ s =>
        replaySegment onRecord (si + n) s.1 s.2 := by
  induction n generalizing si w user with
  | zero =>
    rw [replayFrom, replayFrom, Nat.add_zero]
    dsimp only [Outcome.andThen]
    cases replaySegment onRecord si w user <;> rfl
  | succ n ih =>
    rw [replayFrom, replayFrom]
    cases replaySegment onRecord si w user with
    | error e s => rfl
    | ok _ s =>
      refine (ih (si + 1) s.1 s.2).trans ?_
      rw [Nat.add_right_comm]
      rfl

/-- A log whose last segment has no valid header is not replayed. -/
theorem not_recovers {files : Dir} {dir : Bytes} {rs : List WalRecord} {last : ℕ} {f : File}
    (hlast : (discoverSegments files).getLast? = some last)
    (hf : files.find (segmentName last) = some f) (hd : decodeHeader f.bytes = none) :
    ¬ Recovers files dir o rs := by
  intro h
  obtain ⟨w', he⟩ := h 0
  unfold Wal.reopen Wal.open at he
  rw [hlast] at he
  dsimp only at he
  rw [hf] at he
  dsimp only at he
  set w : Wal := { files, dir, opener := o, segMax := 0
                   segments := (discoverSegments files).mapIdx fun i number =>
                     { number, isSealed := i + 1 < (discoverSegments files).length }
                   activeFd := some (segmentName last), activeBytes := f.bytes.length } with hw
  obtain ⟨ns, hns⟩ : ∃ ns, discoverSegments files = ns ++ [last] :=
    ⟨_, (List.dropLast_append_getLast? last hlast).symm⟩
  have hlen : w.segments.length = ns.length + 1 := by simp [hw, hns]
  have hnumber : (w.segments.getD ns.length { number := 0 }).number = last := by
    simp [hw, hns]
  rw [replay, hlen, replayFrom_last] at he
  cases hr : replayFrom collect ns.length 0 w [] with
  | error e s =>
    rw [hr] at he
    cases he
  | ok _ s =>
    rw [hr] at he
    obtain ⟨w₁, rs₁⟩ := s
    obtain ⟨hsame, -⟩ := replayFrom_closed (by omega) hr
    -- the segments in front have left the file as it was
    have hno : ¬ w₁.Accepted ns.length := by
      rw [hsame.accepted, Accepted, header, hnumber]
      rintro ⟨h, hmem, -⟩
      have hfind : w.files.find (segmentName last) = some f := hf
      rw [hfind] at hmem
      simp [hd] at hmem
    obtain ⟨e, hrej⟩ := replaySegment_rejected collect rs₁ hno
    rw [Nat.zero_add] at he
    dsimp only [Outcome.andThen] at he
    rw [hrej] at he
    cases he

/-- The records of a log that is stored whole are delivered. -/
theorem Stored.recovers {files : Dir} (h : Stored files o l)
    (htails : ∀ c ∈ l.segments, c.tail = [])
    (dir : Bytes) : Recovers files dir o (l.records.map WalRecord.carried) := by
  intro segMax
  obtain ⟨w, hw, -⟩ := h.reopen dir segMax
    (fun c hc => htails c (List.mem_append_left _ hc))
    (.inl (htails l.active (List.mem_append_right _ (List.mem_singleton_self _))))
    (applyAll_collect (l.records.map WalRecord.carried) [])
  exact ⟨w, hw⟩

/-- A crash while a segment is added to the whole segments `cs`. -/
theorem recovers_iff (cs : List Content) (number : ℕ) {dir : Bytes} {rs : List WalRecord}
    (ho : w.opener = o) (hfiles : w.files = segmentFiles (cs.map (Content.entry o)))
    (hnext : w.nextNumber = number) (hnum : Numbered (cs.map Content.number ++ [number]))
    (hfit : ∀ c ∈ cs, ∀ r ∈ c.records, r.Fits) (htails : ∀ c ∈ cs, c.tail = [])
    (hrs : rs = (cs.flatMap Content.records).map WalRecord.carried)
    (hbefore : Recovers w.files dir o rs) :
    Recovers (w.crashNewSegment p) dir o rs ↔ p.KeepsHeader := by
  have hentries :
      Numbered ((cs.map (Content.entry o) ++ [(number, File.mk [] 0)]).map Prod.fst) := by
    rwa [List.map_append, entries_number]
  -- the files with any new file
  have hnew : ∀ f : File, ((w.files.create (segmentName number)).modify (segmentName number)
      fun _ => f) = segmentFiles (cs.map (Content.entry o) ++ [(number, f)]) := fun f => by
    rw [hfiles, Dir.create_segmentFiles, Dir.modify_segmentFiles hentries]
  have hwhole : ∀ synced, Recovers
      (segmentFiles (cs.map (Content.entry o) ++ [(number, ⟨encodeHeader o, synced⟩)]))
        dir o rs := by
    intro synced
    have hstored : Stored
        (segmentFiles (cs.map (Content.entry o) ++ [(number, ⟨encodeHeader o, synced⟩)])) o
        ⟨cs, { number, synced }⟩ := by
      refine ⟨?_, ?_, fun c hc => ?_⟩
      · simp [Log.segments, Content.entry, Content.bytes, frames]
      · rwa [Log.segments, List.map_append]
      · rcases List.mem_append.1 hc with hc | hc
        · exact hfit c hc
        · rw [List.mem_singleton.1 hc]
          simp
    have hrecords : (Log.mk cs { number, synced }).records = cs.flatMap Content.records := by
      simp [Log.records, Log.segments]
    rw [hrs, ← hrecords]
    refine hstored.recovers (fun c hc => ?_) dir
    rcases List.mem_append.1 hc with hc | hc
    · exact htails c hc
    · rw [List.mem_singleton.1 hc]
  have hshort : ∀ f : File, f.bytes.length < walHeaderSize →
      ¬ Recovers (segmentFiles (cs.map (Content.entry o) ++ [(number, f)])) dir o rs := by
    intro f hf
    have hentries' : Numbered ((cs.map (Content.entry o) ++ [(number, f)]).map Prod.fst) := by
      rwa [List.map_append, entries_number]
    have hlast :
      (discoverSegments (segmentFiles (cs.map (Content.entry o) ++ [(number, f)]))).getLast? =
        some number := by
      rw [Dir.discoverSegments_segmentFiles hentries', List.map_append, List.map_singleton,
        List.getLast?_concat]
    refine not_recovers hlast (Dir.find_segmentFiles (f := f) hentries' (by simp)) ?_
    rw [decodeHeader, if_pos hf]
  have hwrite : ∀ data : Bytes, ((File.mk [] 0).writeAt 0 data).bytes = data := by
    simp [File.writeAt]
  unfold crashNewSegment
  rw [ho, hnext]
  cases p with
  | beforeCreate => exact iff_of_true hbefore trivial
  | created =>
    dsimp only [CrashPoint.file]
    rw [hnew]
    exact iff_of_false (hshort _ (by decide)) id
  | header k =>
    dsimp only [CrashPoint.file]
    rw [hnew]
    change _ ↔ walHeaderSize ≤ k
    by_cases hk : walHeaderSize ≤ k
    · have hall : (encodeHeader o).take k = encodeHeader o :=
        List.take_of_length_le (by rw [length_encodeHeader]; exact hk)
      have hfile : (File.mk [] 0).writeAt 0 ((encodeHeader o).take k) = ⟨encodeHeader o, 0⟩ := by
        rw [hall]
        simp [File.writeAt]
      rw [hfile]
      exact iff_of_true (hwhole 0) hk
    · refine iff_of_false (hshort _ ?_) hk
      rw [hwrite, List.length_take, length_encodeHeader]
      exact (min_le_left ..).trans_lt (Nat.lt_of_not_le hk)
  | fileSynced =>
    dsimp only [CrashPoint.file]
    rw [hnew, File.sync, hwrite]
    exact iff_of_true (hwhole _) trivial
  | directorySynced =>
    dsimp only [CrashPoint.file]
    rw [hnew, File.sync, hwrite]
    exact iff_of_true (hwhole _) trivial

end Wal

namespace Journal

open Wal

variable {r : WalRecord} {p : CrashPoint}

/-- **Which crashes in `open_new_segment_` the log survives**: exactly those that leave no new file
or one with the whole header, both in the first `open` and when an append rotates. -/
theorem crash_survived_iff (o : Opener) (dir : Bytes) (segMax : ℕ) (p : CrashPoint) :
    (Recovers (Wal.crashNewSegment { dir, opener := o, segMax } p) dir o [] ↔ p.KeepsHeader) ∧
    ∀ as r, Run.Along step Legal { segMax } (as ++ [.append r]) →
      (as.foldl step { segMax }).Full r →
      (Recovers
        ((as.foldl Wal.act (Wal.open [] dir o segMax).state).rotating.crashNewSegment p) dir o
          ((as.foldl step { segMax }).records.map WalRecord.carried) ↔ p.KeepsHeader) := by
  constructor
  · refine recovers_iff [] 1 rfl rfl rfl ⟨by simp, by simp⟩ (by simp) (by simp) rfl
      fun m => ?_
    obtain ⟨w, hw, -⟩ := reopen_empty dir m collect o []
    exact ⟨w, hw⟩
  · intro as r hrun hfull
    obtain ⟨hrun, ⟨hlsn, hr, hcreated⟩, -⟩ := Run.Along.append.1 hrun
    obtain ⟨l, h, hm⟩ := (inv_run o dir segMax hrun).agrees
    set w := as.foldl Wal.act (Wal.open [] dir o segMax).state with hw
    set j := as.foldl step { segMax } with hj
    rw [Journal.append, if_pos hfull] at hcreated
    have hnum := h.numbered
    rw [Log.segments, List.map_append, List.map_singleton] at hnum
    -- up to the new segment a rotation syncs and seals the old one
    have hrotating : w.rotating = { w.syncFile (segmentName l.active.number) with
        activeFd := none, segments := sealLast w.segments } := by
      rw [rotating, h.activeFd]
      rfl
    have hrecords : j.records = l.sync.segments.flatMap Content.records := by
      rw [records, ← hm.closed, ← hm.active]
      simp [Log.segments, Log.sync, Content.sync, List.flatMap]
    have htails : ∀ c ∈ l.sync.segments, c.tail = [] := by
      intro c hc
      rcases List.mem_append.1 hc with hc | hc
      · exact hm.tails c (List.mem_append_left _ hc)
      · rw [List.mem_singleton.1 hc]
        exact hm.tails l.active (List.mem_append_right _ (List.mem_singleton_self _))
    have hs := h.sync
    rw [hrotating]
    refine recovers_iff l.sync.segments (l.active.number + 1) h.opener hs.files ?_ ?_ hs.fits htails
      (congrArg _ hrecords) ?_
    · unfold nextNumber
      dsimp only
      rw [sealLast_segments h, List.map_append, List.map_singleton, List.getLast?_concat]
      exact congrArg (· + 1) (segment_number _ _)
    · have hroom : l.active.number + 1 < 10 ^ 12 := by
        rw [hm.number]
        exact hcreated
      simpa [Log.segments, Log.sync, Content.sync] using hnum.next hroom
    · rw [hrecords]
      exact hs.stored.recovers htails dir

/-- A rotation that is cut short after two bytes of the new header, and one after all of it. -/
theorem crash_survived_rotation :
    let w := ([.append deletion] : List Action).foldl Wal.act
      (Wal.open [] (ascii "wal") ⟨4, 0, 7⟩ 60).state
    ¬ Recovers (w.rotating.crashNewSegment (.header 2)) (ascii "wal") ⟨4, 0, 7⟩
        [deletion.carried] ∧
      Recovers (w.rotating.crashNewSegment (.header 32)) (ascii "wal") ⟨4, 0, 7⟩
        [deletion.carried] := by
  have hlegal : Run.Along step Legal { segMax := 60 }
      ([.append deletion] ++ [.append { deletion with lsn := 2 }]) := by decide
  have hfull : (([.append deletion] : List Action).foldl step { segMax := 60 }).Full
      { deletion with lsn := 2 } := by decide
  have hcrash := fun p => (crash_survived_iff ⟨4, 0, 7⟩ (ascii "wal") 60 p).2 _ _ hlegal hfull
  exact ⟨fun h => absurd ((hcrash (.header 2)).1 h) (by decide),
    (hcrash (.header 32)).2 (by decide)⟩

/-- After a crash that leaves one byte of the header of the first segment, the log cannot be opened.
-/
theorem torn_header :
    ¬ Recovers (Wal.crashNewSegment { dir := ascii "wal", opener := ⟨4, 0, 7⟩ } (.header 1))
      (ascii "wal") ⟨4, 0, 7⟩ [] := by
  intro h
  obtain ⟨w, hw⟩ := h 100
  have hthrows : ¬ (Wal.reopen collect
      (Wal.crashNewSegment { dir := ascii "wal", opener := ⟨4, 0, 7⟩ } (.header 1)) (ascii "wal")
      ⟨4, 0, 7⟩ 100 []).Returns := by decide +kernel
  rw [hw] at hthrows
  exact hthrows trivial

end Journal

end Vdb
