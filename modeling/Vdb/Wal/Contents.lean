import Vdb.Wal.Files

/-!
# The contents of a log

`Log` is what the files of a log say: for each segment its records, and the bytes behind them that
are no record.  `Wal.Holds` says that a log in memory and its files are those of a `Log`; the lemmas
say what each operation does to it.
-/

namespace Vdb

/-- The frames of some records. -/
def frames (rs : List WalRecord) : Bytes := rs.flatMap encodeRecord

@[simp] theorem frames_append (rs ss : List WalRecord) :
    frames (rs ++ ss) = frames rs ++ frames ss :=
  List.flatMap_append

theorem frames_concat (rs : List WalRecord) (r : WalRecord) :
    frames (rs ++ [r]) = frames rs ++ encodeRecord r := by simp [frames]

/-- The records of a segment, and what lies behind them in its file. -/
structure Content where
  number : ℕ
  records : List WalRecord := []
  tail : Bytes := []
  synced : ℕ := 0

namespace Content

variable (o : Opener) (c : Content)

def size : ℕ := walHeaderSize + (frames c.records).length

def bytes : Bytes := encodeHeader o ++ (frames c.records ++ c.tail)

def entry : ℕ × File := (c.number, ⟨c.bytes o, c.synced⟩)

/-- What the log in memory knows of a segment. -/
def segment (isSealed : Bool) (c : Content) : Segment :=
  c.records.foldl (fun s r => s.note r.lsn) { number := c.number, isSealed }

/-- The whole file is on stable storage. -/
def sync : Content := { c with synced := c.size + c.tail.length }

/-- The segment without its torn tail. -/
def clean : Content := if c.tail = [] then c else { c with tail := [], synced := c.size }

/-- A record is written behind the others. -/
def push (r : WalRecord) : Content where
  number := c.number
  records := c.records ++ [r]
  tail := c.tail.drop (encodeRecord r).length
  synced := min c.synced c.size

/-- A part of a frame is written behind the records. -/
def tear (part : Bytes) : Content where
  number := c.number
  records := c.records
  tail := part ++ c.tail.drop part.length
  synced := min c.synced c.size

end Content

structure Log where
  closed : List Content := []
  active : Content

namespace Log

variable (l : Log)

/-- All segments. -/
def segments : List Content := l.closed ++ [l.active]

def records : List WalRecord := l.segments.flatMap Content.records

/-- The next record starts a new segment. -/
def Full (segMax : ℕ) (r : WalRecord) : Prop :=
  walHeaderSize < l.active.size ∧ segMax < l.active.size + (encodeRecord r).length

instance (segMax : ℕ) (r : WalRecord) : Decidable (l.Full segMax r) :=
  inferInstanceAs (Decidable (_ ∧ _))

def rotate : Log := ⟨l.closed ++ [l.active.sync],
    { number := l.active.number + 1, synced := walHeaderSize }⟩

/-- A new segment if the record needs one. -/
def makeRoom (segMax : ℕ) (r : WalRecord) : Log := if l.Full segMax r then l.rotate else l

def push (r : WalRecord) : Log := { l with active := l.active.push r }

def tear (part : Bytes) : Log := { l with active := l.active.tear part }

def sync : Log := { l with active := l.active.sync }

/-- The records of a segment are all covered. -/
def Covered (upto : ℕ) (c : Content) : Prop :=
  (c.segment true).lastLsn ≠ 0 ∧ (c.segment true).lastLsn ≤ upto

instance (upto : ℕ) : DecidablePred (Covered upto) := fun _ => inferInstanceAs (Decidable (_ ∧ _))

def truncate (upto : ℕ) : Log := { l with closed := l.closed.filter fun c => ¬ Covered upto c }

end Log

namespace Wal

variable {w w' : Wal} {o : Opener} {l : Log} {c : Content} {r : WalRecord}

/-- The log in memory and its files are those of a `Log`. -/
structure Holds (w : Wal) (o : Opener) (l : Log) : Prop where
  opener : w.opener = o
  files : w.files = segmentFiles (l.segments.map (Content.entry o))
  segments : w.segments = l.closed.map (Content.segment true) ++ [l.active.segment false]
  numbered : Numbered (l.segments.map Content.number)
  activeFd : w.activeFd = some (segmentName l.active.number)
  activeBytes : w.activeBytes = l.active.size
  fits : ∀ c ∈ l.segments, ∀ r ∈ c.records, r.Fits

@[simp] theorem length_encodeHeader (o : Opener) : (encodeHeader o).length = 32 := by
  simp [encodeHeader, walHeaderSize]

theorem entries_number (l : List Content) :
    (l.map (Content.entry o)).map Prod.fst = l.map Content.number := by
  rw [List.map_map]
  rfl

theorem foldl_note (rs : List WalRecord) (s : Segment) (b : Bool) :
    { rs.foldl (fun s r => s.note r.lsn) s with isSealed := b } =
      rs.foldl (fun s r => s.note r.lsn) { s with isSealed := b } := by
  induction rs generalizing s with
  | nil => rfl
  | cons r rs ih => exact ih (s.note r.lsn)

theorem segment_number (b : Bool) (c : Content) : (c.segment b).number = c.number := by
  have hnote : ∀ (rs : List WalRecord) (s : Segment),
      (rs.foldl (fun s r => s.note r.lsn) s).number = s.number := by
    intro rs
    induction rs with
    | nil => exact fun _ => rfl
    | cons r rs ih => exact fun s => ih (s.note r.lsn)
  exact hnote _ _

theorem Holds.lt (h : w.Holds o l) : l.active.number < 10 ^ 12 :=
  h.numbered.short _ (by simp [Log.segments])

/-- The file of the active segment is changed. -/
theorem Holds.modifyActive (h : w.Holds o l) {f : File → File} {a : Content}
    (hn : a.number = l.active.number)
    (hf : f ⟨l.active.bytes o, l.active.synced⟩ = ⟨a.bytes o, a.synced⟩) :
    w.files.modify (segmentName l.active.number) f =
      segmentFiles ((Log.mk l.closed a).segments.map (Content.entry o)) := by
  have hnum := h.numbered
  rw [← entries_number (o := o), Log.segments, List.map_append, List.map_singleton] at hnum
  rw [h.files, Log.segments, List.map_append, List.map_singleton, Content.entry,
    Dir.modify_segmentFiles hnum, hf, Log.segments, List.map_append, List.map_singleton,
    Content.entry, hn]

/-- The active segment is replaced by another of the same number. -/
theorem Holds.numbered_active (h : w.Holds o l) {a : Content} (hn : a.number = l.active.number) :
    Numbered ((Log.mk l.closed a).segments.map Content.number) := by
  have := h.numbered
  rw [Log.segments, List.map_append, List.map_singleton] at this ⊢
  rwa [hn]

theorem Holds.fits_active (h : w.Holds o l) {a : Content} (ha : ∀ r ∈ a.records, r.Fits) :
    ∀ c ∈ (Log.mk l.closed a).segments, ∀ r ∈ c.records, r.Fits := by
  intro c hc
  rcases List.mem_append.1 hc with hc | hc
  · exact h.fits c (List.mem_append_left _ hc)
  · rw [List.mem_singleton.1 hc]
    exact ha

theorem Holds.active_fits (h : w.Holds o l) : ∀ r ∈ l.active.records, r.Fits :=
  h.fits _ (by simp [Log.segments])

/-! ### Writing -/

/-- Something is written behind the records of the active segment. -/
theorem writeAt_bytes (c : Content) (data : Bytes) :
    (File.mk (c.bytes o) c.synced).writeAt c.size data =
      ⟨encodeHeader o ++ (frames c.records ++ (data ++ c.tail.drop data.length)),
        min c.synced c.size⟩ := by
  have hlen : (encodeHeader o ++ frames c.records).length = c.size := by
    rw [List.length_append, length_encodeHeader]
    rfl
  have hbytes : c.bytes o = (encodeHeader o ++ frames c.records) ++ c.tail := by
    rw [Content.bytes, List.append_assoc]
  unfold File.writeAt
  congr 1
  dsimp only
  rw [hbytes, ← hlen, List.take_left, ← List.drop_drop, List.drop_left,
    Nat.sub_eq_zero_of_le (by simp), List.replicate_zero, List.nil_append, List.append_assoc]

theorem Holds.sync (h : w.Holds o l) : (w.syncFile (segmentName l.active.number)).Holds o l.sync :=
  { h with
    files := h.modifyActive (a := l.active.sync) rfl (by
      simp [File.sync, Content.sync, Content.bytes, Content.size, walHeaderSize, Nat.add_assoc])
    numbered := h.numbered_active rfl
    fits := h.fits_active h.active_fits }

/-- A log of no segments is given a first one, or a log whose last segment is sealed another. -/
theorem openNewSegment_ok {cs : List Content} {number : ℕ} (ho : w.opener = o)
    (hfiles : w.files = segmentFiles (cs.map (Content.entry o)))
    (hsegs : w.segments = cs.map (Content.segment true)) (hnext : w.nextNumber = number)
    (hnum : Numbered (cs.map Content.number ++ [number]))
    (hfit : ∀ c ∈ cs, ∀ r ∈ c.records, r.Fits) :
    ∃ w', w.openNewSegment = .ok () w' ∧
      w'.Holds o ⟨cs, { number, synced := walHeaderSize }⟩ ∧
      w'.segMax = w.segMax ∧ w'.dir = w.dir ∧ w'.highestLsn = w.highestLsn := by
  have hlt : number < 10 ^ 12 := hnum.short number (by simp)
  -- the number is larger than those in use, and short enough to be read back
  have hnone : w.files.find (segmentName number) = none := by
    rw [hfiles]
    refine Dir.find_segmentFiles_none (fun m hm => ?_) hlt
    rw [entries_number] at hm
    exact (List.pairwise_append.1 hnum.increasing).2.2 m hm number (by simp)
  unfold openNewSegment
  dsimp only
  rw [hnext, hnone]
  refine ⟨_, rfl, ?_, rfl, rfl, rfl⟩
  have hnum' : Numbered ((cs.map (Content.entry o) ++ [(number, File.mk [] 0)]).map Prod.fst) := by
    rwa [List.map_append, entries_number]
  have hwrite : ((File.mk [] 0).writeAt 0 (encodeHeader o)).sync =
      ⟨Content.bytes o { number, synced := walHeaderSize }, walHeaderSize⟩ := by
    simp [File.writeAt, File.sync, Content.bytes, frames, walHeaderSize]
  exact
  { opener := ho
    files := by
      dsimp only
      rw [hfiles, Dir.create_segmentFiles, Dir.modify_segmentFiles hnum', ho, hwrite, Log.segments,
        List.map_append]
      rfl
    segments := by
      change w.segments ++ _ = _
      rw [hsegs]
      rfl
    numbered := by
      rwa [Log.segments, List.map_append]
    activeFd := rfl
    activeBytes := by
      change (encodeHeader w.opener).length = _
      rw [length_encodeHeader]
      rfl
    fits := fun c hc r hr => by
      rcases List.mem_append.1 hc with hc | hc
      · exact hfit c hc r hr
      · rw [List.mem_singleton.1 hc] at hr
        cases hr }

theorem modify_concat {α : Type} (l : List α) (a : α) (f : α → α) :
    (l ++ [a]).modify l.length f = l ++ [f a] := by
  induction l with
  | nil => rfl
  | cons b l ih => exact congrArg (b :: ·) ih

theorem sealLast_segments (h : w.Holds o l) :
    sealLast w.segments = (l.closed ++ [l.active.sync]).map (Content.segment true) := by
  have hlast : { l.active.segment false with isSealed := true } = l.active.sync.segment true :=
    foldl_note _ _ _
  rw [sealLast, h.segments, List.length_append, List.length_singleton, Nat.add_sub_cancel,
    List.map_append, List.map_singleton, ← hlast, modify_concat]

theorem Holds.rotate (h : w.Holds o l) (hroom : l.active.number + 1 < 10 ^ 12) :
    ∃ w', w.rotate = .ok () w' ∧ w'.Holds o l.rotate ∧ w'.segMax = w.segMax ∧ w'.dir = w.dir ∧
      w'.highestLsn = w.highestLsn := by
  have hs := h.sync
  have hnum := h.numbered
  rw [Log.segments, List.map_append, List.map_singleton] at hnum
  unfold Wal.rotate
  rw [h.activeFd]
  dsimp only
  refine openNewSegment_ok (w := { w.syncFile (segmentName l.active.number) with
    activeFd := none, segments := sealLast w.segments }) h.opener hs.files (sealLast_segments h)
    ?_ ?_ h.sync.fits
  · unfold nextNumber
    dsimp only
    rw [sealLast_segments h, List.map_append, List.map_singleton, List.getLast?_concat]
    exact congrArg (· + 1) (segment_number _ _)
  · simpa [Content.sync] using hnum.next hroom

/-- The first half of `append`. -/
theorem Holds.makeRoom (h : w.Holds o l)
    (hroom : l.Full w.segMax r → l.active.number + 1 < 10 ^ 12) :
    ∃ w', (if walHeaderSize < w.activeBytes ∧ w.segMax < w.activeBytes + (encodeRecord r).length
        then w.rotate else .ok () w) = .ok () w' ∧
      w'.Holds o (l.makeRoom w.segMax r) ∧ w'.segMax = w.segMax ∧ w'.dir = w.dir ∧
      w'.highestLsn = w.highestLsn := by
  rw [h.activeBytes, Log.makeRoom]
  by_cases hfull : l.Full w.segMax r
  · rw [if_pos hfull]
    exact (if_pos hfull).symm ▸ h.rotate (hroom hfull)
  · rw [if_neg hfull]
    rw [if_neg (show ¬ (walHeaderSize < l.active.size ∧
      w.segMax < l.active.size + (encodeRecord r).length) from hfull)]
    exact ⟨w, rfl, h, rfl, rfl, rfl⟩

theorem Holds.tear (h : w.Holds o l) (part : Bytes) :
    (w.modifyFile (segmentName l.active.number) fun f => f.writeAt w.activeBytes part).Holds o
      (l.tear part) :=
  { h with
    files := h.modifyActive (f := fun f => f.writeAt w.activeBytes part)
      (a := l.active.tear part) rfl (by
        rw [h.activeBytes, writeAt_bytes]
        rfl)
    activeBytes := h.activeBytes
    numbered := h.numbered_active rfl
    fits := h.fits_active h.active_fits }

theorem Holds.push (h : w.Holds o l) (hr : r.Fits) :
    ({ w.modifyFile (segmentName l.active.number) fun f => f.writeAt w.activeBytes (encodeRecord r)
        with activeBytes := w.activeBytes + (encodeRecord r).length }.note
      (w.segments.length - 1) r.lsn).Holds o (l.push r) :=
  { h with
    files := h.modifyActive (f := fun f => f.writeAt w.activeBytes (encodeRecord r))
      (a := l.active.push r) rfl (by
        rw [h.activeBytes, writeAt_bytes]
        simp only [Content.push, Content.bytes, frames_concat, List.append_assoc])
    segments := by
      change w.segments.modify (w.segments.length - 1) _ = _
      rw [h.segments, List.length_append, List.length_singleton, Nat.add_sub_cancel,
        modify_concat]
      simp [Log.push, Content.push, Content.segment]
    numbered := h.numbered_active rfl
    activeBytes := by
      change w.activeBytes + _ = _
      rw [h.activeBytes]
      simp only [Log.push, Content.push, Content.size, frames_concat, List.length_append,
        Nat.add_assoc]
    fits := h.fits_active fun s hs => by
      rcases List.mem_append.1 hs with hs | hs
      · exact h.active_fits s hs
      · rwa [List.mem_singleton.1 hs] }

/-- **An append** that succeeds. -/
theorem Holds.append (h : w.Holds o l) (hr : r.Fits)
    (hroom : l.Full w.segMax r → l.active.number + 1 < 10 ^ 12) :
    ∃ w', w.append r none = .ok () w' ∧ w'.Holds o ((l.makeRoom w.segMax r).push r) ∧
      w'.segMax = w.segMax ∧ w'.dir = w.dir ∧ w'.highestLsn = max w.highestLsn r.lsn := by
  obtain ⟨w₁, he, h₁, hmax, hdir, hhigh⟩ := h.makeRoom hroom
  unfold Wal.append
  rw [h.activeFd]
  dsimp only
  rw [he]
  dsimp only [Outcome.andThen]
  rw [h₁.activeFd]
  exact ⟨_, rfl, h₁.push hr, hmax, hdir, congrArg (max · r.lsn) hhigh⟩

/-- **An append** that fails after a part of the frame. -/
theorem Holds.append_fault (h : w.Holds o l) (fault : Fault)
    (hroom : l.Full w.segMax r → l.active.number + 1 < 10 ^ 12) :
    ∃ e w', w.append r (some fault) = .error e w' ∧
      w'.Holds o ((l.makeRoom w.segMax r).tear ((encodeRecord r).take fault.written)) ∧
      w'.segMax = w.segMax ∧ w'.dir = w.dir ∧ w'.highestLsn = w.highestLsn := by
  obtain ⟨w₁, he, h₁, hmax, hdir, hhigh⟩ := h.makeRoom hroom
  unfold Wal.append
  rw [h.activeFd]
  dsimp only
  rw [he]
  dsimp only [Outcome.andThen]
  rw [h₁.activeFd]
  exact ⟨_, _, rfl, h₁.tear _, hmax, hdir, hhigh⟩

/-! ### Truncating -/

theorem reclaim_cons {upto : ℕ} {s : Segment} {rest : List Segment} (hrest : rest ≠ []) (d : Dir) :
    reclaim upto (s :: rest) d =
      if s.isSealed ∧ s.lastLsn ≠ 0 ∧ s.lastLsn ≤ upto then
        if (d.find (segmentName s.number)).isNone then
          .error (sysError (ascii "unlink WAL segment") noSuchFile) d
        else reclaim upto rest (d.unlink (segmentName s.number))
      else (reclaim upto rest d).andThen fun survivors d => .ok (s :: survivors) d := by
  cases rest with
  | nil => exact absurd rfl hrest
  | cons t rest => rfl

theorem isSealed_segment (b : Bool) (c : Content) : (c.segment b).isSealed = b := by
  have hnote : ∀ (rs : List WalRecord) (s : Segment),
      (rs.foldl (fun s r => s.note r.lsn) s).isSealed = s.isSealed := by
    intro rs
    induction rs with
    | nil => exact fun _ => rfl
    | cons r rs ih => exact fun s => ih (s.note r.lsn)
  exact hnote _ _

/-- The loop of `truncate` from the segments `cs` on. -/
theorem reclaim_ok (upto : ℕ) (last : Segment) {a : Content} (kept : List Content)
    {cs : List Content} (hnum : Numbered ((kept ++ cs ++ [a]).map Content.number)) :
    reclaim upto (cs.map (Content.segment true) ++ [last])
        (segmentFiles ((kept ++ cs ++ [a]).map (Content.entry o))) =
      .ok ((cs.filter fun c => ¬ Log.Covered upto c).map (Content.segment true) ++ [last])
        (segmentFiles ((kept ++ cs.filter (fun c => ¬ Log.Covered upto c) ++ [a]).map
          (Content.entry o))) := by
  induction cs generalizing kept with
  | nil => rfl
  | cons c cs ih =>
    rw [List.map_cons, List.cons_append, reclaim_cons (by simp), isSealed_segment, segment_number]
    have hsplit : (kept ++ c :: cs ++ [a]).map (Content.entry o) =
        kept.map (Content.entry o) ++ (c.number, ⟨c.bytes o, c.synced⟩) ::
          (cs ++ [a]).map (Content.entry o) := by
      simp [Content.entry]
    by_cases hc : Log.Covered upto c
    · have hentries : Numbered ((kept.map (Content.entry o) ++ (c.number, ⟨c.bytes o, c.synced⟩) ::
          (cs ++ [a]).map (Content.entry o)).map Prod.fst) := by
        rwa [← hsplit, entries_number]
      have hfind := Dir.find_segmentFiles hentries (n := c.number)
        (f := ⟨c.bytes o, c.synced⟩) (by simp)
      rw [if_pos ⟨rfl, hc⟩, hsplit, hfind]
      rw [Option.isNone_some, if_neg Bool.false_ne_true, Dir.unlink_segmentFiles hentries,
        ← List.map_append, ← List.append_assoc, ih kept (hnum.sublist (by simp)),
        List.filter_cons_of_neg (by simpa using hc)]
    · have hkept : kept ++ c :: cs ++ [a] = (kept ++ [c]) ++ cs ++ [a] := by simp
      rw [if_neg fun h => hc h.2, hkept, ih (kept ++ [c]) (hkept ▸ hnum)]
      rw [List.filter_cons_of_pos (by simpa using hc)]
      simp [Outcome.andThen]

theorem Holds.truncate (h : w.Holds o l) (upto : ℕ) :
    ∃ w', w.truncate upto = .ok () w' ∧ w'.Holds o (l.truncate upto) ∧ w'.segMax = w.segMax ∧
      w'.dir = w.dir ∧ w'.highestLsn = w.highestLsn := by
  have hnum := h.numbered
  have hrec := reclaim_ok (o := o) upto (l.active.segment false) [] hnum
  rw [List.nil_append] at hrec
  unfold Wal.truncate
  rw [h.segments, h.files, Log.segments, hrec]
  have hsub : (l.truncate upto).segments.Sublist l.segments :=
    (List.filter_sublist ..).append (List.Sublist.refl _)
  exact ⟨_, rfl, { h with
    files := rfl
    segments := rfl
    numbered := hnum.sublist (hsub.map _)
    fits := fun c hc => h.fits c (hsub.subset hc) }, rfl, rfl, rfl⟩

end Wal

end Vdb
