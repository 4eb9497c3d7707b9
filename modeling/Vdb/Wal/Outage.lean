import Vdb.Wal.Found
import Vdb.Wal.Journal

/-!
# Outages

An outage leaves of each file what is on stable storage, and perhaps some of the bytes behind it.
As long as every append succeeds, only the last segment has records that are not on stable storage.

* `Log.Intact` : the segments of such a log; every operation keeps this.
* `Holds.outage` : the log that is found after an outage has a front of the records, with all those
  that are on stable storage.
-/

namespace Vdb

/-- What an outage leaves of a file, the first `kept` bytes among it. -/
def File.outage (f : File) (kept : ℕ) : File := (f.cut (max f.synced kept)).sync

/-- The files after an outage, each with at least so many bytes. -/
def Wal.outage (w : Wal) (kept : Bytes → ℕ) : Dir :=
  w.files.map fun e => (e.1, e.2.outage (kept e.1))

/-- No torn tail, and only the last segment is not on stable storage as a whole. -/
structure Log.Intact (l : Log) : Prop where
  tails : ∀ c ∈ l.segments, c.tail = []
  closed : ∀ c ∈ l.closed, c.size ≤ c.synced
  header : walHeaderSize ≤ l.active.synced

namespace Content

variable {o : Opener} {c : Content} {name : Bytes} {p : Place}

/-- The segment if its file is synced, which may be another one. -/
def syncIf (name : Bytes) (c : Content) : Content :=
  if segmentName c.number = name then c.sync else c

theorem syncIf_spec (name : Bytes) (c : Content) : (c.syncIf name).number = c.number ∧
    (c.syncIf name).records = c.records ∧ (c.syncIf name).tail = c.tail ∧
      ∀ n, n ≤ c.size → n ≤ c.synced → n ≤ (c.syncIf name).synced := by
  unfold syncIf
  split_ifs
  · exact ⟨rfl, rfl, rfl, fun n hn _ => hn.trans (Nat.le_add_right ..)⟩
  · exact ⟨rfl, rfl, rfl, fun n _ hn => hn⟩

theorem header_le_size (c : Content) : walHeaderSize ≤ c.size := Nat.le_add_right ..

theorem length_bytes (o : Opener) (c : Content) : (c.bytes o).length = c.size + c.tail.length := by
  simp [bytes, size, walHeaderSize, Nat.add_assoc]

theorem places_congr {c' : Content} (hnumber : c'.number = c.number)
    (hrecords : c'.records = c.records) : c'.places = c.places := by
  rw [places, places, hnumber, hrecords]

theorem places_push (c : Content) (r : WalRecord) :
    (c.push r).places = c.places ++ [⟨r, segmentName c.number, (c.push r).size⟩] := by
  have hconcat : ∀ (rs : List WalRecord) (n : ℕ), placesFrom (segmentName c.number) n (rs ++ [r]) =
      placesFrom (segmentName c.number) n rs ++
        [⟨r, segmentName c.number, n + (frames (rs ++ [r])).length⟩] := by
    intro rs
    induction rs with
    | nil => simp [placesFrom, frames]
    | cons s rs ih =>
      intro n
      simp [placesFrom, ih, frames, Nat.add_assoc]
  exact hconcat c.records walHeaderSize

/-- A segment that is on stable storage comes through. -/
theorem outage_closed (htail : c.tail = []) (hsynced : c.size ≤ c.synced) (kept : ℕ) :
    (File.mk (c.bytes o) c.synced).outage kept = ⟨c.bytes o, c.size⟩ := by
  have hlen := c.length_bytes o
  rw [htail, List.length_nil, Nat.add_zero] at hlen
  have htake : (c.bytes o).take (max c.synced kept) = c.bytes o :=
    List.take_of_length_le (hlen.le.trans (hsynced.trans (le_max_left ..)))
  simp only [File.outage, File.cut, File.sync, htake, hlen]

end Content

/-- A record whose frame is in front is left. -/
theorem Journal.mem_wholeIn {pre rest : List WalRecord} {r : WalRecord} {room : ℕ}
    (h : (frames (pre ++ [r])).length ≤ room) : r ∈ Journal.wholeIn room (pre ++ r :: rest) := by
  induction pre generalizing room with
  | nil =>
    have hle : (encodeRecord r).length ≤ room := by simpa [frames] using h
    rw [List.nil_append, Journal.wholeIn, if_pos hle]
    exact List.mem_cons_self
  | cons s pre ih =>
    have hsplit : (encodeRecord s).length + (frames (pre ++ [r])).length ≤ room := by
      simpa [frames] using h
    rw [List.cons_append, Journal.wholeIn, if_pos (by omega)]
    exact List.mem_cons_of_mem _ (ih (by omega))

theorem Journal.wholeIn_eq_self {rs : List WalRecord} {room : ℕ} (h : (frames rs).length ≤ room) :
    Journal.wholeIn room rs = rs := by
  induction rs generalizing room with
  | nil => rfl
  | cons r rs ih =>
    have hsplit : (encodeRecord r).length + (frames rs).length ≤ room := by
      simpa [frames] using h
    rw [Journal.wholeIn, if_pos (by omega), ih (by omega)]

namespace Content

variable {o : Opener} {a : Content} {p : Place}

/-- **The last segment** loses what is not on stable storage, up to a torn tail. -/
theorem outage_active (hfit : ∀ r ∈ a.records, r.Fits) (htail : a.tail = [])
    (hheader : walHeaderSize ≤ a.synced) (kept : ℕ) :
    ∃ b : Content, b.number = a.number ∧ b.bytes o =
      ((File.mk (a.bytes o) a.synced).outage kept).bytes ∧
      b.synced = ((File.mk (a.bytes o) a.synced).outage kept).synced ∧ b.records <+: a.records ∧
      (b.tail = [] ∨ Torn b.tail) ∧ b.size ≤ b.synced ∧
      (∀ p ∈ a.places, p.frameEnd ≤ a.synced → p.record ∈ b.records) ∧
      ((a.bytes o).length ≤ kept → b.records = a.records) := by
  set cut := max a.synced kept with hcut
  have hle : walHeaderSize ≤ cut := hheader.trans (le_max_left ..)
  obtain ⟨part, htake, htorn⟩ := Journal.take_frames (cut - walHeaderSize) hfit
  have hbytes : (a.bytes o).take cut =
      encodeHeader o ++ (frames (Journal.wholeIn (cut - walHeaderSize) a.records) ++ part) := by
    have hlen : (encodeHeader o).length = walHeaderSize := Wal.length_encodeHeader o
    rw [bytes, htail, List.append_nil, List.take_append, hlen,
      List.take_of_length_le (hlen.trans_le hle), htake]
  set b : Content := { number := a.number
                       records := Journal.wholeIn (cut - walHeaderSize) a.records
                       tail := part, synced := ((a.bytes o).take cut).length } with hb
  have hsize : b.size + b.tail.length = b.synced := by
    rw [← b.length_bytes o]
    exact congrArg List.length hbytes.symm
  refine ⟨b, rfl, hbytes.symm, rfl, Journal.wholeIn_sublog _ _, htorn, by omega, ?_, ?_⟩
  · intro p hp hend
    obtain ⟨-, pre, rest, hrs, hframe⟩ := mem_placesFrom.1 hp
    have hroom : (frames (pre ++ [p.record])).length ≤ cut - walHeaderSize := by
      have := hend.trans (le_max_left a.synced kept)
      omega
    rw [hb, hrs]
    exact Journal.mem_wholeIn hroom
  · intro hall
    have hlen := a.length_bytes o
    have hframes : a.size = walHeaderSize + (frames a.records).length := rfl
    have hroom : (frames a.records).length ≤ cut - walHeaderSize := by
      have := hall.trans (le_max_right a.synced kept)
      omega
    exact Journal.wholeIn_eq_self hroom

end Content

namespace Log

variable {l : Log} {r : WalRecord}

/-- Change every segment. -/
def map (g : Content → Content) (l : Log) : Log := ⟨l.closed.map g, g l.active⟩

theorem segments_map (g : Content → Content) : (l.map g).segments = l.segments.map g := by
  rw [segments, segments, List.map_append]
  rfl

theorem mem_records {r : WalRecord} : r ∈ l.records ↔ ∃ p ∈ l.places, p.record = r := by
  constructor
  · intro hr
    obtain ⟨c, hc, hr⟩ := List.mem_flatMap.1 hr
    obtain ⟨pre, rest, hrs⟩ := List.append_of_mem hr
    exact ⟨⟨r, segmentName c.number, walHeaderSize + (frames (pre ++ [r])).length⟩,
      List.mem_flatMap.2 ⟨c, hc, mem_placesFrom.2 ⟨rfl, pre, rest, hrs, rfl⟩⟩, rfl⟩
  · rintro ⟨p, hp, rfl⟩
    obtain ⟨c, hc, hp⟩ := List.mem_flatMap.1 hp
    exact List.mem_flatMap.2 ⟨c, hc, Content.record_mem hp⟩

theorem records_push (l : Log) (r : WalRecord) : (l.push r).records = l.records ++ [r] := by
  simp [records, segments, push, Content.push]

theorem records_makeRoom (l : Log) (segMax : ℕ) (r : WalRecord) :
    (l.makeRoom segMax r).records = l.records := by
  unfold makeRoom
  split_ifs
  · simp [records, segments, rotate, Content.sync]
  · rfl

theorem places_push (l : Log) (r : WalRecord) : (l.push r).places =
    l.places ++ [⟨r, segmentName l.active.number, (l.push r).active.size⟩] := by
  simp [places, segments, push, Content.places_push]

theorem places_makeRoom (l : Log) (segMax : ℕ) (r : WalRecord) :
    (l.makeRoom segMax r).places = l.places := by
  unfold makeRoom
  split_ifs
  · have hsync : l.active.sync.places = l.active.places := rfl
    have hnone : (Content.mk (l.active.number + 1) [] [] walHeaderSize).places = [] := rfl
    simp [places, segments, rotate, hsync, hnone]
  · rfl

namespace Intact

theorem push (h : l.Intact) (r : WalRecord) : (l.push r).Intact where
  tails c hc := by
    rcases (Wal.mem_segments_iff _).1 hc with hc | rfl
    · exact h.tails c ((Wal.mem_segments_iff l).2 (.inl hc))
    · have htail : l.active.tail = [] := h.tails _ ((Wal.mem_segments_iff l).2 (.inr rfl))
      simp [Log.push, Content.push, htail]
  closed := h.closed
  header := le_min h.header (Content.header_le_size _)

theorem makeRoom (h : l.Intact) (segMax : ℕ) (r : WalRecord) : (l.makeRoom segMax r).Intact := by
  unfold Log.makeRoom
  split_ifs
  · exact
    { tails := fun c hc => by
        rcases (Wal.mem_segments_iff _).1 hc with hc | rfl
        · rcases List.mem_append.1 hc with hc | hc
          · exact h.tails c ((Wal.mem_segments_iff l).2 (.inl hc))
          · rw [List.mem_singleton.1 hc]
            exact h.tails l.active ((Wal.mem_segments_iff l).2 (.inr rfl))
        · rfl
      closed := fun c hc => by
        rcases List.mem_append.1 hc with hc | hc
        · exact h.closed c hc
        · rw [List.mem_singleton.1 hc]
          exact Nat.le_add_right ..
      header := le_rfl }
  · exact h

theorem truncate (h : l.Intact) (upto : ℕ) : (l.truncate upto).Intact where
  tails c hc := by
    rcases (Wal.mem_segments_iff _).1 hc with hc | rfl
    · exact h.tails c ((Wal.mem_segments_iff l).2 (.inl (List.mem_of_mem_filter hc)))
    · exact h.tails l.active ((Wal.mem_segments_iff l).2 (.inr rfl))
  closed c hc := h.closed c (List.mem_of_mem_filter hc)
  header := h.header

theorem syncIf (h : l.Intact) (name : Bytes) : (l.map (Content.syncIf name)).Intact where
  tails c hc := by
    rw [segments_map] at hc
    obtain ⟨b, hb, rfl⟩ := List.mem_map.1 hc
    exact (b.syncIf_spec name).2.2.1.trans (h.tails b hb)
  closed c hc := by
    obtain ⟨b, hb, rfl⟩ := List.mem_map.1 hc
    obtain ⟨-, hrecords, -, hsynced⟩ := b.syncIf_spec name
    have hsize : (b.syncIf name).size = b.size := by rw [Content.size, hrecords, Content.size]
    exact hsize ▸ hsynced b.size le_rfl (h.closed b hb)
  header := (l.active.syncIf_spec name).2.2.2 _ (Content.header_le_size _) h.header

end Intact

end Log

namespace Wal

variable {w w' : Wal} {o : Opener} {l : Log}

/-- The file of any segment is synced, or that of none. -/
theorem Holds.syncIf (h : w.Holds o l) (name : Bytes) :
    (w.syncFile name).Holds o (l.map (Content.syncIf name)) := by
  have hnumber : ∀ c : Content, (c.syncIf name).number = c.number := fun c => (c.syncIf_spec name).1
  have hrecords : ∀ c : Content, (c.syncIf name).records = c.records := fun c =>
    (c.syncIf_spec name).2.1
  have hsegment : ∀ b c, (Content.syncIf name c).segment b = c.segment b := fun b c => by
    rw [Content.segment, Content.segment, hnumber, hrecords]
  exact
  { opener := h.opener
    -- the names of the files tell the segments apart
    files := by
      unfold syncFile modifyFile
      rw [h.files, Log.segments_map]
      simp only [Dir.modify, segmentFiles, List.map_map]
      refine List.map_congr_left fun c _ => ?_
      by_cases hname : segmentName c.number = name
      · have hsync : c.syncIf name = c.sync := if_pos hname
        refine (if_pos hname).trans ?_
        dsimp only [Function.comp_apply, Content.entry, File.sync]
        rw [hsync, c.length_bytes o]
        rfl
      · have hsame : c.syncIf name = c := if_neg hname
        refine (if_neg hname).trans ?_
        dsimp only [Function.comp_apply, Content.entry]
        rw [hsame]
    segments := by
      refine h.segments.trans ?_
      rw [Log.map, List.map_map]
      simp only [Function.comp_def, hsegment]
    numbered := by
      rw [Log.segments_map, List.map_map, Function.comp_def]
      simp only [hnumber]
      exact h.numbered
    activeFd := h.activeFd.trans (congrArg (some ∘ segmentName) (hnumber l.active).symm)
    activeBytes := h.activeBytes.trans (by
      rw [Log.map, Content.size, Content.size, hrecords])
    fits := fun c hc => by
      rw [Log.segments_map] at hc
      obtain ⟨b, hb, rfl⟩ := List.mem_map.1 hc
      rw [hrecords]
      exact h.fits b hb }

theorem places_syncIf (l : Log) (name : Bytes) :
    (l.map (Content.syncIf name)).places = l.places := by
  rw [Log.places, Log.segments_map, List.flatMap_map]
  exact List.flatMap_congr fun c _ =>
    Content.places_congr (c.syncIf_spec name).1 (c.syncIf_spec name).2.1

theorem records_syncIf (l : Log) (name : Bytes) :
    (l.map (Content.syncIf name)).records = l.records := by
  rw [Log.records, Log.segments_map, List.flatMap_map]
  exact List.flatMap_congr fun c _ => (c.syncIf_spec name).2.1

/-- **An outage** leaves a front of the log, with all that is on stable storage. -/
theorem Holds.outage (h : w.Holds o l) (hi : l.Intact) (kept : Bytes → ℕ) :
    ∃ cs, Found (w.outage kept) o cs ∧ Settled cs ∧ (leftOf cs).Intact ∧
      (leftOf cs).records <+: l.records ∧
      (∀ p ∈ l.places, w.Stable p.record p.file p.frameEnd → p.record ∈ (leftOf cs).records) ∧
      ((∀ e ∈ w.files, e.2.bytes.length ≤ kept e.1) → (leftOf cs).records = l.records) := by
  have hactive : l.active ∈ l.segments := (mem_segments_iff l).2 (.inr rfl)
  have hclosed : ∀ c ∈ l.closed, c ∈ l.segments := fun c hc => (mem_segments_iff l).2 (.inl hc)
  obtain ⟨b, hnumber, hbytes, hsynced, hfront, htorn, hsize, hstable, hwhole⟩ :=
    Content.outage_active (o := o) (h.fits _ hactive) (hi.tails _ hactive) hi.header
      (kept (segmentName l.active.number))
  -- sealed segments are on stable storage, and the active one ends where the outage has cut it
  set done : List Content := l.closed.map fun c => { c with synced := c.size } with hdone
  have hleft : leftOf (done ++ [b]) = ⟨done, b.clean⟩ := by
    unfold leftOf
    rw [List.getLast?_concat]
    dsimp only
    rw [List.dropLast_concat]
  obtain ⟨-, hcleanRecords, hcleanTail, hcleanSize⟩ := b.clean_spec
  have hrecords : (leftOf (done ++ [b])).records =
      l.closed.flatMap Content.records ++ b.records := by
    rw [hleft, Log.records, Log.segments, List.flatMap_append, List.flatMap_singleton,
      hcleanRecords, hdone, List.flatMap_map]
  have hall_eq : l.records = l.closed.flatMap Content.records ++ l.active.records := by
    rw [Log.records, Log.segments, List.flatMap_append, List.flatMap_singleton]
  refine ⟨done ++ [b], ⟨?_, ?_, ?_, ?_, ?_⟩, ?_, ?_, ?_, ?_, ?_⟩
  · -- the files
    unfold Wal.outage
    rw [h.files, Log.segments, List.map_append, List.map_append, List.map_singleton,
      List.map_singleton, hdone, List.map_map]
    simp only [segmentFiles, List.map_append, List.map_map, List.map_singleton]
    refine congrArg₂ _ (List.map_congr_left fun c hc => ?_) ?_
    · simp only [Function.comp_apply, Content.entry]
      rw [Content.outage_closed (hi.tails c (hclosed c hc)) (hi.closed c hc)]
      rfl
    · simp only [Content.entry, hnumber, hbytes, hsynced]
  · rw [hdone, List.map_append, List.map_map, List.map_singleton, hnumber]
    have hnumbered := h.numbered
    rw [Log.segments, List.map_append, List.map_singleton] at hnumbered
    exact hnumbered
  · intro c hc
    rcases List.mem_append.1 hc with hc | hc
    · obtain ⟨c', hc', rfl⟩ := List.mem_map.1 hc
      exact h.fits c' (hclosed c' hc')
    · rw [List.mem_singleton.1 hc]
      exact fun r hr => h.fits _ hactive r (hfront.subset hr)
  · rw [List.dropLast_concat]
    intro c hc
    obtain ⟨c', hc', rfl⟩ := List.mem_map.1 hc
    exact hi.tails c' (hclosed c' hc')
  · intro c hc
    rcases List.mem_append.1 hc with hc | hc
    · obtain ⟨c', hc', rfl⟩ := List.mem_map.1 hc
      exact .inl (hi.tails c' (hclosed c' hc'))
    · rw [List.mem_singleton.1 hc]
      exact htorn
  · intro c hc _ _
    rcases List.mem_append.1 hc with hc | hc
    · obtain ⟨c', -, rfl⟩ := List.mem_map.1 hc
      exact le_rfl
    · rw [List.mem_singleton.1 hc]
      exact hsize
  · rw [hleft]
    refine ⟨fun c hc => ?_, fun c hc => ?_, ?_⟩
    · rcases (mem_segments_iff _).1 hc with hc | rfl
      · obtain ⟨c', hc', rfl⟩ := List.mem_map.1 hc
        exact hi.tails c' (hclosed c' hc')
      · exact hcleanTail
    · obtain ⟨c', -, rfl⟩ := List.mem_map.1 hc
      exact le_rfl
    · refine (Content.header_le_size b).trans ?_
      dsimp only
      unfold Content.clean
      split_ifs
      · exact hsize
      · exact le_rfl
  · rw [hrecords, hall_eq]
    exact (List.prefix_append_right_inj _).2 hfront
  · intro p hp hst
    obtain ⟨c, hc, hp⟩ := List.mem_flatMap.1 hp
    rw [hrecords, List.mem_append]
    rcases (mem_segments_iff l).1 hc with hc' | rfl
    · exact .inl (List.mem_flatMap.2 ⟨c, hc', Content.record_mem hp⟩)
    · exact .inr (hstable p hp ((h.stable_iff hc hp).1 hst))
  · intro hall
    rw [hrecords, hall_eq]
    refine congrArg (_ ++ ·) (hwhole ?_)
    obtain ⟨l₁, l₂, hfiles, -⟩ := List.lookup_eq_some_iff.1 (h.find hactive)
    refine hall (segmentName l.active.number, ⟨l.active.bytes o, l.active.synced⟩) ?_
    rw [hfiles]
    simp

/-! ### One operation -/

/-- What an operation makes of a log: it appends `r`, or takes segments away whose records have no
lsn above `upto`. -/
structure Follows (l l' : Log) (w' : Wal) (r : Option WalRecord) (upto : ℕ) : Prop where
  intact : l'.Intact
  active : l.active.number ≤ l'.active.number
  closed : ∀ c' ∈ l'.closed, ∃ c ∈ l.segments, c.number = c'.number
  places : ∀ p ∈ l'.places, p ∈ l.places ∨ ∃ q ∈ r, p = ⟨q, w'.activeFd.getD [], w'.activeBytes⟩
  records : l'.records.Sublist (l.records ++ r.toList)
  newer : (0 :: l.records.map WalRecord.lsn).Pairwise (· < ·) → ∀ n, upto ≤ n →
    l'.records.filter (n < ·.lsn) = (l.records ++ r.toList).filter (n < ·.lsn)

theorem follows_refl (hi : l.Intact) (w' : Wal) (upto : ℕ) : Follows l l w' none upto where
  intact := hi
  active := le_rfl
  closed c hc := ⟨c, (mem_segments_iff l).2 (.inl hc), rfl⟩
  places p hp := .inl hp
  records := by rw [Option.toList_none, List.append_nil]
  newer _ n _ := by rw [Option.toList_none, List.append_nil]

theorem Follows.mono {r : Option WalRecord} {n upto : ℕ} {l' : Log} (h : Follows l l' w' r n)
    (hle : n ≤ upto) : Follows l l' w' r upto :=
  { h with newer := fun hordered m hm => h.newer hordered m (hle.trans hm) }

theorem Holds.nextNumber (h : w.Holds o l) : w.nextNumber = l.active.number + 1 := by
  unfold Wal.nextNumber
  rw [h.segments, List.getLast?_concat]
  exact congrArg (· + 1) (segment_number _ _)

/-- An append throws for lack of a segment number only. -/
theorem Holds.append_returns (h : w.Holds o l) (hroom : w.nextNumber < 10 ^ 12) (r : WalRecord)
    (e : Exn) (w' : Wal) : w.append r none ≠ .error e w' := by
  obtain ⟨w₁, he, h₁, -⟩ := h.makeRoom (r := r) fun _ => h.nextNumber ▸ hroom
  unfold Wal.append
  rw [h.activeFd]
  dsimp only
  rw [he]
  dsimp only [Outcome.andThen]
  exact nofun

theorem Holds.follows_append {r : WalRecord} (h : w.Holds o l) (hi : l.Intact) (hr : r.Fits)
    (hroom : w.nextNumber < 10 ^ 12) (ha : w.append r none = .ok () w') (upto : ℕ) :
    ∃ l', w'.Holds o l' ∧ Follows l l' w' (some r) upto := by
  obtain ⟨w₁, he, h₁, -⟩ := h.append hr fun _ => h.nextNumber ▸ hroom
  rw [he] at ha
  cases ha
  have hrecords : ((l.makeRoom w.segMax r).push r).records = l.records ++ [r] := by
    rw [Log.records_push, Log.records_makeRoom]
  refine ⟨_, h₁, (hi.makeRoom w.segMax r).push r, ?_, fun c hc => ?_, fun p hp => ?_, ?_, ?_⟩
  · unfold Log.makeRoom
    split_ifs
    · exact Nat.le_succ _
    · exact le_rfl
  · unfold Log.makeRoom at hc
    split_ifs at hc
    · rcases List.mem_append.1 hc with hc | hc
      · exact ⟨c, (mem_segments_iff l).2 (.inl hc), rfl⟩
      · rw [List.mem_singleton.1 hc]
        exact ⟨l.active, (mem_segments_iff l).2 (.inr rfl), rfl⟩
    · exact ⟨c, (mem_segments_iff l).2 (.inl hc), rfl⟩
  · rw [Log.places_push, Log.places_makeRoom, List.mem_append, List.mem_singleton] at hp
    refine hp.imp_right fun hp => ⟨r, rfl, hp.trans ?_⟩
    rw [h₁.activeFd, h₁.activeBytes]
    rfl
  · rw [hrecords]
    exact List.Sublist.refl _
  · intro _ n _
    rw [hrecords]
    rfl

theorem Holds.follows_sync (h : w.Holds o l) (hi : l.Intact) (name : Bytes) (upto : ℕ) :
    ∃ l', (w.syncFile name).Holds o l' ∧ Follows l l' (w.syncFile name) none upto := by
  refine ⟨_, h.syncIf name, hi.syncIf name, ?_, fun c hc => ?_, fun p hp => ?_, ?_, ?_⟩
  · exact (l.active.syncIf_spec name).1.ge
  · obtain ⟨b, hb, rfl⟩ := List.mem_map.1 hc
    exact ⟨b, (mem_segments_iff l).2 (.inl hb), (b.syncIf_spec name).1.symm⟩
  · exact .inl (places_syncIf l name ▸ hp)
  · rw [records_syncIf, Option.toList_none, List.append_nil]
  · intro _ n _
    rw [records_syncIf, Option.toList_none, List.append_nil]

theorem Holds.follows_truncate (h : w.Holds o l) (hi : l.Intact) {upto : ℕ}
    (ht : w.truncate upto = .ok () w') : ∃ l', w'.Holds o l' ∧ Follows l l' w' none upto := by
  obtain ⟨w₁, he, h₁, -⟩ := h.truncate upto
  rw [he] at ht
  cases ht
  have hsub : (l.truncate upto).segments.Sublist l.segments :=
    (List.filter_sublist ..).append (List.Sublist.refl _)
  refine ⟨_, h₁, hi.truncate upto, le_rfl, fun c hc => ?_, fun p hp => ?_, ?_, ?_⟩
  · exact ⟨c, (mem_segments_iff l).2 (.inl (List.mem_of_mem_filter hc)), rfl⟩
  · obtain ⟨c, hc, hp⟩ := List.mem_flatMap.1 hp
    exact .inl (List.mem_flatMap.2 ⟨c, hsub.subset hc, hp⟩)
  · rw [Option.toList_none, List.append_nil]
    exact hsub.flatMap _
  · intro hordered n hn
    rw [Option.toList_none, List.append_nil]
    -- what is taken away has no lsn above `upto`
    have hgone : ∀ c ∈ l.closed, Log.Covered upto c → c.records.filter (n < ·.lsn) = [] := by
      intro c hc hcovered
      have hsublist : (0 :: c.records.map WalRecord.lsn).Sublist
          (0 :: l.records.map WalRecord.lsn) := by
        refine (List.Sublist.map _ ?_).cons_cons 0
        exact List.sublist_flatten_of_mem
          (List.mem_map_of_mem ((mem_segments_iff l).2 (.inl hc)))
      obtain ⟨-, hall⟩ := (Journal.covered_iff (hordered.sublist hsublist)).1 hcovered
      refine List.filter_eq_nil_iff.2 fun r hr => ?_
      simpa using (hall r hr).trans hn
    have hclosed : ∀ cs : List Content, (∀ c ∈ cs, c ∈ l.closed) →
        ((cs.filter fun c => ¬ Log.Covered upto c).flatMap Content.records).filter (n < ·.lsn) =
          (cs.flatMap Content.records).filter (n < ·.lsn) := by
      intro cs
      induction cs with
      | nil => exact fun _ => rfl
      | cons c cs ih =>
        intro hmem
        obtain ⟨hc, hcs⟩ := List.forall_mem_cons.1 hmem
        by_cases hcovered : Log.Covered upto c
        · rw [List.filter_cons_of_neg (by simpa using hcovered), ih hcs, List.flatMap_cons,
            List.filter_append, hgone c hc hcovered, List.nil_append]
        · rw [List.filter_cons_of_pos (by simpa using hcovered), List.flatMap_cons,
            List.flatMap_cons, List.filter_append, List.filter_append, ih hcs]
    simp only [Log.records, Log.segments, Log.truncate, List.flatMap_append, List.filter_append]
    rw [hclosed l.closed fun c hc => hc]

end Wal

end Vdb
