import Vdb.Wal.Stable
import Vdb.Wal.Replay

/-!
# The log a process finds

`Wal.Found` says that a directory holds the segments of a log, of which the last one may end in a
torn tail; `leftOf` is the log that `open` and `replay` make of it.  The files are read, and only a
torn tail that is cut off brings anything to stable storage.

* `Found.reopen_spec` : a reopening applies the records of this log, and leaves it.
* `Found.stable_iff` : its records are all on stable storage if and only if they were before, or are
  in front of a torn tail.
-/

namespace Vdb

/-- A record of a log, in this file, its frame ending there. -/
structure Place where
  record : WalRecord
  file : Bytes
  frameEnd : ℕ

/-- The places of some records, one behind the other from `n` on. -/
def placesFrom (file : Bytes) : ℕ → List WalRecord → List Place
  | _, [] => []
  | n, r :: rs =>
    ⟨r, file, n + (encodeRecord r).length⟩ :: placesFrom file (n + (encodeRecord r).length) rs

theorem mem_placesFrom {file : Bytes} {p : Place} {rs : List WalRecord} {n : ℕ} :
    p ∈ placesFrom file n rs ↔
      p.file = file ∧ ∃ pre rest, rs = pre ++ p.record :: rest ∧
        p.frameEnd = n + (frames (pre ++ [p.record])).length := by
  induction rs generalizing n with
  | nil => simp [placesFrom]
  | cons r rs ih =>
    rw [placesFrom, List.mem_cons, ih]
    constructor
    · rintro (rfl | ⟨hfile, pre, rest, rfl, hend⟩)
      · exact ⟨rfl, [], rs, rfl, by simp [frames]⟩
      · refine ⟨hfile, r :: pre, rest, rfl, ?_⟩
        rw [hend]
        simp [frames, Nat.add_assoc]
    · rintro ⟨hfile, pre, rest, hrs, hend⟩
      cases pre with
      | nil =>
        refine .inl ?_
        obtain ⟨record, f, e⟩ := p
        obtain rfl : f = file := hfile
        obtain ⟨rfl, -⟩ := List.cons.inj hrs
        simpa [frames] using hend
      | cons s pre =>
        obtain ⟨rfl, hrest⟩ := List.cons.inj hrs
        refine .inr ⟨hfile, pre, rest, hrest, ?_⟩
        rw [hend]
        simp [frames, Nat.add_assoc]

/-- The places of the records of a segment. -/
def Content.places (c : Content) : List Place :=
  placesFrom (segmentName c.number) walHeaderSize c.records

def Log.places (l : Log) : List Place := l.segments.flatMap Content.places

/-- The log that `open` and `replay` make of these segments. -/
def leftOf (cs : List Content) : Log :=
  match cs.getLast? with
  | none => Wal.firstLog
  | some a => ⟨cs.dropLast, a.clean⟩

/-- The segments of which every record is on stable storage, or in front of a torn tail. -/
def Settled (cs : List Content) : Prop :=
  ∀ c ∈ cs, c.records ≠ [] → c.tail = [] → c.size ≤ c.synced

namespace Content

variable {c : Content} {p : Place}

theorem clean_spec (c : Content) : c.clean.number = c.number ∧ c.clean.records = c.records ∧
    c.clean.tail = [] ∧ c.clean.size = c.size := by
  unfold clean
  split_ifs with htail
  · exact ⟨rfl, rfl, htail, rfl⟩
  · exact ⟨rfl, rfl, rfl, rfl⟩

/-- The frames end within the segment. -/
theorem frameEnd_le (h : p ∈ c.places) : p.frameEnd ≤ c.size := by
  obtain ⟨-, pre, rest, hrs, hend⟩ := mem_placesFrom.1 h
  have hframes : frames c.records = frames (pre ++ [p.record]) ++ frames rest := by
    rw [hrs, ← frames_append, List.append_assoc, List.singleton_append]
  rw [hend, size, hframes, List.length_append]
  omega

theorem record_mem (h : p ∈ c.places) : p.record ∈ c.records := by
  obtain ⟨-, pre, rest, hrs, -⟩ := mem_placesFrom.1 h
  rw [hrs]
  simp

/-- The last frame ends where the segment does. -/
theorem exists_last (h : c.records ≠ []) : ∃ p ∈ c.places, p.frameEnd = c.size := by
  have hsplit := List.dropLast_append_getLast h
  refine ⟨⟨c.records.getLast h, segmentName c.number, c.size⟩, mem_placesFrom.2
    ⟨rfl, c.records.dropLast, [], hsplit.symm, ?_⟩, rfl⟩
  dsimp only
  rw [hsplit]
  rfl

end Content

namespace Wal

variable {σ : Type} {w w' : Wal} {o : Opener} {l : Log} {c : Content} {p : Place}

/-- The files of these segments, of which the last one may end in a torn tail. -/
structure Found (files : Dir) (o : Opener) (cs : List Content) : Prop where
  files : files = segmentFiles (cs.map (Content.entry o))
  numbered : Numbered (cs.map Content.number)
  fits : ∀ c ∈ cs, ∀ r ∈ c.records, r.Fits
  closed : ∀ c ∈ cs.dropLast, c.tail = []
  torn : ∀ c ∈ cs, c.tail = [] ∨ Torn c.tail

theorem Holds.find (h : w.Holds o l) (hc : c ∈ l.segments) :
    w.files.find (segmentName c.number) = some ⟨c.bytes o, c.synced⟩ := by
  rw [h.files]
  refine Dir.find_segmentFiles ?_ (List.mem_map_of_mem (f := Content.entry o) hc)
  rw [entries_number]
  exact h.numbered

theorem mem_segments_iff (l : Log) : c ∈ l.segments ↔ c ∈ l.closed ∨ c = l.active := by
  rw [Log.segments, List.mem_append, List.mem_singleton]

theorem map_segments (h : w.Holds o l) :
    w.segments.map (fun s => segmentName s.number) =
      l.segments.map fun c => segmentName c.number := by
  rw [h.segments, Log.segments, List.map_append, List.map_append, List.map_map]
  simp only [Function.comp_def, segment_number, List.map_cons, List.map_nil]

/-- Distinct segments have distinct files. -/
theorem Holds.nodup_names (h : w.Holds o l) :
    (l.segments.map fun c => segmentName c.number).Nodup := by
  have hinj : ∀ m ∈ l.segments.map Content.number, ∀ n ∈ l.segments.map Content.number,
      segmentName m = segmentName n → m = n := fun m hm n hn =>
    segmentName_inj (h.numbered.short m hm) (h.numbered.short n hn)
  have hnodup : (l.segments.map Content.number).Nodup := h.numbered.increasing.imp fun h => h.ne
  have hnames := List.Nodup.map_on hinj hnodup
  rwa [List.map_map] at hnames

theorem Holds.laid (h : w.Holds o l) : w.Laid where
  active name hact := by
    cases h.activeFd.symm.trans hact
    have hlen : (encodeHeader o ++ frames l.active.records).length = l.active.size := by
      rw [List.length_append, length_encodeHeader]
      rfl
    refine ⟨_, l.active.records, h.find ((mem_segments_iff l).2 (.inr rfl)), ?_, ?_⟩
    · rw [h.activeBytes, Content.bytes, ← List.append_assoc, List.length_append, hlen]
      exact Nat.le_add_right ..
    · rw [h.activeBytes, h.opener, Content.bytes, ← List.append_assoc, ← hlen, List.take_left]
  last name hact := by
    cases h.activeFd.symm.trans hact
    refine ⟨l.active.segment false, ?_, ?_⟩
    · rw [h.segments, List.getLast?_concat]
    · rw [segment_number]
  nodup := (map_segments h).symm ▸ h.nodup_names
  found s hs := by
    have hname : segmentName s.number ∈ l.segments.map fun c => segmentName c.number :=
      map_segments h ▸ List.mem_map_of_mem (f := fun s => segmentName s.number) hs
    obtain ⟨c, hc, hcn⟩ := List.mem_map.1 hname
    rw [← hcn, h.find hc]
    rfl

/-- A place of the log is located there. -/
theorem Holds.located (h : w.Holds o l) (hc : c ∈ l.segments) (hp : p ∈ c.places) :
    w.Located p.record p.file ⟨c.bytes o, c.synced⟩ p.frameEnd := by
  obtain ⟨hfile, pre, rest, hrs, hend⟩ := mem_placesFrom.1 hp
  have hlen : (encodeHeader o ++ frames (pre ++ [p.record])).length = p.frameEnd := by
    rw [hend, List.length_append, length_encodeHeader]
    rfl
  have hbytes : c.bytes o =
      (encodeHeader o ++ frames (pre ++ [p.record])) ++ (frames rest ++ c.tail) := by
    rw [Content.bytes, hrs, List.append_cons, frames_append]
    simp only [List.append_assoc]
  refine ⟨hfile ▸ h.find hc, ?_, ⟨pre, ?_⟩, fun hact => ?_⟩
  · rw [hbytes, List.length_append, hlen]
    exact Nat.le_add_right ..
  · rw [hbytes, h.opener, ← hlen, List.take_left]
  · -- the file that is written to is that of the last segment
    rw [h.activeFd, hfile] at hact
    have hsame : c = l.active := by
      have hnodup := h.nodup_names
      exact List.inj_on_of_nodup_map hnodup hc ((mem_segments_iff l).2 (.inr rfl))
        (Option.some.inj hact).symm
    rw [h.activeBytes, ← hsame]
    exact Content.frameEnd_le hp

/-- What the file of a place has on stable storage. -/
theorem Holds.stable_iff (h : w.Holds o l) (hc : c ∈ l.segments) (hp : p ∈ c.places) :
    w.Stable p.record p.file p.frameEnd ↔ p.frameEnd ≤ c.synced := by
  have hloc := h.located hc hp
  constructor
  · rintro ⟨f, hl, hn⟩
    cases hloc.find.symm.trans hl.find
    exact hn
  · exact fun hn => ⟨_, hloc, hn⟩

variable {files : Dir} {cs : List Content} {dir : Bytes} {segMax : ℕ}
  {onRecord : WalRecord → σ → Outcome σ Unit} {user user' : σ}

/-- **A reopening** does what the records do that are left. -/
theorem Found.reopen_spec (h : Found files o cs) (dir : Bytes) (segMax : ℕ)
    (onRecord : WalRecord → σ → Outcome σ Unit) (user : σ) :
    (∀ user', applyAll onRecord ((leftOf cs).records.map WalRecord.carried) user = .ok () user' →
      ∃ w, reopen onRecord files dir o segMax user = .ok () (w, user') ∧ w.Holds o (leftOf cs) ∧
        w.highestLsn = (leftOf cs).records.foldl (fun m r => max m r.lsn) 0) ∧
      ∀ e user', applyAll onRecord ((leftOf cs).records.map WalRecord.carried) user =
      .error e user' →
        ∃ s, reopen onRecord files dir o segMax user = .error e s := by
  -- without a segment a first one is created; else the last one may have a torn tail
  unfold leftOf
  cases hlast : cs.getLast? with
  | none =>
    rw [List.getLast?_eq_none_iff] at hlast
    subst hlast
    obtain ⟨w', hw', hholds, -, -, hhigh⟩ := reopen_empty dir segMax onRecord o user
    have hfiles : files = [] := h.files
    rw [hfiles]
    refine ⟨fun user' he => ?_, fun e user' he => ?_⟩
    · cases he
      exact ⟨w', hw', hholds, hhigh⟩
    · cases he
  | some a =>
    have hsplit : cs.dropLast ++ [a] = cs := List.dropLast_append_getLast? a hlast
    have hstored : Stored files o ⟨cs.dropLast, a⟩ := by
      refine ⟨?_, ?_, ?_⟩
      · rw [Log.segments, hsplit]
        exact h.files
      · rw [Log.segments, hsplit]
        exact h.numbered
      · rw [Log.segments, hsplit]
        exact h.fits
    have htail := h.torn a (List.mem_of_getLast? hlast)
    have hrecords : (Log.mk cs.dropLast a.clean).records = (Log.mk cs.dropLast a).records := by
      simp only [Log.records, Log.segments, List.flatMap_append, List.flatMap_cons,
        List.flatMap_nil,
        a.clean_spec.2.1]
    dsimp only
    rw [hrecords]
    refine ⟨fun user' he => ?_, fun e user' he => ?_⟩
    · obtain ⟨w', hw', hholds, -, -, hhigh⟩ := hstored.reopen dir segMax h.closed htail he
      exact ⟨w', hw', hholds, hhigh⟩
    · obtain ⟨s, hs, -⟩ := hstored.reopen_error dir segMax h.closed htail he
      exact ⟨s, hs⟩

/-- A reopening that returns leaves this log, has noted its records and has applied them. -/
theorem Found.reopen_ok (h : Found files o cs)
    (hr : reopen onRecord files dir o segMax user = .ok () (w, user')) :
    w.Holds o (leftOf cs) ∧ w.highestLsn = (leftOf cs).records.foldl (fun m r => max m r.lsn) 0 ∧
      applyAll onRecord ((leftOf cs).records.map WalRecord.carried) user = .ok () user' := by
  obtain ⟨hok, herror⟩ := h.reopen_spec dir segMax onRecord user
  cases he : applyAll onRecord ((leftOf cs).records.map WalRecord.carried) user with
  | ok _ user₁ =>
    obtain ⟨w', hw', hholds, hhigh⟩ := hok user₁ he
    rw [hw'] at hr
    cases hr
    exact ⟨hholds, hhigh, rfl⟩
  | error e user₁ =>
    obtain ⟨s, hs⟩ := herror e user₁ he
    rw [hs] at hr
    cases hr

/-- A reopening throws what a record throws. -/
theorem Found.reopen_error (h : Found files o cs) {e : Exn} {s : Wal × σ}
    (hr : reopen onRecord files dir o segMax user = .error e s) :
    ∃ user', applyAll onRecord ((leftOf cs).records.map WalRecord.carried) user =
      .error e user' := by
  obtain ⟨hok, herror⟩ := h.reopen_spec dir segMax onRecord user
  cases he : applyAll onRecord ((leftOf cs).records.map WalRecord.carried) user with
  | ok _ user₁ =>
    obtain ⟨w', hw', -⟩ := hok user₁ he
    rw [hw'] at hr
    cases hr
  | error e' user₁ =>
    obtain ⟨s', hs⟩ := herror e' user₁ he
    rw [hs] at hr
    cases hr
    exact ⟨user₁, rfl⟩

/-- A segment of the log that is left. -/
theorem mem_leftOf (hclosed : ∀ c ∈ cs.dropLast, c.tail = []) (hne : cs ≠ []) :
    c ∈ (leftOf cs).segments ↔ ∃ b ∈ cs, c = b.clean := by
  have ha : cs.getLast? = some (cs.getLast hne) := List.getLast?_eq_some_getLast hne
  generalize cs.getLast hne = a at ha
  have hsplit : cs.dropLast ++ [a] = cs := List.dropLast_append_getLast? a ha
  have hself : ∀ b ∈ cs.dropLast, b.clean = b := fun b hb => if_pos (hclosed b hb)
  unfold leftOf
  rw [ha, mem_segments_iff]
  constructor
  · rintro (hc | rfl)
    · exact ⟨c, List.dropLast_subset cs hc, (hself c hc).symm⟩
    · exact ⟨a, List.mem_of_getLast? ha, rfl⟩
  · rintro ⟨b, hb, rfl⟩
    rw [← hsplit, List.mem_append, List.mem_singleton] at hb
    rcases hb with hb | rfl
    · exact .inl ((hself b hb).symm ▸ hb)
    · exact .inr rfl

/-- **The records found are on stable storage** if and only if they were, or are in front of a torn
tail. -/
theorem Found.stable_iff (h : Found files o cs) (hw : w.Holds o (leftOf cs)) :
    (∀ p ∈ (leftOf cs).places, w.Stable p.record p.file p.frameEnd) ↔ Settled cs := by
  by_cases hne : cs = []
  · subst hne
    refine ⟨fun _ c hc => absurd hc List.not_mem_nil, fun _ p hp => ?_⟩
    have hnone : (leftOf []).places = [] := rfl
    rw [hnone] at hp
    cases hp
  constructor
  · intro hstable b hb hrecords htail
    have hself : b.clean = b := if_pos htail
    have hc : b ∈ (leftOf cs).segments := (mem_leftOf h.closed hne).2 ⟨b, hb, hself.symm⟩
    obtain ⟨p, hp, hend⟩ := Content.exists_last hrecords
    have hst := hstable p (List.mem_flatMap.2 ⟨b, hc, hp⟩)
    exact hend ▸ (hw.stable_iff hc hp).1 hst
  · intro hsettled p hp
    obtain ⟨c, hc, hp⟩ := List.mem_flatMap.1 hp
    refine (hw.stable_iff hc hp).2 ((Content.frameEnd_le hp).trans ?_)
    obtain ⟨b, hb, rfl⟩ := (mem_leftOf h.closed hne).1 hc
    have hrecords : b.records ≠ [] := by
      have hmem := Content.record_mem hp
      rw [b.clean_spec.2.1] at hmem
      exact List.ne_nil_of_mem hmem
    by_cases htail : b.tail = []
    · rw [show b.clean = b from if_pos htail]
      exact hsettled b hb hrecords htail
    · rw [show b.clean = { b with tail := [], synced := b.size } from if_neg htail]
      exact le_rfl

end Wal

end Vdb
