import Vdb.Wal.Contents

/-!
# Opening a log and replaying it

A directory of segments is opened and replayed segment by segment; `Holds.replay` says what the
callback sees and which log is left.
-/

namespace Vdb

variable {σ : Type}

/-- Apply the callback to the records in order. -/
def applyAll (onRecord : WalRecord → σ → Outcome σ Unit) : List WalRecord → σ → Outcome σ Unit
  | [], user => .ok () user
  | r :: rs, user => (onRecord r user).andThen fun _ user => applyAll onRecord rs user

theorem applyAll_append (onRecord : WalRecord → σ → Outcome σ Unit) (rs ss : List WalRecord)
    (user : σ) : applyAll onRecord (rs ++ ss) user =
      (applyAll onRecord rs user).andThen fun _ user => applyAll onRecord ss user := by
  induction rs generalizing user with
  | nil => rfl
  | cons r rs ih =>
    rw [List.cons_append, applyAll, applyAll]
    cases onRecord r user with
    | error e user => rfl
    | ok _ user => exact ih user

theorem applyAll_collect (rs : List WalRecord) (user : List WalRecord) :
    applyAll Wal.collect rs user = .ok () (user ++ rs) := by
  induction rs generalizing user with
  | nil => simp [applyAll]
  | cons r rs ih =>
    rw [applyAll, Wal.collect]
    exact (ih _).trans (by simp)

/-- No record is read off the bytes. -/
def Torn (tail : Bytes) : Prop := ∀ r n, decodeRecord tail ≠ .ok r n

namespace Wal

variable {w w' : Wal} {o : Opener} {l : Log} {c : Content} {r : WalRecord}
  {onRecord : WalRecord → σ → Outcome σ Unit}

/-- Note some records of the segment number `si` of the list. -/
def noteAll (w : Wal) (si : ℕ) (rs : List WalRecord) : Wal :=
  rs.foldl (fun w r => w.note si r.lsn) w

/-- The scan reads the records of a segment one after the other. -/
theorem scan_frames (si : ℕ) {n : ℕ} {bytes pre rest : Bytes} {rs : List WalRecord} {user : σ}
    (hfit : ∀ r ∈ rs, r.Fits) (hbytes : bytes = pre ++ (frames rs ++ rest)) (hn : rs.length ≤ n) :
    (∀ user', applyAll onRecord (rs.map WalRecord.carried) user = .ok () user' →
      scan onRecord si bytes n ⟨w, user, pre.length⟩ =
        scan onRecord si bytes (n - rs.length)
          ⟨w.noteAll si rs, user', (pre ++ frames rs).length⟩) ∧
    ∀ e user', applyAll onRecord (rs.map WalRecord.carried) user = .error e user' →
      ∃ s, scan onRecord si bytes n ⟨w, user, pre.length⟩ = .error e s ∧ s.user = user' := by
  -- a record is read behind those that have been read, which are in front of the offset
  induction rs generalizing n w user pre with
  | nil =>
    refine ⟨fun user' he => ?_, fun e user' he => ?_⟩
    · cases he
      simp [frames, noteAll]
    · cases he
  | cons r rs ih =>
    cases n with
    | zero => simp at hn
    | succ n =>
      have hr := hfit r List.mem_cons_self
      have hframe : frames (r :: rs) = encodeRecord r ++ frames rs := rfl
      have hpos : 0 < (encodeRecord r).length := by
        rw [length_encodeRecord]
        omega
      have hlt : ¬ bytes.length ≤ pre.length := by
        rw [hbytes, hframe]
        simp only [List.length_append]
        omega
      have hdec : decodeRecord (bytes.drop pre.length) =
          .ok r.carried (encodeRecord r).length := by
        rw [hbytes, List.drop_left, hframe, List.append_assoc, decodeRecord_encodeRecord hr]
      have hpre : pre.length + (encodeRecord r).length = (pre ++ encodeRecord r).length := by simp
      have hih := fun user => @ih (w.note si r.lsn) n (pre ++ encodeRecord r) user
      have hbytes' : bytes = (pre ++ encodeRecord r) ++ (frames rs ++ rest) := by
        rw [hbytes, hframe]
        simp
      rw [scan, if_neg hlt, hdec]
      dsimp only
      rw [List.map_cons, applyAll]
      cases ho : onRecord r.carried user with
      | error e user₁ =>
        refine ⟨fun user' he => ?_, fun e' user' he => ?_⟩
        · cases he
        · cases he
          exact ⟨_, rfl, rfl⟩
      | ok _ user₁ =>
        obtain ⟨hok, herr⟩ := hih user₁ (fun s hs => hfit s (List.mem_cons_of_mem _ hs))
          hbytes' (Nat.le_of_succ_le_succ hn)
        refine ⟨fun user' he => ?_, fun e user' he => ?_⟩
        · rw [hpre]
          refine (hok user' he).trans ?_
          rw [hframe, List.append_assoc, List.length_cons, Nat.succ_sub_succ]
          rfl
        · rw [hpre]
          exact herr e user' he

theorem scan_end {si n : ℕ} {bytes : Bytes} {s : Scan σ} (h : bytes.length ≤ s.off) :
    scan onRecord si bytes n s = .ok false s := by
  cases n with
  | zero => rfl
  | succ n => rw [scan, if_pos h]

theorem scan_torn {si n : ℕ} {bytes : Bytes} {s : Scan σ} (h : s.off < bytes.length)
    (ht : Torn (bytes.drop s.off)) (hn : 0 < n) : scan onRecord si bytes n s = .ok true s := by
  obtain ⟨n, rfl⟩ := Nat.exists_eq_succ_of_ne_zero hn.ne'
  rw [scan, if_neg (Nat.not_le.2 h)]
  cases hd : decodeRecord (bytes.drop s.off) with
  | ok r k => exact absurd hd (ht r k)
  | incomplete => rfl
  | badCrc => rfl

theorem length_le_frames (rs : List WalRecord) : rs.length ≤ (frames rs).length := by
  induction rs with
  | nil => exact le_rfl
  | cons r rs ih =>
    have hframe : frames (r :: rs) = encodeRecord r ++ frames rs := rfl
    have := length_encodeRecord r
    rw [hframe, List.length_append, List.length_cons]
    omega

/-- A header is read back. -/
theorem decodeHeader_bytes (o : Opener) (rest : Bytes) :
    ∃ h, decodeHeader (encodeHeader o ++ rest) = some h ∧ h.dim = o.dim.toNat ∧
      h.metric = o.metric.toNat ∧ h.schemaFp = o.schemaFp.toNat := by
  have hdim : getNat (putNat 4 o.dim.toNat) = o.dim.toNat := getNat_putNat_of_lt o.dim.toNat_lt
  have hmetric : getNat (putNat 1 o.metric.toNat) = o.metric.toNat :=
    getNat_putNat_of_lt o.metric.toNat_lt
  have hfp : getNat (putNat 8 o.schemaFp.toNat) = o.schemaFp.toNat :=
    getNat_putNat_of_lt o.schemaFp.toNat_lt
  have hlayout : encodeHeader o ++ rest = putNat 4 0x56444257 ++ (putNat 2 2 ++
      (putNat 4 o.dim.toNat ++ (putNat 1 o.metric.toNat ++ (putNat 8 o.schemaFp.toNat ++
        (List.replicate 13 0 ++ rest))))) := by
    simp [encodeHeader, walHeaderSize]
  refine ⟨⟨0x56444257, 2, o.dim.toNat, o.metric.toNat, o.schemaFp.toNat⟩, ?_, rfl, rfl, rfl⟩
  have hlen : ¬ (encodeHeader o ++ rest).length < walHeaderSize := by simp [walHeaderSize]
  unfold decodeHeader
  rw [if_neg hlen, hlayout]
  have htake : ∀ (w n : ℕ) (rest : Bytes), (putNat w n ++ rest).take w = putNat w n :=
    fun w n _ => List.take_left' (length_putNat w n)
  have hdrop : ∀ (w n k : ℕ) (rest : Bytes), (putNat w n ++ rest).drop (w + k) = rest.drop k := by
    intro w n k rest
    rw [← List.drop_drop, List.drop_left' (length_putNat w n)]
  dsimp only
  rw [htake, show (6 : ℕ) = 4 + (2 + 0) from rfl, show (10 : ℕ) = 4 + (2 + (4 + 0)) from rfl,
    show (11 : ℕ) = 4 + (2 + (4 + (1 + 0))) from rfl, hdrop, hdrop, hdrop, hdrop, hdrop,
      hdrop, hdrop,
    hdrop, hdrop]
  simp only [List.drop_zero, htake, hdim, hmetric, hfp]
  rfl

/-- What a segment is replayed to. -/
theorem replaySegment_ok {si : ℕ} {user user' : σ} (ho : w.opener = o)
    (hnumber : (w.segments.getD si { number := 0 }).number = c.number)
    (hfind : w.files.find (segmentName c.number) = some ⟨c.bytes o, c.synced⟩)
    (hfit : ∀ r ∈ c.records, r.Fits) (htail : c.tail = [] ∨ Torn c.tail)
    (he : applyAll onRecord (c.records.map WalRecord.carried) user = .ok () user') :
    replaySegment onRecord si w user =
      endScan c.number (si + 1 = w.segments.length) (c.bytes o).length (c.tail ≠ [])
        ⟨w.noteAll si c.records, user', c.size⟩ := by
  obtain ⟨h, hheader, hdim, hmetric, -⟩ := decodeHeader_bytes o (frames c.records ++ c.tail)
  have hlen : (encodeHeader o ++ frames c.records).length = c.size := by
    rw [List.length_append, length_encodeHeader]
    rfl
  have hbytes : (c.bytes o).length = c.size + c.tail.length := by
    rw [Content.bytes, ← List.append_assoc, List.length_append, hlen]
  have hle := length_le_frames c.records
  have hsize : c.size = 32 + (frames c.records).length := rfl
  have hlayout : c.bytes o = encodeHeader o ++ (frames c.records ++ c.tail) := rfl
  have hscan := (scan_frames (w := w) si hfit hlayout (n := (c.bytes o).length)
    (by omega)).1 user' he
  rw [show (encodeHeader o).length = walHeaderSize from length_encodeHeader o, hlen] at hscan
  unfold replaySegment
  dsimp only
  rw [hnumber, hfind]
  dsimp only
  rw [show decodeHeader (c.bytes o) = some h from hheader]
  dsimp only
  rw [if_neg (by simp [hdim, hmetric, ho])]
  by_cases hnil : c.tail = []
  · rw [hscan, scan_end (by simp [hbytes, hnil]), hnil]
    simp
  · have hdrop : (c.bytes o).drop c.size = c.tail := by
      rw [Content.bytes, ← List.append_assoc, ← hlen, List.drop_left]
    have hpos : 0 < c.tail.length := List.length_pos_iff.2 hnil
    rw [hscan, scan_torn (by rw [hbytes]; exact Nat.lt_add_of_pos_right hpos)
      (hdrop ▸ htail.resolve_left hnil) (by omega)]
    simp [hnil]

/-- The callback throws. -/
theorem replaySegment_error {si : ℕ} {user user' : σ} {e : Exn} (ho : w.opener = o)
    (hnumber : (w.segments.getD si { number := 0 }).number = c.number)
    (hfind : w.files.find (segmentName c.number) = some ⟨c.bytes o, c.synced⟩)
    (hfit : ∀ r ∈ c.records, r.Fits)
    (he : applyAll onRecord (c.records.map WalRecord.carried) user = .error e user') :
    ∃ s, replaySegment onRecord si w user = .error e s ∧ s.2 = user' := by
  obtain ⟨h, hheader, hdim, hmetric, -⟩ := decodeHeader_bytes o (frames c.records ++ c.tail)
  have hle := length_le_frames c.records
  have hbytes : (c.bytes o).length = 32 + ((frames c.records).length + c.tail.length) := by
    simp [Content.bytes]
  have hlayout : c.bytes o = encodeHeader o ++ (frames c.records ++ c.tail) := rfl
  obtain ⟨s, hscan, hs⟩ := (scan_frames (w := w) si hfit hlayout
    (n := (c.bytes o).length) (by omega)).2 e user' he
  rw [show (encodeHeader o).length = walHeaderSize from length_encodeHeader o] at hscan
  unfold replaySegment
  dsimp only
  rw [hnumber, hfind]
  dsimp only
  rw [show decodeHeader (c.bytes o) = some h from hheader]
  dsimp only
  rw [if_neg (by simp [hdim, hmetric, ho])]
  rw [hscan]
  exact ⟨_, rfl, hs⟩

/-! ### A whole log -/

/-- A segment of which nothing is known yet. -/
def unread (isSealed : Bool) (c : Content) : Segment := { number := c.number, isSealed }

/-- A log whose first segments `done` have been replayed, the others `todo` not yet. -/
structure Replaying (w : Wal) (o : Opener) (done todo : List Content) (a : Content) : Prop where
  opener : w.opener = o
  files : w.files = segmentFiles ((done ++ todo ++ [a]).map (Content.entry o))
  segments : w.segments =
    done.map (Content.segment true) ++ (todo.map (unread true) ++ [unread false a])
  numbered : Numbered ((done ++ todo ++ [a]).map Content.number)
  activeFd : w.activeFd = some (segmentName a.number)
  fits : ∀ c ∈ done ++ todo ++ [a], ∀ r ∈ c.records, r.Fits

theorem noteAll_rest (w : Wal) (si : ℕ) (rs : List WalRecord) :
    w.noteAll si rs = { w with
      segments := w.segments.modify si fun s => rs.foldl (fun s r => s.note r.lsn) s
      highestLsn := rs.foldl (fun m r => max m r.lsn) w.highestLsn } := by
  induction rs generalizing w with
  | nil =>
    change w = { w with segments := w.segments.modify si id }
    rw [List.modify_id]
  | cons r rs ih =>
    refine (ih (w.note si r.lsn)).trans ?_
    simp [note, List.modify_modify_eq, Function.comp_def]

theorem modify_mid {α : Type} (l : List α) (a : α) (m : List α) (f : α → α) :
    (l ++ a :: m).modify l.length f = l ++ f a :: m := by
  induction l with
  | nil => rfl
  | cons b l ih => exact congrArg (b :: ·) ih

theorem getD_mid {α : Type} (l : List α) (a : α) (m : List α) (d : α) :
    (l ++ a :: m).getD l.length d = a := by
  simp

variable {done todo : List Content} {a : Content} {user user' : σ}

theorem Replaying.find (h : w.Replaying o done todo a) (hc : c ∈ done ++ todo ++ [a]) :
    w.files.find (segmentName c.number) = some ⟨c.bytes o, c.synced⟩ := by
  rw [h.files]
  refine Dir.find_segmentFiles ?_ (List.mem_map_of_mem (f := Content.entry o) hc)
  rw [entries_number]
  exact h.numbered

/-- A segment that is not the last is replayed. -/
theorem Replaying.closed (h : w.Replaying o done (c :: todo) a) (htail : c.tail = [])
    (onRecord : WalRecord → σ → Outcome σ Unit) (user : σ) :
    (∀ user', applyAll onRecord (c.records.map WalRecord.carried) user = .ok () user' →
      ∃ w', replaySegment onRecord done.length w user = .ok () (w', user') ∧
        w'.Replaying o (done ++ [c]) todo a ∧ w'.segMax = w.segMax ∧ w'.dir = w.dir ∧
        w'.highestLsn = c.records.foldl (fun m r => max m r.lsn) w.highestLsn) ∧
    ∀ e user', applyAll onRecord (c.records.map WalRecord.carried) user = .error e user' →
      ∃ s, replaySegment onRecord done.length w user = .error e s ∧ s.2 = user' := by
  have hmem : c ∈ done ++ c :: todo ++ [a] := by simp
  have hsegs : w.segments = done.map (Content.segment true) ++
      unread true c :: (todo.map (unread true) ++ [unread false a]) := h.segments
  have hnumber : (w.segments.getD done.length { number := 0 }).number = c.number := by
    rw [hsegs, ← List.length_map (f := Content.segment true), getD_mid]
    rfl
  refine ⟨fun user' he => ?_, fun e user' he =>
    replaySegment_error h.opener hnumber (h.find hmem) (h.fits c hmem) he⟩
  rw [replaySegment_ok h.opener hnumber (h.find hmem) (h.fits c hmem) (.inl htail) he]
  have hlast : ¬ done.length + 1 = w.segments.length := by
    rw [hsegs]
    simp
  have hassoc : done ++ [c] ++ todo ++ [a] = done ++ c :: todo ++ [a] := by simp
  unfold endScan
  rw [noteAll_rest]
  simp only [htail, ne_eq, not_true_eq_false, decide_false, Bool.false_eq_true, if_false, hlast]
  refine ⟨_, rfl, ⟨h.opener, ?_, ?_, ?_, h.activeFd, ?_⟩, rfl, rfl, rfl⟩
  · rw [hassoc]
    exact h.files
  · dsimp only
    rw [hsegs, ← List.length_map (f := Content.segment true), modify_mid]
    simp [Content.segment, unread]
  · rw [hassoc]
    exact h.numbered
  · rw [hassoc]
    exact h.fits

/-- The last segment is replayed, and its torn tail cut off. -/
theorem Replaying.active (h : w.Replaying o done [] a) (htail : a.tail = [] ∨ Torn a.tail)
    (onRecord : WalRecord → σ → Outcome σ Unit) (user : σ) :
    (∀ user', applyAll onRecord (a.records.map WalRecord.carried) user = .ok () user' →
      ∃ w', replaySegment onRecord done.length w user = .ok () (w', user') ∧
        w'.Holds o ⟨done, a.clean⟩ ∧ w'.segMax = w.segMax ∧ w'.dir = w.dir ∧
        w'.highestLsn = a.records.foldl (fun m r => max m r.lsn) w.highestLsn) ∧
    ∀ e user', applyAll onRecord (a.records.map WalRecord.carried) user = .error e user' →
      ∃ s, replaySegment onRecord done.length w user = .error e s ∧ s.2 = user' := by
  have hmem : a ∈ done ++ [] ++ [a] := by simp
  have hfit := h.fits a hmem
  have hsegs : w.segments = done.map (Content.segment true) ++ unread false a :: [] := h.segments
  have hnumber : (w.segments.getD done.length { number := 0 }).number = a.number := by
    rw [hsegs, ← List.length_map (f := Content.segment true), getD_mid]
    rfl
  refine ⟨fun user' he => ?_, fun e user' he =>
    replaySegment_error h.opener hnumber (h.find hmem) hfit he⟩
  rw [replaySegment_ok h.opener hnumber (h.find hmem) hfit htail he]
  have hlast : done.length + 1 = w.segments.length := by
    rw [hsegs]
    simp
  have hnum := h.numbered
  have hfits := h.fits
  rw [List.append_nil] at hnum hfits
  have hclean : a.clean.number = a.number ∧ a.clean.records = a.records ∧
      a.clean.size = a.size := by
    unfold Content.clean
    split_ifs <;> exact ⟨rfl, rfl, rfl⟩
  have hsegs' :
    (w.segments.modify done.length fun s => a.records.foldl (fun s r => s.note r.lsn) s) =
      done.map (Content.segment true) ++ [a.clean.segment false] := by
    rw [hsegs, ← List.length_map (f := Content.segment true), modify_mid, Content.segment, hclean.1,
      hclean.2.1]
    rfl
  have hbytes : (a.bytes o).length = a.size + a.tail.length := by
    simp [Content.bytes, Content.size, walHeaderSize, Nat.add_assoc]
  have hentries : Numbered ((done.map (Content.entry o) ++
      [(a.number, File.mk (a.bytes o) a.synced)]).map Prod.fst) := by
    rw [List.map_append, entries_number]
    rw [List.map_append] at hnum
    exact hnum
  have hfiles : w.files =
      segmentFiles (done.map (Content.entry o) ++ [(a.number, ⟨a.bytes o, a.synced⟩)]) := by
    rw [h.files, List.append_nil, List.map_append]
    rfl
  have hnum' : Numbered ((Log.mk done a.clean).segments.map Content.number) := by
    rw [Log.segments, List.map_append, List.map_singleton, hclean.1]
    rwa [List.map_append] at hnum
  have hfits' : ∀ c ∈ (Log.mk done a.clean).segments, ∀ r ∈ c.records, r.Fits := by
    intro c hc
    rcases List.mem_append.1 hc with hc | hc
    · exact hfits c (List.mem_append_left _ hc)
    · rw [List.mem_singleton.1 hc, hclean.2.1]
      exact hfit
  unfold endScan
  rw [noteAll_rest]
  simp only [hlast, decide_true, not_true_eq_false, if_false, if_true]
  -- with no torn tail the file stays as it is; one is cut off, with a sync
  by_cases hnil : a.tail = []
  · simp only [hnil, ne_eq, not_true_eq_false, decide_false, Bool.false_eq_true, if_false]
    refine ⟨_, rfl, ⟨h.opener, ?_, hsegs', hnum', ?_, ?_, hfits'⟩, rfl, rfl, rfl⟩
    · have hself : a.clean = a := if_pos hnil
      dsimp only
      rw [hfiles, Log.segments, hself, List.map_append]
      rfl
    · rw [hclean.1]
      exact h.activeFd
    · rw [hclean.2.2]
      exact hbytes.trans (by rw [hnil]; rfl)
  · simp only [hnil, ne_eq, not_false_eq_true, decide_true, if_true, h.activeFd]
    refine ⟨_, rfl, ⟨h.opener, ?_, hsegs', hnum', ?_, ?_, hfits'⟩, rfl, rfl, rfl⟩
    · have hcut : ((File.mk (a.bytes o) a.synced).cut a.size).sync =
          ⟨a.clean.bytes o, a.clean.synced⟩ := by
        have hlen : (encodeHeader o ++ frames a.records).length = a.size := by
          rw [List.length_append, length_encodeHeader]
          rfl
        have htake : (a.bytes o).take a.size = encodeHeader o ++ frames a.records := by
          rw [Content.bytes, ← List.append_assoc, List.take_left' hlen]
        have hself : a.clean = { a with tail := [], synced := a.size } := if_neg hnil
        rw [hself, File.cut, File.sync]
        dsimp only
        rw [htake, hlen, Content.bytes, List.append_nil]
      dsimp only [modifyFile]
      rw [hfiles, Dir.modify_segmentFiles hentries, hcut, Log.segments, List.map_append,
        ← hclean.1]
      rfl
    · exact (congrArg (fun n => some (segmentName n)) hclean.1).symm
    · exact hclean.2.2.symm

/-- **A replay** applies the callback to every record of the log, in order. -/
theorem Replaying.replayFrom (h : w.Replaying o done todo a) (hclosed : ∀ c ∈ todo, c.tail = [])
    (htail : a.tail = [] ∨ Torn a.tail) (onRecord : WalRecord → σ → Outcome σ Unit) (user : σ) :
    (∀ user', applyAll onRecord
      (((todo ++ [a]).flatMap Content.records).map WalRecord.carried) user =
        .ok () user' →
      ∃ w', replayFrom onRecord (todo.length + 1) done.length w user = .ok () (w', user') ∧
        w'.Holds o ⟨done ++ todo, a.clean⟩ ∧ w'.segMax = w.segMax ∧ w'.dir = w.dir ∧
        w'.highestLsn = ((todo ++ [a]).flatMap Content.records).foldl (fun m r => max m r.lsn)
          w.highestLsn) ∧
    ∀ e user', applyAll onRecord
      (((todo ++ [a]).flatMap Content.records).map WalRecord.carried) user =
        .error e user' →
      ∃ s, replayFrom onRecord (todo.length + 1) done.length w user = .error e s ∧ s.2 = user' := by
  -- one segment after the other, the last one with its tail
  induction todo generalizing w done user with
  | nil =>
    obtain ⟨hok, herr⟩ := h.active htail onRecord user
    have hrecords : ([] ++ [a]).flatMap Content.records = a.records := by simp
    rw [hrecords, List.append_nil]
    refine ⟨fun user' he => ?_, fun e user' he => ?_⟩
    · obtain ⟨w', hw, h'⟩ := hok user' he
      refine ⟨w', ?_, h'⟩
      rw [Wal.replayFrom, List.length_nil, hw]
      rfl
    · obtain ⟨s, hs, h'⟩ := herr e user' he
      refine ⟨s, ?_, h'⟩
      rw [Wal.replayFrom, List.length_nil, hs]
      rfl
  | cons c todo ih =>
    obtain ⟨hok, herr⟩ := h.closed (hclosed c List.mem_cons_self) onRecord user
    have hrecords : (c :: todo ++ [a]).flatMap Content.records =
        c.records ++ (todo ++ [a]).flatMap Content.records := by simp
    rw [hrecords, List.map_append, applyAll_append]
    cases hc : applyAll onRecord (c.records.map WalRecord.carried) user with
    | error e user₁ =>
      obtain ⟨s, hs, hs'⟩ := herr e user₁ hc
      refine ⟨fun user' he => ?_, fun e' user' he => ?_⟩
      · cases he
      · cases he
        refine ⟨s, ?_, hs'⟩
        rw [Wal.replayFrom, hs]
        rfl
    | ok _ user₁ =>
      obtain ⟨w₁, hw₁, h₁, hmax, hdir, hhigh⟩ := hok user₁ hc
      obtain ⟨hok', herr'⟩ := ih h₁ (fun d hd => hclosed d (List.mem_cons_of_mem _ hd)) user₁
      rw [List.length_append, List.length_singleton] at hok' herr'
      refine ⟨fun user' he => ?_, fun e user' he => ?_⟩
      · obtain ⟨w', hw', h', hmax', hdir', hhigh'⟩ := hok' user' he
        refine ⟨w', ?_, ?_, hmax'.trans hmax, hdir'.trans hdir, ?_⟩
        · rw [Wal.replayFrom, hw₁, List.length_cons]
          exact hw'
        · rwa [List.append_assoc, List.singleton_append] at h'
        · rw [hhigh', hhigh, List.foldl_append]
      · obtain ⟨s, hs, h'⟩ := herr' e user' he
        refine ⟨s, ?_, h'⟩
        rw [Wal.replayFrom, hw₁, List.length_cons]
        exact hs

/-! ### Opening -/

/-- `open`, and then `replay`. -/
def reopen (onRecord : WalRecord → σ → Outcome σ Unit) (files : Dir) (dir : Bytes) (opener : Opener)
    (segMax : ℕ) (user : σ) : Outcome (Wal × σ) Unit :=
  match Wal.open files dir opener segMax with
  | .error e w => .error e (w, user)
  | .ok _ w => w.replay onRecord user

/-- The files of a log, which may end in a torn tail. -/
structure Stored (files : Dir) (o : Opener) (l : Log) : Prop where
  files : files = segmentFiles (l.segments.map (Content.entry o))
  numbered : Numbered (l.segments.map Content.number)
  fits : ∀ c ∈ l.segments, ∀ r ∈ c.records, r.Fits

theorem Holds.stored (h : w.Holds o l) : Stored w.files o l := ⟨h.files, h.numbered, h.fits⟩

/-- The first segment of a log. -/
def firstLog : Log := ⟨[], { number := 1, synced := walHeaderSize }⟩

theorem mapIdx_unread (cs : List Content) (a : Content) :
    ((cs ++ [a]).map Content.number).mapIdx (fun i number =>
      Segment.mk number 0 0 (i + 1 < ((cs ++ [a]).map Content.number).length)) =
      cs.map (unread true) ++ [unread false a] := by
  refine List.ext_getElem (by simp) fun i h1 h2 => ?_
  rw [List.getElem_mapIdx]
  by_cases hi : i < cs.length
  · simp [hi, unread, List.getElem_append_left]
  · have hlast : i = cs.length := by
      simp at h1
      omega
    subst hlast
    simp [unread]

theorem open_stored {files : Dir} (h : Stored files o l) (dir : Bytes) (segMax : ℕ) :
    ∃ w, Wal.open files dir o segMax = .ok () w ∧ w.Replaying o [] l.closed l.active ∧
      w.segMax = segMax ∧ w.dir = dir ∧ w.highestLsn = 0 := by
  have hnumbers : discoverSegments files = l.segments.map Content.number := by
    rw [h.files, Dir.discoverSegments_segmentFiles, entries_number]
    rw [entries_number]
    exact h.numbered
  have hfind : files.find (segmentName l.active.number) =
      some ⟨l.active.bytes o, l.active.synced⟩ := by
    rw [h.files]
    refine Dir.find_segmentFiles ?_ (List.mem_map_of_mem (f := Content.entry o)
      (List.mem_append_right _ (List.mem_singleton_self _)))
    rw [entries_number]
    exact h.numbered
  unfold Wal.open
  rw [hnumbers, Log.segments, List.map_append, List.map_singleton, List.getLast?_concat]
  dsimp only
  rw [hfind]
  refine ⟨_, rfl, ⟨rfl, h.files, ?_, h.numbered, rfl, h.fits⟩, rfl, rfl, rfl⟩
  have hidx := mapIdx_unread l.closed l.active
  rwa [List.map_append, List.map_singleton] at hidx

theorem open_empty (o : Opener) (dir : Bytes) (segMax : ℕ) :
    ∃ w, Wal.open [] dir o segMax = .ok () w ∧ w.Holds o firstLog ∧
      w.segMax = segMax ∧ w.dir = dir ∧ w.highestLsn = 0 := by
  obtain ⟨w, hw, h, hrest⟩ := openNewSegment_ok (o := o)
    (w := { dir, opener := o, segMax }) rfl (List.map_nil.symm ▸ rfl) List.map_nil.symm
    (show nextNumber _ = 1 from rfl) ⟨by simp, by simp⟩ (by simp)
  exact ⟨w, hw, h, hrest⟩

variable {files : Dir} (dir : Bytes) (segMax : ℕ)

/-- **Opening and replaying** a log applies the callback to every record, in order, and leaves the
log without its torn tail. -/
theorem Stored.reopen (h : Stored files o l) (hclosed : ∀ c ∈ l.closed, c.tail = [])
    (htail : l.active.tail = [] ∨ Torn l.active.tail)
    (he : applyAll onRecord (l.records.map WalRecord.carried) user = .ok () user') :
    ∃ w', Wal.reopen onRecord files dir o segMax user = .ok () (w', user') ∧
      w'.Holds o { l with active := l.active.clean } ∧ w'.segMax = segMax ∧ w'.dir = dir ∧
      w'.highestLsn = l.records.foldl (fun m r => max m r.lsn) 0 := by
  obtain ⟨w, hw, hreplaying, hmax, hdir, hhigh⟩ := open_stored h dir segMax
  obtain ⟨w', hw', h', hmax', hdir', hhigh'⟩ :=
    (hreplaying.replayFrom hclosed htail onRecord user).1 user' he
  have hlen : w.segments.length = l.closed.length + 1 := by
    rw [hreplaying.segments]
    simp
  refine ⟨w', ?_, h', hmax'.trans hmax, hdir'.trans hdir, hhigh ▸ hhigh'⟩
  rw [Wal.reopen, hw]
  dsimp only
  rw [Wal.replay, hlen]
  exact hw'

/-- The callback throws. -/
theorem Stored.reopen_error (h : Stored files o l) (hclosed : ∀ c ∈ l.closed, c.tail = [])
    (htail : l.active.tail = [] ∨ Torn l.active.tail) {e : Exn}
    (he : applyAll onRecord (l.records.map WalRecord.carried) user = .error e user') :
    ∃ s, Wal.reopen onRecord files dir o segMax user = .error e s ∧ s.2 = user' := by
  obtain ⟨w, hw, hreplaying, hmax, hdir, hhigh⟩ := open_stored h dir segMax
  obtain ⟨s, hs, hs'⟩ :=
    (hreplaying.replayFrom hclosed htail onRecord user).2 e user' he
  have hlen : w.segments.length = l.closed.length + 1 := by
    rw [hreplaying.segments]
    simp
  refine ⟨s, ?_, hs'⟩
  rw [Wal.reopen, hw]
  dsimp only
  rw [Wal.replay, hlen]
  exact hs

/-- Opening an empty directory starts a log of no records. -/
theorem reopen_empty (onRecord : WalRecord → σ → Outcome σ Unit) (o : Opener) (user : σ) :
    ∃ w', reopen onRecord [] dir o segMax user = .ok () (w', user) ∧ w'.Holds o firstLog ∧
      w'.segMax = segMax ∧ w'.dir = dir ∧ w'.highestLsn = 0 := by
  obtain ⟨w, hw, h, hmax, hdir, hhigh⟩ := open_empty o dir segMax
  have hreplaying : w.Replaying o [] [] firstLog.active :=
    ⟨h.opener, h.files, h.segments, h.numbered, h.activeFd, h.fits⟩
  obtain ⟨w', hw', h', hmax', hdir', hhigh'⟩ :=
    (hreplaying.replayFrom (by simp) (.inl rfl) onRecord user).1 user rfl
  refine ⟨w', ?_, h', hmax'.trans hmax, hdir'.trans hdir, hhigh'.trans hhigh⟩
  rw [Wal.reopen, hw]
  dsimp only
  rw [Wal.replay, h.segments]
  exact hw'

end Wal

end Vdb
