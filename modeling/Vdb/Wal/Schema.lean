import Vdb.Wal.Parse

/-!
# The schema fingerprint of a log

Every segment header records the fingerprint of the schema it was written under, to be checked when
the log is opened.

* `Wal.checkSchema_iff` : when replay does refuse every segment of another schema.
* `Wal.renamed_schema_replayed` : it does not compare the fingerprints, so a log of another schema
  is replayed.
-/

namespace Vdb

namespace Wal

variable {w w' : Wal} {i n si : ℕ} {user rs : List WalRecord}

/-- The header of the segment `k` carries exactly what the log was opened with. -/
def Carries (w : Wal) (k : ℕ) : Prop :=
  ∃ h ∈ w.header k, h.dim = w.opener.dim.toNat ∧ h.metric = w.opener.metric.toNat ∧
    h.schemaFp = w.opener.schemaFp.toNat

/-- Replay delivers a record only if every header it has read carries what the log was opened with;
a segment of another schema makes it throw before it delivers a record of this segment. -/
def ChecksSchema (w : Wal) : Prop :=
  ∀ i w' rs, i < w.segments.length → replayFrom collect i 0 w [] = .ok () (w', rs) →
    ((replaySegment collect i w' rs).state.2 ≠ rs → ∀ k ≤ i, w.Carries k) ∧
    ((∃ h ∈ w.header i, h.schemaFp ≠ w.opener.schemaFp.toNat) →
      ¬ (replaySegment collect i w' rs).Returns ∧ (replaySegment collect i w' rs).state.2 = rs)

/-- Replay gets to the segment `i` and accepts it. -/
structure Read (w : Wal) (i : ℕ) : Prop where
  accepted : ∀ k ≤ i, w.Accepted k
  whole : ∀ k < i, (w.parsed k).2 = []

/-- A sealed segment whose first frame is corrupt. -/
def CorruptAtOnce (w : Wal) (i : ℕ) : Prop :=
  i + 1 ≠ w.segments.length ∧ (w.parsed i).1 = [] ∧ (w.parsed i).2 ≠ []

/-! ### The files stay while segments are replayed -/

/-- The logs have the same files and segments. -/
structure SameFiles (w w' : Wal) : Prop where
  files : w'.files = w.files
  opener : w'.opener = w.opener
  numbers : w'.segments.map Segment.number = w.segments.map Segment.number
  activeFd : w'.activeFd = w.activeFd

theorem SameFiles.trans {v : Wal} (h : SameFiles v w) (h' : SameFiles w w') : SameFiles v w' :=
  ⟨h'.files.trans h.files, h'.opener.trans h.opener, h'.numbers.trans h.numbers,
    h'.activeFd.trans h.activeFd⟩

theorem SameFiles.length (h : SameFiles w w') : w'.segments.length = w.segments.length := by
  have := congrArg List.length h.numbers
  rwa [List.length_map, List.length_map] at this

theorem number_getD (w : Wal) (i : ℕ) : (w.segments.getD i { number := 0 }).number =
    (w.segments.map Segment.number).getD i 0 := by
  rw [List.getD_eq_getElem?_getD, List.getD_eq_getElem?_getD, List.getElem?_map]
  cases w.segments[i]? <;> rfl

theorem SameFiles.number (h : SameFiles w w') (i : ℕ) :
    (w'.segments.getD i { number := 0 }).number = (w.segments.getD i { number := 0 }).number := by
  rw [number_getD, number_getD, h.numbers]

theorem SameFiles.header (h : SameFiles w w') (i : ℕ) : w'.header i = w.header i := by
  rw [Wal.header, Wal.header, h.number, h.files]

theorem SameFiles.parsed (h : SameFiles w w') (i : ℕ) : w'.parsed i = w.parsed i := by
  rw [Wal.parsed, Wal.parsed, Wal.body, Wal.body, h.number, h.files]

theorem SameFiles.accepted (h : SameFiles w w') (i : ℕ) : w'.Accepted i ↔ w.Accepted i := by
  rw [Accepted, Accepted, h.header, h.opener]

theorem sameFiles_noteAll (w : Wal) (i : ℕ) (rs : List WalRecord) :
    SameFiles w (w.noteAll i rs) := by
  rw [noteAll_rest]
  refine ⟨rfl, rfl, ?_, rfl⟩
  refine List.ext_getElem? fun j => ?_
  dsimp only
  rw [List.getElem?_map, List.getElem?_map, List.getElem?_modify]
  cases hs : w.segments[j]? with
  | none => rfl
  | some s =>
    have hnote : ∀ (rs : List WalRecord) (s : Segment),
        (rs.foldl (fun s r => s.note r.lsn) s).number = s.number := by
      intro rs
      induction rs with
      | nil => exact fun _ => rfl
      | cons r rs ih => exact fun s => ih (s.note r.lsn)
    by_cases hij : i = j <;> simp [hij, hnote]

@[simp] theorem state_endScan {σ : Type} (number size : ℕ) (isActive torn : Bool) (s : Scan σ) :
    (endScan number isActive size torn s).state.2 = s.user := by
  unfold endScan
  dsimp only
  split_ifs
  · split <;> rfl
  · rfl
  · rfl
  · rfl

/-- A segment that is not the last and has been replayed was accepted and whole. -/
theorem replaySegment_closed (hi : i + 1 ≠ w.segments.length)
    (h : replaySegment collect i w user = .ok () (w', rs)) :
    w.Accepted i ∧ (w.parsed i).2 = [] ∧ SameFiles w w' := by
  by_cases ha : w.Accepted i
  · obtain ⟨size, he⟩ := replaySegment_accepted user ha
    rw [he, endScan] at h
    by_cases hnil : (w.parsed i).2 = []
    · simp only [hi, hnil, ne_eq, not_true_eq_false, decide_false, Bool.false_eq_true,
        if_false] at h
      cases h
      exact ⟨ha, hnil, sameFiles_noteAll w i _⟩
    · simp only [hi, hnil, ne_eq, not_false_eq_true, decide_true, decide_false, Bool.false_eq_true,
        if_true] at h
      cases h
  · obtain ⟨e, he⟩ := replaySegment_rejected collect user ha
    rw [he] at h
    cases h

theorem replaySegment_whole (hi : i + 1 ≠ w.segments.length) (ha : w.Accepted i)
    (hnil : (w.parsed i).2 = []) (user : List WalRecord) :
    ∃ w', replaySegment collect i w user = .ok () (w', user ++ (w.parsed i).1) ∧
      SameFiles w w' := by
  obtain ⟨size, he⟩ := replaySegment_accepted user ha
  refine ⟨_, ?_, sameFiles_noteAll w i (w.parsed i).1⟩
  rw [he, endScan]
  simp [hi, hnil]

/-- The first segments that have been replayed were accepted and whole. -/
theorem replayFrom_closed (hn : si + n < w.segments.length)
    (h : replayFrom collect n si w user = .ok () (w', rs)) :
    SameFiles w w' ∧ ∀ k, si ≤ k → k < si + n → w.Accepted k ∧ (w.parsed k).2 = [] := by
  induction n generalizing si w user with
  | zero =>
    cases h
    exact ⟨⟨rfl, rfl, rfl, rfl⟩, fun k h1 h2 => absurd h1 (Nat.not_le.2 h2)⟩
  | succ n ih =>
    rw [replayFrom] at h
    cases hs : replaySegment collect si w user with
    | error e s =>
      rw [hs] at h
      cases h
    | ok _ s =>
      rw [hs] at h
      obtain ⟨w₁, user₁⟩ := s
      obtain ⟨ha, hnil, hsame⟩ := replaySegment_closed (by omega) hs
      obtain ⟨hsame', hall⟩ := ih (by rw [hsame.length]; omega) h
      refine ⟨hsame.trans hsame', fun k h1 h2 => ?_⟩
      rcases Nat.eq_or_lt_of_le h1 with rfl | hlt
      · exact ⟨ha, hnil⟩
      · have := hall k hlt (by omega)
        rwa [hsame.accepted, hsame.parsed] at this

/-- Accepted and whole segments are replayed. -/
theorem replayFrom_whole (hn : si + n < w.segments.length)
    (h : ∀ k, si ≤ k → k < si + n → w.Accepted k ∧ (w.parsed k).2 = []) (user : List WalRecord) :
    ∃ w' rs, replayFrom collect n si w user = .ok () (w', rs) ∧ SameFiles w w' := by
  induction n generalizing si w user with
  | zero => exact ⟨w, user, rfl, rfl, rfl, rfl, rfl⟩
  | succ n ih =>
    obtain ⟨ha, hnil⟩ := h si le_rfl (by omega)
    obtain ⟨w₁, he, hsame⟩ := replaySegment_whole (by omega) ha hnil user
    have hlt : si + 1 + n < w₁.segments.length := by
      rw [hsame.length]
      omega
    have hrest : ∀ k, si + 1 ≤ k → k < si + 1 + n → w₁.Accepted k ∧ (w₁.parsed k).2 = [] := by
      intro k h1 h2
      rw [hsame.accepted, hsame.parsed]
      exact h k (by omega) (by omega)
    obtain ⟨w', rs, he', hsame'⟩ := ih hlt hrest (user ++ (w.parsed si).1)
    refine ⟨w', rs, ?_, hsame.trans hsame'⟩
    rw [replayFrom, he]
    exact he'

theorem activeFd_openNewSegment (h : w.openNewSegment = .ok () w') :
    w'.activeFd.isSome ∧ w'.opener = w.opener := by
  unfold openNewSegment at h
  dsimp only at h
  split_ifs at h
  cases h
  exact ⟨rfl, rfl⟩

theorem activeFd_open {files : Dir} {dir : Bytes} {o : Opener} {segMax : ℕ}
    (h : Wal.open files dir o segMax = .ok () w) : w.activeFd.isSome ∧ w.opener = o := by
  unfold Wal.open at h
  cases hl : (discoverSegments files).getLast? with
  | none =>
    rw [hl] at h
    exact activeFd_openNewSegment h
  | some last =>
    rw [hl] at h
    dsimp only at h
    cases hf : files.find (segmentName last) with
    | none =>
      rw [hf] at h
      cases h
    | some f =>
      rw [hf] at h
      cases h
      exact ⟨rfl, rfl⟩

/-- **When the fingerprint is checked**: for every directory and everything a log is opened with,
exactly if every segment that replay gets to and accepts carries the fingerprint, but for one whose
first frame is corrupt. -/
theorem checkSchema_iff {files : Dir} {dir : Bytes} {o : Opener} {segMax : ℕ}
    (hw : Wal.open files dir o segMax = .ok () w) :
    w.ChecksSchema ↔ ∀ i < w.segments.length, w.Read i →
      (∀ h ∈ w.header i, h.schemaFp = o.schemaFp.toNat) ∨ w.CorruptAtOnce i := by
  obtain ⟨hfd, rfl⟩ := activeFd_open hw
  constructor
  · intro hc i hi hread
    by_contra hno
    obtain ⟨hfp, hcorrupt⟩ := not_or.1 hno
    simp only [not_forall] at hfp
    obtain ⟨h, hmem, hne⟩ := hfp
    have hwithin : ∀ k, 0 ≤ k → k < 0 + i → w.Accepted k ∧ (w.parsed k).2 = [] := fun k _ hk =>
      ⟨hread.accepted k (by omega), hread.whole k (by omega)⟩
    obtain ⟨w', rs, he, hsame⟩ := replayFrom_whole (by omega) hwithin []
    obtain ⟨-, hthrow⟩ := hc i w' rs hi he
    obtain ⟨hret, hstate⟩ := hthrow ⟨h, hmem, hne⟩
    obtain ⟨size, hseg⟩ := replaySegment_accepted rs
      ((hsame.accepted i).2 (hread.accepted i le_rfl))
    rw [hseg, hsame.parsed] at hret hstate
    rw [state_endScan] at hstate
    have hnone : (w.parsed i).1 = [] := by simpa using hstate
    -- nothing was delivered, so the scan ended at once and replay went on
    refine hret ?_
    obtain ⟨name, hname⟩ := Option.isSome_iff_exists.1 hfd
    have hname' : ((w'.noteAll i (w.parsed i).1).activeFd) = some name := by
      rw [noteAll_rest]
      exact hsame.activeFd.trans hname
    unfold endScan
    dsimp only
    rw [hname', hsame.length]
    by_cases hnil : (w.parsed i).2 = []
    · by_cases hlast : i + 1 = w.segments.length <;> simp [hnil, hlast, Outcome.Returns]
    · by_cases hlast : i + 1 = w.segments.length
      · simp [hnil, hlast, Outcome.Returns]
      · exact (hcorrupt ⟨hlast, hnone, hnil⟩).elim
  · intro hcond i w' rs hi he
    obtain ⟨hsame, hall⟩ := replayFrom_closed (by omega) he
    by_cases ha : w.Accepted i
    · have hread : ∀ k ≤ i, w.Read k := fun k hk =>
        ⟨fun m hm => if hmi : m = i then hmi ▸ ha else (hall m (Nat.zero_le m) (by omega)).1,
          fun m hm => (hall m (Nat.zero_le m) (by omega)).2⟩
      obtain ⟨size, hseg⟩ := replaySegment_accepted rs ((hsame.accepted i).2 ha)
      rw [hseg, hsame.parsed]
      rcases hcond i hi (hread i le_rfl) with hfp | ⟨hlast, hnone, hrest⟩
      · refine ⟨fun _ k hk => ?_, fun ⟨h, hmem, hne⟩ => absurd (hfp h hmem) hne⟩
        obtain ⟨h, hmem, hdim, hmetric⟩ := (hread k hk).accepted k le_rfl
        refine ⟨h, hmem, hdim, hmetric, ?_⟩
        rcases Nat.eq_or_lt_of_le hk with rfl | hlt
        · exact hfp h hmem
        · rcases hcond k (by omega) (hread k hk) with hfp | ⟨-, -, hrest⟩
          · exact hfp h hmem
          · exact absurd (hall k (Nat.zero_le k) (by omega)).2 hrest
      · have hstate : rs ++ (w.parsed i).1 = rs := by rw [hnone, List.append_nil]
        refine ⟨fun hne => absurd ?_ hne, fun _ => ⟨?_, ?_⟩⟩
        · rw [state_endScan]
          exact hstate
        · unfold endScan
          simp [hrest, hlast, hsame.length, Outcome.Returns]
        · rw [state_endScan]
          exact hstate
    · obtain ⟨e, hrej⟩ := replaySegment_rejected collect rs
        fun h => ha ((hsame.accepted i).1 h)
      rw [hrej]
      exact ⟨fun hne => absurd rfl hne, fun _ => ⟨id, rfl⟩⟩

/-- The files of a log with one record. -/
def firstSession : Dir :=
  ((Wal.open [] (ascii "wal") ⟨4, 0, 7⟩ 60).andThen fun _ w =>
    w.append { type := .delete, lsn := 1, extId := 0 } none).state.files

/-- A second session has added a record, and a segment for it. -/
def twoSessions : Dir :=
  ((reopen collect firstSession (ascii "wal") ⟨4, 0, 7⟩ 60 []).state.1.append
    { type := .delete, lsn := 2, extId := 1 } none).state.files

theorem checkSchema_iff_twoSessions :
    (Wal.open twoSessions (ascii "wal") ⟨4, 0, 7⟩ 60).state.ChecksSchema := by
  have hlen : (Wal.open twoSessions (ascii "wal") ⟨4, 0, 7⟩ 60).state.segments.length = 2 := by
    decide +kernel
  have hfp : ∀ i < 2, ∀ h ∈ (Wal.open twoSessions (ascii "wal") ⟨4, 0, 7⟩ 60).state.header i,
      h.schemaFp = 7 := by decide +kernel
  obtain ⟨_, hopen⟩ := Outcome.Returns.exists_ok
    (o := Wal.open twoSessions (ascii "wal") ⟨4, 0, 7⟩ 60) (by decide +kernel)
  exact (checkSchema_iff hopen).2 fun i hi _ => .inl (hfp i (hi.trans_eq hlen))

/-- The files of a log with one record, written under the schema with fingerprint `8`. -/
def renamedFiles : Dir :=
  ((Wal.open [] (ascii "wal") ⟨4, 0, 8⟩ 100).andThen fun _ w =>
    w.append { type := .delete, lsn := 1, extId := 0 } none).state.files

/-- The fingerprints are not compared: a log of another schema is replayed. -/
theorem renamed_schema_replayed :
    ¬ (Wal.open renamedFiles (ascii "wal") ⟨4, 0, 7⟩ 100).state.ChecksSchema := by
  intro h
  obtain ⟨hdelivers, -⟩ := h 0 _ [] (by decide +kernel) rfl
  have hne : (replaySegment collect 0 (Wal.open renamedFiles (ascii "wal") ⟨4, 0, 7⟩ 100).state
      []).state.2 ≠ [] := by decide +kernel
  obtain ⟨hdr, hmem, -, -, hfp⟩ := hdelivers hne 0 le_rfl
  have hother : ∀ h ∈ (Wal.open renamedFiles (ascii "wal") ⟨4, 0, 7⟩ 100).state.header 0,
      h.schemaFp ≠ 7 := by decide +kernel
  exact hother hdr hmem hfp

end Wal

end Vdb
