import Vdb.Wal.Contents

/-!
# What is on stable storage

A record is `Located` in a file of the log where its frame ends there, behind the header and the
frames of other records, and in front of where the next frame goes; it is `Stable` once the file is
on stable storage up to there.  Records in files other than the one written to are stable
(`Wal.OnDisk`).  No operation of the log moves a record or takes one off stable storage, but for
`truncate`, which takes only stable ones.
-/

namespace Vdb

namespace Dir

theorem find_modify (d : Dir) (name other : Bytes) (f : File → File) :
    (d.modify name f).find other = (d.find other).map (if other = name then f else id) := by
  unfold find modify
  induction d with
  | nil => rfl
  | cons e d ih =>
    rw [List.map_cons, List.lookup_cons, List.lookup_cons]
    by_cases he : e.1 = name
    · rw [if_pos he]
      by_cases ho : other = e.1
      · rw [ho, beq_self_eq_true, he]
        simp
      · rw [beq_eq_false_iff_ne.2 ho]
        exact ih
    · rw [if_neg he]
      by_cases ho : other = e.1
      · rw [ho, beq_self_eq_true]
        simp [he]
      · rw [beq_eq_false_iff_ne.2 ho]
        exact ih

theorem find_modify_self {d : Dir} {name : Bytes} {f : File} (h : d.find name = some f)
    (g : File → File) : (d.modify name g).find name = some (g f) := by
  rw [find_modify, h, if_pos rfl]
  rfl

theorem find_modify_ne {d : Dir} {name other : Bytes} (h : other ≠ name) (g : File → File) :
    (d.modify name g).find other = d.find other := by
  rw [find_modify, if_neg h, Option.map_id]
  rfl

theorem find_create_self {d : Dir} {name : Bytes} (h : d.find name = none) :
    (d.create name).find name = some (File.mk [] 0) := by
  unfold find create at *
  rw [List.lookup_append, h]
  simp

theorem find_create_some {d : Dir} {name other : Bytes} {f : File} (h : d.find other = some f) :
    (d.create name).find other = some f := by
  unfold find create at *
  rw [List.lookup_append, h]
  rfl

theorem find_unlink_ne {d : Dir} {name other : Bytes} (h : other ≠ name) :
    (d.unlink name).find other = d.find other := by
  unfold find unlink
  induction d with
  | nil => rfl
  | cons e d ih =>
    rw [List.lookup_cons]
    by_cases he : e.1 = name
    · rw [List.filter_cons_of_neg (by simpa using he), ih,
        beq_eq_false_iff_ne.2 (fun ho => h (ho.trans he))]
    · rw [List.filter_cons_of_pos (by simpa using he), List.lookup_cons]
      split <;> [rfl; exact ih]

theorem find_unlink_self {d : Dir} {name : Bytes} : (d.unlink name).find name = none := by
  unfold find unlink
  rw [List.lookup_eq_none_iff]
  intro e he
  obtain ⟨-, hne⟩ := List.mem_filter.1 he
  rw [bne_iff_ne]
  exact fun heq => of_decide_eq_true hne heq.symm

end Dir

namespace Wal

/-- The frame of the record ends at `n` in the file `name`. -/
structure Located (w : Wal) (r : WalRecord) (name : Bytes) (f : File) (n : ℕ) : Prop where
  find : w.files.find name = some f
  le : n ≤ f.bytes.length
  frames : ∃ rs, f.bytes.take n = encodeHeader w.opener ++ frames (rs ++ [r])
  /-- The next append does not reach it. -/
  front : w.activeFd = some name → n ≤ w.activeBytes

/-- The record, in this file, is on stable storage. -/
def Stable (w : Wal) (r : WalRecord) (name : Bytes) (n : ℕ) : Prop :=
  ∃ f, w.Located r name f n ∧ n ≤ f.synced

/-- The record is in this file, and stable unless the file is the one that is written to. -/
def OnDisk (w : Wal) (r : WalRecord) (name : Bytes) (n : ℕ) : Prop :=
  ∃ f, w.Located r name f n ∧ (w.activeFd ≠ some name → n ≤ f.synced)

/-- The file that is written to is a header and whole frames up to where the next one goes, and it
is no other segment's. -/
structure Laid (w : Wal) : Prop where
  active : ∀ name, w.activeFd = some name → ∃ f rs, w.files.find name = some f ∧
    w.activeBytes ≤ f.bytes.length ∧
      f.bytes.take w.activeBytes = encodeHeader w.opener ++ frames rs
  last : ∀ name, w.activeFd = some name → ∃ s, w.segments.getLast? = some s ∧
    segmentName s.number = name
  nodup : (w.segments.map fun s => segmentName s.number).Nodup
  found : ∀ s ∈ w.segments, (w.files.find (segmentName s.number)).isSome

/-- No record moves or leaves stable storage, and those of a file that is written to no more are
stable. -/
def Keeps (w w' : Wal) : Prop :=
  ∀ r name f n, w.Located r name f n → ∃ f', w'.Located r name f' n ∧
    (n ≤ f.synced → n ≤ f'.synced) ∧
      (w.activeFd = some name → w'.activeFd ≠ some name → n ≤ f'.synced)

variable {w w' w'' : Wal} {r : WalRecord} {name : Bytes} {n : ℕ} {e : Exn} {fault : Option Fault}

theorem Keeps.refl (w : Wal) : w.Keeps w :=
  fun _ _ f _ h => ⟨f, h, id, fun hact hnot => absurd hact hnot⟩

theorem Keeps.trans (h : w.Keeps w') (h' : w'.Keeps w'') : w.Keeps w'' := by
  intro r name f n hl
  obtain ⟨f', hl', hsync, hleft⟩ := h r name f n hl
  obtain ⟨f'', hl'', hsync', hleft'⟩ := h' r name f' n hl'
  refine ⟨f'', hl'', fun hn => hsync' (hsync hn), fun hact hnot => ?_⟩
  by_cases hact' : w'.activeFd = some name
  · exact hleft' hact' hnot
  · exact hsync' (hleft hact hact')

theorem Keeps.stable (h : w.Keeps w') (hr : w.Stable r name n) : w'.Stable r name n := by
  obtain ⟨f, hl, hn⟩ := hr
  obtain ⟨f', hl', hsync, -⟩ := h r name f n hl
  exact ⟨f', hl', hsync hn⟩

theorem Keeps.onDisk (h : w.Keeps w') (hr : w.OnDisk r name n) : w'.OnDisk r name n := by
  obtain ⟨f, hl, hn⟩ := hr
  obtain ⟨f', hl', hsync, hleft⟩ := h r name f n hl
  refine ⟨f', hl', fun hnot => ?_⟩
  by_cases hact : w.activeFd = some name
  · exact hleft hact hnot
  · exact hsync (hn hact)

theorem OnDisk.stable (h : w.OnDisk r name n) (hne : w.activeFd ≠ some name) :
    w.Stable r name n := by
  obtain ⟨f, hl, hn⟩ := h
  exact ⟨f, hl, hn hne⟩

/-! ### Writing and syncing -/

/-- A file is changed behind what the next append leaves alone. -/
theorem keeps_modifyFile (name : Bytes) (g : File → File)
    (hg : ∀ f n, w.files.find name = some f → (w.activeFd = some name → n ≤ w.activeBytes) →
      n ≤ f.bytes.length → n ≤ (g f).bytes.length ∧ (g f).bytes.take n = f.bytes.take n ∧
        (n ≤ f.synced → n ≤ (g f).synced)) : w.Keeps (w.modifyFile name g) := by
  intro r other f n hl
  by_cases ho : other = name
  · subst ho
    obtain ⟨hle, htake, hsync⟩ := hg f n hl.find hl.front hl.le
    refine ⟨g f, ⟨Dir.find_modify_self hl.find g, hle, ?_, hl.front⟩, hsync,
      fun hact hnot => absurd hact hnot⟩
    rw [htake]
    exact hl.frames
  · exact ⟨f, ⟨(Dir.find_modify_ne ho g).trans hl.find, hl.le, hl.frames, hl.front⟩, id,
      fun hact hnot => absurd hact hnot⟩

theorem keeps_syncFile (w : Wal) (name : Bytes) : w.Keeps (w.syncFile name) :=
  keeps_modifyFile name File.sync fun _ _ _ _ hn => ⟨hn, rfl, fun _ => hn⟩

/-- The records of a file that is synced are stable. -/
theorem OnDisk.syncFile (h : w.OnDisk r name n) : (w.syncFile name).Stable r name n := by
  obtain ⟨f, hl, -⟩ := h
  exact ⟨f.sync, ⟨Dir.find_modify_self hl.find _, hl.le, hl.frames, hl.front⟩, hl.le⟩

theorem isSome_modify {d : Dir} {name other : Bytes} {f : File → File}
    (h : (d.find other).isSome) : ((d.modify name f).find other).isSome := by
  rw [Dir.find_modify, Option.isSome_map]
  exact h

theorem Laid.syncFile (h : w.Laid) (name : Bytes) : (w.syncFile name).Laid where
  active other hact := by
    obtain ⟨f, rs, hf, hle, htake⟩ := h.active other hact
    by_cases ho : other = name
    · subst ho
      exact ⟨f.sync, rs, Dir.find_modify_self hf _, hle, htake⟩
    · exact ⟨f, rs, (Dir.find_modify_ne ho _).trans hf, hle, htake⟩
  last := h.last
  nodup := h.nodup
  found s hs := isSome_modify (h.found s hs)

theorem length_writeAt {f : File} {off : ℕ} (h : off ≤ f.bytes.length) (data : Bytes) :
    off + data.length ≤ (f.writeAt off data).bytes.length ∧
      (f.writeAt off data).bytes.take off = f.bytes.take off ∧
        (f.writeAt off data).bytes.take (off + data.length) = f.bytes.take off ++ data := by
  have htake : (f.bytes.take off).length = off := List.length_take_of_le h
  unfold File.writeAt
  dsimp only
  rw [Nat.sub_eq_zero_of_le h, List.replicate_zero, List.nil_append]
  refine ⟨?_, ?_, ?_⟩
  · rw [List.length_append, List.length_append, htake]
    omega
  · rw [List.take_append_of_le_length htake.ge, List.take_of_length_le htake.le]
  · rw [← List.append_assoc, List.take_append_of_le_length (by rw [List.length_append, htake]),
      List.take_of_length_le (by rw [List.length_append, htake])]

/-- A write behind the frames of the file that is written to. -/
theorem Laid.keeps_writeAt (h : w.Laid) (hact : w.activeFd = some name) (data : Bytes) :
    w.Keeps (w.modifyFile name fun f => f.writeAt w.activeBytes data) := by
  refine keeps_modifyFile name _ fun f n hf hn hle => ?_
  obtain ⟨f', rs, hf', hlen, -⟩ := h.active name hact
  rw [hf] at hf'
  cases hf'
  obtain ⟨hlong, htake, -⟩ := length_writeAt hlen data
  have hn := hn hact
  refine ⟨by omega, ?_, fun hs => le_min hs hn⟩
  rw [← Nat.min_eq_left hn, ← List.take_take, htake, List.take_take]

/-! ### Rotating -/

theorem map_sealLast (l : List Segment) :
    (sealLast l).map (fun s => segmentName s.number) = l.map fun s => segmentName s.number := by
  unfold sealLast
  refine List.ext_getElem (by simp) fun i h1 h2 => ?_
  rw [List.getElem_map, List.getElem_map, List.getElem_modify]
  split_ifs <;> rfl

/-- What a rotation leaves before it opens the new segment. -/
def sealedOff (w : Wal) (name : Bytes) : Wal :=
  { w.syncFile name with activeFd := none, segments := sealLast w.segments }

theorem Laid.sealedOff (h : w.Laid) (hact : w.activeFd = some name) :
    (w.sealedOff name).Laid ∧ w.Keeps (w.sealedOff name) := by
  refine ⟨⟨nofun, nofun, ?_, fun s hs => ?_⟩, fun r other f n hl => ?_⟩
  · exact (map_sealLast w.segments).symm ▸ h.nodup
  · obtain ⟨t, ht, hname⟩ := List.mem_map.1 ((map_sealLast w.segments) ▸ List.mem_map_of_mem hs :
      segmentName s.number ∈ w.segments.map fun s => segmentName s.number)
    rw [← hname]
    exact isSome_modify (h.found t ht)
  · obtain ⟨f', hl', hsync, -⟩ := keeps_syncFile w name r other f n hl
    refine ⟨f', ⟨hl'.find, hl'.le, hl'.frames, nofun⟩, hsync, fun hother _ => ?_⟩
    rw [hact] at hother
    cases hother
    have hf := Dir.find_modify_self hl.find File.sync
    rw [show f' = f.sync from Option.some.inj (hl'.find.symm.trans hf)]
    exact hl.le

/-- A new segment behind segments that are all sealed. -/
theorem Laid.openNewSegment (h : w.Laid) (hnone : w.activeFd = none) :
    w.openNewSegment.state.Laid ∧ w.Keeps w.openNewSegment.state ∧
      w.openNewSegment.state.highestLsn = w.highestLsn := by
  unfold Wal.openNewSegment
  dsimp only
  split_ifs with hsome
  · exact ⟨h, Keeps.refl w, rfl⟩
  dsimp only [Outcome.state]
  -- the new file has a name of its own, so that all others are as they were
  have hfree : w.files.find (segmentName w.nextNumber) = none := by simpa using hsome
  have hne : ∀ {other : Bytes} {f : File}, w.files.find other = some f →
      other ≠ segmentName w.nextNumber := by
    rintro other f hf rfl
    rw [hfree] at hf
    cases hf
  have hold : ∀ {other : Bytes} {f : File} (g : File → File), w.files.find other = some f →
      ((w.files.create (segmentName w.nextNumber)).modify (segmentName w.nextNumber) g).find other =
        some f := fun g hf => (Dir.find_modify_ne (hne hf) g).trans (Dir.find_create_some hf)
  have hnew := Dir.find_modify_self (Dir.find_create_self hfree)
    fun f => (f.writeAt 0 (encodeHeader w.opener)).sync
  have hbytes : ((File.mk [] 0).writeAt 0 (encodeHeader w.opener)).sync.bytes =
      encodeHeader w.opener := by simp [File.writeAt, File.sync]
  refine ⟨⟨fun name hact => ?_, fun name hact => ?_, ?_, fun s hs => ?_⟩,
    fun r other f n hl => ?_, rfl⟩
  · cases hact
    refine ⟨_, [], hnew, by rw [hbytes], ?_⟩
    rw [hbytes, List.take_length]
    exact (List.append_nil _).symm
  · cases hact
    exact ⟨_, List.getLast?_concat, rfl⟩
  · refine (List.map_append ▸ List.nodup_append'.2 ⟨h.nodup, List.nodup_singleton _, ?_⟩ :
      ((w.segments ++ [Segment.mk w.nextNumber 0 0 false]).map fun s => segmentName s.number).Nodup)
    intro x hx hnext
    obtain ⟨s, hs, rfl⟩ := List.mem_map.1 hx
    obtain ⟨f, hf⟩ := Option.isSome_iff_exists.1 (h.found s hs)
    exact hne hf (List.mem_singleton.1 hnext)
  · rcases List.mem_append.1 hs with hs | hs
    · obtain ⟨f, hf⟩ := Option.isSome_iff_exists.1 (h.found s hs)
      rw [hold _ hf]
      rfl
    · rw [List.mem_singleton.1 hs, hnew]
      rfl
  · refine ⟨f, ⟨hold (fun f => (f.writeAt 0 (encodeHeader w.opener)).sync) hl.find, hl.le,
      hl.frames,
      fun hact => ?_⟩, id, fun hact => ?_⟩
    · cases hact
      exact absurd rfl (hne hl.find)
    · rw [hnone] at hact
      cases hact

theorem Laid.rotate (h : w.Laid) : w.rotate.state.Laid ∧ w.Keeps w.rotate.state ∧
    w.rotate.state.highestLsn = w.highestLsn := by
  unfold Wal.rotate
  split
  · exact ⟨h, Keeps.refl w, rfl⟩
  · rename_i name hact
    obtain ⟨hlaid, hkeeps⟩ := h.sealedOff hact
    obtain ⟨hlaid', hkeeps', hhigh⟩ := hlaid.openNewSegment rfl
    exact ⟨hlaid', hkeeps.trans hkeeps', hhigh⟩

theorem activeFd_rotate (h : w.rotate = .ok () w') : w'.activeFd.isSome := by
  unfold Wal.rotate at h
  split at h
  · cases h
  · unfold Wal.openNewSegment at h
    dsimp only at h
    split_ifs at h
    cases h
    rfl

/-! ### Appending -/

/-- The record is written behind the frames. -/
theorem Laid.push (h : w.Laid) (hact : w.activeFd = some name) (r : WalRecord) :
    let w' := { w.modifyFile name fun f => f.writeAt w.activeBytes (encodeRecord r)
      with activeBytes := w.activeBytes + (encodeRecord r).length }.note
        (w.segments.length - 1) r.lsn
    w'.Laid ∧ w.Keeps w' ∧ w'.OnDisk r name w'.activeBytes := by
  obtain ⟨f, rs, hf, hle, htake⟩ := h.active name hact
  obtain ⟨hlong, -, hall⟩ := length_writeAt hle (encodeRecord r)
  rw [htake] at hall
  have hfind := Dir.find_modify_self hf fun f => f.writeAt w.activeBytes (encodeRecord r)
  have hframes : encodeHeader w.opener ++ frames rs ++ encodeRecord r =
      encodeHeader w.opener ++ frames (rs ++ [r]) := by
    rw [frames_concat, List.append_assoc]
  have hnames : (w.segments.modify (w.segments.length - 1) fun s => s.note r.lsn).map
      (fun s => segmentName s.number) = w.segments.map fun s => segmentName s.number := by
    refine List.ext_getElem (by simp) fun i h1 h2 => ?_
    rw [List.getElem_map, List.getElem_map, List.getElem_modify]
    split_ifs <;> rfl
  refine ⟨⟨fun other hother => ?_, fun other hother => ?_, ?_, fun s hs => ?_⟩,
    fun r' other f' n hl => ?_, ?_⟩
  · cases hact.symm.trans hother
    exact ⟨_, rs ++ [r], hfind, hlong, hall.trans hframes⟩
  · obtain ⟨s, hs, hname⟩ := h.last other hother
    have hlast := congrArg List.getLast? hnames
    rw [List.getLast?_map, List.getLast?_map, hs] at hlast
    obtain ⟨t, ht, htn⟩ := Option.map_eq_some_iff.1 hlast
    exact ⟨t, ht, htn.trans hname⟩
  · exact hnames.symm ▸ h.nodup
  · obtain ⟨t, ht, hname⟩ := List.mem_map.1 (hnames ▸ List.mem_map_of_mem hs :
      segmentName s.number ∈ w.segments.map fun s => segmentName s.number)
    rw [← hname]
    have hfound : ((w.files.modify name fun f => f.writeAt w.activeBytes (encodeRecord r)).find
        (segmentName t.number)).isSome := isSome_modify (h.found t ht)
    exact hfound
  · obtain ⟨f'', hl', hsync, hleft⟩ := h.keeps_writeAt hact (encodeRecord r) r' other f' n hl
    exact ⟨f'', ⟨hl'.find, hl'.le, hl'.frames,
      fun hfd => (hl'.front hfd).trans (Nat.le_add_right ..)⟩,
      hsync, hleft⟩
  · exact ⟨_, ⟨hfind, hlong, ⟨rs, hall.trans hframes⟩, fun _ => le_rfl⟩,
      fun hne => absurd hact hne⟩

/-- A part of a frame is written behind the frames. -/
theorem Laid.tear (h : w.Laid) (hact : w.activeFd = some name) (part : Bytes) :
    (w.modifyFile name fun f => f.writeAt w.activeBytes part).Laid := by
  obtain ⟨f, rs, hf, hle, htake⟩ := h.active name hact
  obtain ⟨hlong, hsame, -⟩ := length_writeAt hle part
  have hfind := Dir.find_modify_self hf fun f => f.writeAt w.activeBytes part
  exact
  { active := fun other hother => by
      cases hact.symm.trans hother
      exact ⟨_, rs, hfind, (Nat.le_add_right ..).trans hlong, hsame.trans htake⟩
    last := h.last
    nodup := h.nodup
    found := fun s hs => isSome_modify (f := fun f => f.writeAt w.activeBytes part) (h.found s hs) }

/-- The first half of an append. -/
theorem Laid.makeRoom (h : w.Laid) (full : Prop) [Decidable full] :
    (if full then w.rotate else .ok () w).state.Laid ∧
      w.Keeps (if full then w.rotate else .ok () w).state ∧
        (if full then w.rotate else .ok () w).state.highestLsn = w.highestLsn := by
  split_ifs
  · exact h.rotate
  · exact ⟨h, Keeps.refl w, rfl⟩

/-- **An append that returns** puts its record on disk. -/
theorem Laid.append (h : w.Laid) (ha : w.append r fault = .ok () w') :
    w'.Laid ∧ w.Keeps w' ∧ (∃ name, w'.activeFd = some name ∧ w'.OnDisk r name w'.activeBytes) ∧
      w'.highestLsn = max w.highestLsn r.lsn := by
  unfold Wal.append at ha
  dsimp only at ha
  split at ha
  · cases ha
  · rename_i name hact
    obtain ⟨_, w₁, hroom, ha⟩ := Outcome.andThen_ok ha
    have hstate := h.makeRoom (walHeaderSize < w.activeBytes ∧
      w.segMax < w.activeBytes + (encodeRecord r).length)
    rw [hroom] at hstate
    obtain ⟨hlaid, hkeeps, hhigh⟩ : w₁.Laid ∧ w.Keeps w₁ ∧ w₁.highestLsn = w.highestLsn := hstate
    obtain ⟨name₁, hact₁⟩ : ∃ name₁, w₁.activeFd = some name₁ := by
      split_ifs at hroom
      · exact Option.isSome_iff_exists.1 (activeFd_rotate hroom)
      · cases hroom
        exact ⟨name, hact⟩
    split at ha
    · cases ha
    · rw [hact₁] at ha
      cases ha
      obtain ⟨hlaid', hkeeps', hdisk⟩ := hlaid.push hact₁ r
      exact ⟨hlaid', hkeeps.trans hkeeps', ⟨name₁, hact₁, hdisk⟩, congrArg (max · r.lsn) hhigh⟩

/-- **An append that throws** leaves the records where they are. -/
theorem Laid.append_error (h : w.Laid) (ha : w.append r fault = .error e w') :
    w'.Laid ∧ w.Keeps w' ∧ w'.highestLsn = w.highestLsn := by
  unfold Wal.append at ha
  dsimp only at ha
  have hstate := h.makeRoom (walHeaderSize < w.activeBytes ∧
    w.segMax < w.activeBytes + (encodeRecord r).length)
  split at ha
  · cases ha
    exact ⟨h, Keeps.refl w, rfl⟩
  · rename_i name hact
    rcases Outcome.andThen_error ha with hroom | ⟨_, w₁, hroom, ha⟩
    · rw [hroom] at hstate
      exact hstate
    · rw [hroom] at hstate
      obtain ⟨hlaid, hkeeps, hhigh⟩ : w₁.Laid ∧ w.Keeps w₁ ∧ w₁.highestLsn = w.highestLsn := hstate
      obtain ⟨name₁, hact₁⟩ : ∃ name₁, w₁.activeFd = some name₁ := by
        split_ifs at hroom
        · exact Option.isSome_iff_exists.1 (activeFd_rotate hroom)
        · cases hroom
          exact ⟨name, hact⟩
      split at ha
      · rw [hact₁] at ha
        cases ha
        exact ⟨hlaid.tear hact₁ _, hkeeps.trans (hlaid.keeps_writeAt hact₁ _), hhigh⟩
      · cases ha

/-! ### Truncating -/

/-- The loop of `truncate` finds every file it unlinks.  It keeps the last segment, the files of the
segments it keeps, and those of other names. -/
theorem reclaim_found (upto : ℕ) : ∀ (ss : List Segment) (d : Dir),
    (ss.map fun s => segmentName s.number).Nodup →
    (∀ s ∈ ss, (d.find (segmentName s.number)).isSome) →
    ∃ kept d', reclaim upto ss d = .ok kept d' ∧ kept.Sublist ss ∧ kept.getLast? = ss.getLast? ∧
      (∀ s ∈ kept, d'.find (segmentName s.number) = d.find (segmentName s.number)) ∧
      ∀ name, d'.find name = d.find name ∨
        d'.find name = none ∧ ∃ s ∈ ss.dropLast, segmentName s.number = name := by
  intro ss
  induction ss with
  | nil =>
    exact fun d _ _ => ⟨[], d, rfl, List.Sublist.refl _, rfl, fun _ _ => rfl, fun _ => .inl rfl⟩
  | cons s rest ih =>
    intro d hnodup hfound
    by_cases hne : rest = []
    · subst hne
      exact ⟨[s], d, rfl, List.Sublist.refl _, rfl, fun _ _ => rfl, fun _ => .inl rfl⟩
    rw [List.map_cons, List.nodup_cons] at hnodup
    rw [reclaim_cons hne, List.dropLast_cons_of_ne_nil hne, List.getLast?_cons_of_ne_nil hne]
    -- unlinking one file leaves those of the other segments
    have hother : ∀ t ∈ rest, segmentName t.number ≠ segmentName s.number := fun t ht heq =>
      hnodup.1 (heq ▸ List.mem_map_of_mem (f := fun s => segmentName s.number) ht)
    split_ifs with hcovered hmissing
    · have hsome := hfound s List.mem_cons_self
      rw [Option.isNone_iff_eq_none.1 hmissing] at hsome
      cases hsome
    · obtain ⟨kept, d', he, hsub, hlast, hsame, hfiles⟩ :=
        ih (d.unlink (segmentName s.number)) hnodup.2 fun t ht => by
          rw [Dir.find_unlink_ne (hother t ht)]
          exact hfound t (List.mem_cons_of_mem _ ht)
      refine ⟨kept, d', he, hsub.cons _, hlast, fun t ht => ?_, fun name => ?_⟩
      · rw [hsame t ht, Dir.find_unlink_ne (hother t (hsub.subset ht))]
      · by_cases hname : name = segmentName s.number
        · refine .inr ⟨?_, s, List.mem_cons_self, hname.symm⟩
          rcases hfiles name with hf | ⟨hnone, -⟩
          · rw [hf, hname, Dir.find_unlink_self]
          · exact hnone
        · rcases hfiles name with hf | ⟨hnone, t, ht, htn⟩
          · exact .inl (hf.trans (Dir.find_unlink_ne hname))
          · exact .inr ⟨hnone, t, List.mem_cons_of_mem _ ht, htn⟩
    · obtain ⟨kept, d', he, hsub, hlast, hsame, hfiles⟩ :=
        ih d hnodup.2 fun t ht => hfound t (List.mem_cons_of_mem _ ht)
      have hkept : kept ≠ [] := by
        rintro rfl
        exact hne (List.getLast?_eq_none_iff.1 hlast.symm)
      rw [he]
      refine ⟨s :: kept, d', rfl, hsub.cons_cons _,
        (List.getLast?_cons_of_ne_nil hkept).trans hlast, fun t ht => ?_, fun name => ?_⟩
      · rcases List.mem_cons.1 ht with rfl | ht
        · rcases hfiles (segmentName t.number) with hf | ⟨-, u, hu, hun⟩
          · exact hf
          · exact absurd hun (hother u (List.dropLast_subset _ hu))
        · exact hsame t ht
      · exact (hfiles name).imp_right fun ⟨hnone, t, ht, htn⟩ =>
          ⟨hnone, t, List.mem_cons_of_mem _ ht, htn⟩

/-- **A truncation** returns; it leaves every file as it is or unlinks it, and never unlinks the one
that is written to. -/
theorem Laid.truncate (h : w.Laid) (upto : ℕ) : ∃ w', w.truncate upto = .ok () w' ∧ w'.Laid ∧
    w'.highestLsn = w.highestLsn ∧ ∀ r name f n, w.Located r name f n →
      w'.Located r name f n ∧ w'.activeFd = w.activeFd ∨
        w'.files.find name = none ∧ w.activeFd ≠ some name := by
  obtain ⟨kept, d', he, hsub, hlast, hsame, hfiles⟩ :=
    reclaim_found upto w.segments w.files h.nodup h.found
  have hactive : ∀ name, w.activeFd = some name → d'.find name = w.files.find name := by
    intro name hact
    rcases hfiles name with hf | ⟨-, s, hs, hname⟩
    · exact hf
    · -- the last segment would be among the others
      obtain ⟨t, ht, htn⟩ := h.last name hact
      have hsplit := List.dropLast_append_getLast? t ht
      have hnodup := h.nodup
      rw [← hsplit, List.map_append, List.nodup_append] at hnodup
      exact absurd (hname.trans htn.symm) (hnodup.2.2 _
        (List.mem_map_of_mem (f := fun s => segmentName s.number) hs) _ (by simp))
  unfold Wal.truncate
  rw [he]
  refine ⟨_, rfl, ⟨fun name hact => ?_, fun name hact => ?_, ?_, fun s hs => ?_⟩, rfl,
    fun r name f n hl => ?_⟩
  · obtain ⟨f, rs, hf, hle, htake⟩ := h.active name hact
    exact ⟨f, rs, (hactive name hact).trans hf, hle, htake⟩
  · obtain ⟨s, hs, hname⟩ := h.last name hact
    exact ⟨s, hlast.trans hs, hname⟩
  · exact h.nodup.sublist (hsub.map _)
  · exact (hsame s hs) ▸ h.found s (hsub.subset hs)
  · rcases hfiles name with hf | ⟨hnone, -⟩
    · exact .inl ⟨⟨hf.trans hl.find, hl.le, hl.frames, hl.front⟩, rfl⟩
    · refine .inr ⟨hnone, fun hact => ?_⟩
      have hsame := (hactive name hact).trans hl.find
      rw [hnone] at hsame
      cases hsame

/-! ### Steps -/

/-- What a step of a log may do: a record stays where it is and on stable storage, unless its file
is unlinked, which no file is that holds a record not yet on stable storage. -/
structure Evolves (w w' : Wal) : Prop where
  laid : w'.Laid
  high : w.highestLsn ≤ w'.highestLsn
  onDisk : ∀ r name n, w.OnDisk r name n →
    w'.OnDisk r name n ∨ w.Stable r name n ∧ w'.files.find name = none
  stable : ∀ r name n, w.Stable r name n → w'.Stable r name n ∨ w'.files.find name = none

theorem Laid.evolves (h : w'.Laid) (hkeeps : w.Keeps w') (hhigh : w.highestLsn ≤ w'.highestLsn) :
    w.Evolves w' where
  laid := h
  high := hhigh
  onDisk _ _ _ hr := .inl (hkeeps.onDisk hr)
  stable _ _ _ hr := .inl (hkeeps.stable hr)

theorem Laid.evolves_truncate (h : w.Laid) (upto : ℕ) :
    ∃ w', w.truncate upto = .ok () w' ∧ w.Evolves w' ∧ w'.highestLsn = w.highestLsn := by
  obtain ⟨w', he, hlaid, hhigh, hfiles⟩ := h.truncate upto
  refine ⟨w', he, ⟨hlaid, hhigh.ge, fun r name n hr => ?_, fun r name n hr => ?_⟩, hhigh⟩
  · obtain ⟨f, hl, hn⟩ := hr
    rcases hfiles r name f n hl with ⟨hl', hact⟩ | ⟨hnone, hne⟩
    · exact .inl ⟨f, hl', fun hne => hn (hact ▸ hne)⟩
    · exact .inr ⟨⟨f, hl, hn hne⟩, hnone⟩
  · obtain ⟨f, hl, hn⟩ := hr
    rcases hfiles r name f n hl with ⟨hl', -⟩ | ⟨hnone, -⟩
    · exact .inl ⟨f, hl', hn⟩
    · exact .inr hnone

end Wal

end Vdb
