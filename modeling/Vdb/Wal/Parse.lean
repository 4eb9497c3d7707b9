import Vdb.Wal.Replay

/-!
# Replaying any bytes

What a replay delivers from segment files of any content: `parse` reads the records off the front of
some bytes, and `replaySegment_collect` says that a replay delivers these.
-/

namespace Vdb

/-- The records off the front of the bytes, at most `n` of them, and the bytes behind. -/
def parse : ℕ → Bytes → List WalRecord × Bytes
  | 0, bs => ([], bs)
  | n + 1, bs =>
    match decodeRecord bs with
    | .ok r k => (r :: (parse n (bs.drop k)).1, (parse n (bs.drop k)).2)
    | _ => ([], bs)

theorem torn_nil : Torn [] := fun r n h => by
  obtain ⟨hpos, hle⟩ := decodeRecord_ok h
  simp at hle
  omega

theorem parse_torn {n : ℕ} {bs : Bytes} (h : Torn bs) : parse n bs = ([], bs) := by
  cases n with
  | zero => rfl
  | succ n =>
    rw [parse]
    cases hd : decodeRecord bs with
    | ok r k => exact absurd hd (h r k)
    | incomplete => rfl
    | badCrc => rfl

/-- With enough rounds nothing is left to read. -/
theorem torn_parse {n : ℕ} {bs : Bytes} (hn : bs.length ≤ n) : Torn (parse n bs).2 := by
  induction n generalizing bs with
  | zero =>
    rw [List.length_eq_zero_iff.1 (Nat.le_zero.1 hn)]
    exact torn_nil
  | succ n ih =>
    rw [parse]
    cases hd : decodeRecord bs with
    | ok r k =>
      obtain ⟨hpos, hle⟩ := decodeRecord_ok hd
      refine ih ?_
      rw [List.length_drop]
      omega
    | incomplete => exact fun r k h => by rw [hd] at h; cases h
    | badCrc => exact fun r k h => by rw [hd] at h; cases h

/-- If nothing was read, nothing can be. -/
theorem parse_eq_nil {bs : Bytes} (h : (parse bs.length bs).1 = []) :
    (parse bs.length bs).2 = bs ∧ Torn bs := by
  have htorn : (parse bs.length bs).2 = bs := by
    cases bs with
    | nil => rfl
    | cons b bs =>
      rw [List.length_cons, parse] at h ⊢
      cases hd : decodeRecord (b :: bs) with
      | ok r k =>
        rw [hd] at h
        cases h
      | incomplete => rfl
      | badCrc => rfl
  exact ⟨htorn, htorn ▸ torn_parse le_rfl⟩

/-- The frames of some records are parsed as these. -/
theorem parse_frames {n : ℕ} {rs : List WalRecord} (hfit : ∀ r ∈ rs, r.Fits) (hn : rs.length ≤ n)
    (rest : Bytes) : parse n (frames rs ++ rest) =
      (rs.map WalRecord.carried ++ (parse (n - rs.length) rest).1,
        (parse (n - rs.length) rest).2) := by
  induction rs generalizing n with
  | nil => rfl
  | cons r rs ih =>
    cases n with
    | zero => simp at hn
    | succ n =>
      have hframe : frames (r :: rs) ++ rest = encodeRecord r ++ (frames rs ++ rest) :=
        List.append_assoc ..
      rw [hframe, parse, decodeRecord_encodeRecord (hfit r List.mem_cons_self)]
      dsimp only
      rw [List.drop_left, ih (fun s hs => hfit s (List.mem_cons_of_mem _ hs))
        (Nat.le_of_succ_le_succ hn), List.length_cons, Nat.succ_sub_succ]
      rfl

namespace Wal

/-- The scan delivers what is parsed. -/
theorem scan_collect (si : ℕ) {n : ℕ} {bytes : Bytes} {w : Wal} {user : List WalRecord} {off : ℕ}
    {p : List WalRecord × Bytes} (hoff : off ≤ bytes.length) (hn : bytes.length - off ≤ n)
    (hp : parse n (bytes.drop off) = p) :
    scan collect si bytes n ⟨w, user, off⟩ =
      .ok (p.2 ≠ []) ⟨w.noteAll si p.1, user ++ p.1, bytes.length - p.2.length⟩ := by
  induction n generalizing w user off p with
  | zero =>
    have hend : off = bytes.length := by omega
    subst hend hp
    simp [scan, parse, noteAll]
  | succ n ih =>
    -- the loop ends at the end of the bytes, which parse as no record
    by_cases hend : bytes.length ≤ off
    · have heq : off = bytes.length := by omega
      subst heq
      rw [List.drop_length, parse_torn torn_nil] at hp
      subst hp
      rw [scan_end le_rfl]
      simp [noteAll]
    · have hrest : bytes.drop off ≠ [] ∧ bytes.length - (bytes.drop off).length = off := by
        rw [← List.length_pos_iff, List.length_drop]
        omega
      rw [parse] at hp
      rw [scan, if_neg hend]
      dsimp only
      cases hd : decodeRecord (bytes.drop off) with
      | ok r k =>
        obtain ⟨hpos, hle⟩ := decodeRecord_ok hd
        rw [List.length_drop] at hle
        rw [hd] at hp
        dsimp only at hp
        rw [List.drop_drop] at hp
        subst hp
        dsimp only [collect]
        rw [ih (by omega) (by omega) rfl, List.append_assoc, List.singleton_append]
        rfl
      | incomplete =>
        rw [hd] at hp
        subst hp
        simp only [hrest.2, ne_eq, hrest.1, not_false_eq_true, decide_true, List.append_nil]
        rfl
      | badCrc =>
        rw [hd] at hp
        subst hp
        simp only [hrest.2, ne_eq, hrest.1, not_false_eq_true, decide_true, List.append_nil]
        rfl

/-! ### One segment -/

/-- The header of the segment number `i` of the list, if its file has a valid one. -/
def header (w : Wal) (i : ℕ) : Option WalHeader :=
  (w.files.find (segmentName (w.segments.getD i { number := 0 }).number)).bind fun f =>
    decodeHeader f.bytes

/-- What follows the header of the segment number `i`. -/
def body (w : Wal) (i : ℕ) : Bytes :=
  ((w.files.find (segmentName (w.segments.getD i { number := 0 }).number)).elim [] File.bytes).drop
    walHeaderSize

/-- A header that replay accepts. -/
def Accepted (w : Wal) (i : ℕ) : Prop :=
  ∃ h ∈ w.header i, h.dim = w.opener.dim.toNat ∧ h.metric = w.opener.metric.toNat

/-- The records of the segment number `i`, and what is behind them. -/
def parsed (w : Wal) (i : ℕ) : List WalRecord × Bytes := parse (w.body i).length (w.body i)

/-- More rounds than bytes read nothing more. -/
theorem parse_fuel {m n : ℕ} {bs : Bytes} (hm : bs.length ≤ m) (hn : bs.length ≤ n) :
    parse m bs = parse n bs := by
  induction m generalizing n bs with
  | zero =>
    rw [List.length_eq_zero_iff.1 (Nat.le_zero.1 hm), parse_torn torn_nil, parse_torn torn_nil]
  | succ m ih =>
    cases n with
    | zero =>
      rw [List.length_eq_zero_iff.1 (Nat.le_zero.1 hn), parse_torn torn_nil, parse_torn torn_nil]
    | succ n =>
      rw [parse, parse]
      cases hd : decodeRecord bs with
      | ok r k =>
        obtain ⟨hpos, hle⟩ := decodeRecord_ok hd
        dsimp only
        rw [ih (n := n) (by rw [List.length_drop]; omega) (by rw [List.length_drop]; omega)]
      | incomplete => rfl
      | badCrc => rfl

/-- A segment that is not accepted delivers nothing, and replay ends there. -/
theorem replaySegment_rejected {σ : Type} {w : Wal} {i : ℕ}
    (onRecord : WalRecord → σ → Outcome σ Unit) (user : σ) (h : ¬ w.Accepted i) :
    ∃ e, replaySegment onRecord i w user = .error e (w, user) := by
  unfold Accepted header at h
  unfold replaySegment
  dsimp only
  cases hf : w.files.find (segmentName (w.segments.getD i { number := 0 }).number) with
  | none => exact ⟨_, rfl⟩
  | some f =>
    rw [hf] at h
    dsimp only
    cases hd : decodeHeader f.bytes with
    | none => exact ⟨_, rfl⟩
    | some hdr =>
      dsimp only
      split_ifs with hmatch
      · exact ⟨_, rfl⟩
      · refine (h ⟨hdr, by simp [hd], ?_⟩).elim
        rw [not_or, not_not, not_not] at hmatch
        exact hmatch

/-- An accepted segment delivers what is parsed. -/
theorem replaySegment_accepted {w : Wal} {i : ℕ} (user : List WalRecord) (h : w.Accepted i) :
    ∃ size, replaySegment collect i w user =
      endScan (w.segments.getD i { number := 0 }).number (i + 1 = w.segments.length) size
        ((w.parsed i).2 ≠ []) ⟨w.noteAll i (w.parsed i).1, user ++ (w.parsed i).1,
          size - (w.parsed i).2.length⟩ := by
  obtain ⟨hdr, hmem, hdim, hmetric⟩ := h
  obtain ⟨f, hf, hd⟩ := Option.bind_eq_some_iff.1 hmem
  have hbody : w.body i = f.bytes.drop walHeaderSize := by rw [body, hf]; rfl
  have hlen : walHeaderSize ≤ f.bytes.length := by
    by_contra hshort
    rw [decodeHeader, if_pos (Nat.lt_of_not_le hshort)] at hd
    cases hd
  have hparse : parse f.bytes.length (f.bytes.drop walHeaderSize) = w.parsed i := by
    rw [parsed, hbody]
    exact parse_fuel (by rw [List.length_drop]; exact Nat.sub_le ..) le_rfl
  unfold replaySegment
  dsimp only
  rw [hf]
  dsimp only
  rw [hd]
  dsimp only
  rw [if_neg (by simp [hdim, hmetric]), scan_collect i hlen (Nat.sub_le ..) hparse]
  exact ⟨_, rfl⟩

end Wal

end Vdb
