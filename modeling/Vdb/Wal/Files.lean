import Vdb.Wal.Basic
import Mathlib.Data.List.TakeWhile

/-!
# The files of a log

The directory of a log holds one file for each segment, in order; `segmentFiles` is such a
directory.  The lemmas say what the system calls do to it, and that `discover_segments_` finds the
segments again as long as their numbers have twelve digits.
-/

namespace Vdb

/-! ### Names -/

@[simp] theorem length_lastDigits (w n : ℕ) : (lastDigits w n).length = w := by
  induction w generalizing n with
  | zero => rfl
  | succ w ih => rw [lastDigits, List.length_append, ih, List.length_singleton]

theorem toNat_digit (n : ℕ) : (UInt8.ofNat (48 + n % 10)).toNat = 48 + n % 10 := by
  rw [UInt8.toNat_ofNat', Nat.mod_eq_of_lt (by omega)]

theorem isDigit_lastDigits (w n : ℕ) : ∀ c ∈ lastDigits w n, isDigit c = true := by
  induction w generalizing n with
  | zero => simp [lastDigits]
  | succ w ih =>
    intro c hc
    rw [lastDigits, List.mem_append, List.mem_singleton] at hc
    rcases hc with hc | rfl
    · exact ih _ c hc
    · have h := toNat_digit n
      simp only [isDigit, Bool.and_eq_true, decide_eq_true_eq, UInt8.le_iff_toNat_le, h]
      exact ⟨by simp, by simp; omega⟩

theorem foldl_lastDigits (w n a : ℕ) :
    (lastDigits w n).foldl (fun n d => 10 * n + (d.toNat - 48)) a = a * 10 ^ w + n % 10 ^ w := by
  induction w generalizing n a with
  | zero => simp [lastDigits, Nat.mod_one]
  | succ w ih =>
    rw [lastDigits, List.foldl_append, ih, List.foldl_cons, List.foldl_nil, toNat_digit,
      Nat.add_sub_cancel_left, pow_succ', Nat.mod_mul]
    ring

/-- A number of digits reads as itself. -/
theorem stoull_digits {s : Bytes} (hs : s ≠ []) (hd : ∀ c ∈ s, isDigit c = true)
    (hlt : s.foldl (fun n d => 10 * n + (d.toNat - 48)) 0 < 2 ^ 64) :
    stoull s = some (s.foldl (fun n d => 10 * n + (d.toNat - 48)) 0) := by
  have htake : s.takeWhile isDigit = s := List.takeWhile_eq_self_iff.2 hd
  cases s with
  | nil => exact absurd rfl hs
  | cons c s =>
    have hc : isDigit c = true := hd c List.mem_cons_self
    simp only [isDigit, Bool.and_eq_true, decide_eq_true_eq, UInt8.le_iff_toNat_le] at hc
    have hspace : isSpace c = false := by
      by_contra hne
      simp only [isSpace, Bool.not_eq_false, Bool.or_eq_true, Bool.and_eq_true, decide_eq_true_eq,
        UInt8.le_iff_toNat_le] at hne
      rcases hne with rfl | hne
      · exact absurd hc.1 (by decide)
      · exact absurd (hc.1.trans hne.2) (by decide)
    have hsign : skipSign (c :: s) = (false, c :: s) := by
      unfold skipSign
      split
      · rename_i heq
        cases heq
        exact absurd hc.1 (by decide)
      · rename_i heq
        cases heq
        exact absurd hc.1 (by decide)
      · rfl
    unfold stoull
    rw [List.dropWhile_cons_of_neg (by simp [hspace]), hsign]
    dsimp only
    rw [htake, if_neg fun h => h.elim hs (Nat.not_le.2 hlt)]
    rfl

theorem segmentNumber_segmentName {n : ℕ} (h : n < 10 ^ 12) :
    segmentNumber (segmentName n) = some n := by
  have hdec : decimal n = lastDigits 12 n := by rw [decimal, if_pos h]
  have hlen : (decimal n).length = 12 := by rw [hdec, length_lastDigits]
  have h4 : (ascii "wal-").length = 4 := rfl
  have hdrop : (segmentName n).drop 4 = decimal n ++ ascii ".log" := by
    rw [segmentName, ← h4, List.drop_left]
  have hdrop16 : (segmentName n).drop 16 = ascii ".log" := by
    rw [show 16 = 4 + 12 from rfl, ← List.drop_drop, hdrop, ← hlen, List.drop_left]
  have htake4 : (segmentName n).take 4 = ascii "wal-" := by
    rw [segmentName, ← h4, List.take_left]
  have hfold : (lastDigits 12 n).foldl (fun n d => 10 * n + (d.toNat - 48)) 0 = n := by
    rw [foldl_lastDigits, Nat.zero_mul, Nat.zero_add, Nat.mod_eq_of_lt h]
  unfold segmentNumber
  rw [if_neg (by simp [segmentName, hlen, h4, show (ascii ".log").length = 4 from rfl]),
    if_neg (not_not.2 htake4), if_neg (not_not.2 hdrop16), hdrop, ← hlen, List.take_left, hdec,
    stoull_digits (by rw [← List.length_pos_iff, length_lastDigits]; decide)
      (isDigit_lastDigits 12 n) (by rw [hfold]; omega), hfold]

theorem segmentName_inj {m n : ℕ} (hm : m < 10 ^ 12) (hn : n < 10 ^ 12)
    (h : segmentName m = segmentName n) : m = n :=
  Option.some.inj
    ((segmentNumber_segmentName hm).symm.trans
      ((congrArg _ h).trans (segmentNumber_segmentName hn)))

/-! ### Directories of segments -/

/-- The directory with these segment files. -/
def segmentFiles (l : List (ℕ × File)) : Dir := l.map fun e => (segmentName e.1, e.2)

/-- The numbers of the segments increase and have twelve digits. -/
structure Numbered (numbers : List ℕ) : Prop where
  increasing : numbers.Pairwise (· < ·)
  short : ∀ n ∈ numbers, n < 10 ^ 12

theorem Numbered.sublist {ms ns : List ℕ} (h : Numbered ns) (hs : ms.Sublist ns) : Numbered ms :=
  ⟨h.increasing.sublist hs, fun n hn => h.short n (hs.subset hn)⟩

/-- The next segment. -/
theorem Numbered.next {ns : List ℕ} {n : ℕ} (h : Numbered (ns ++ [n])) (hn : n + 1 < 10 ^ 12) :
    Numbered (ns ++ [n] ++ [n + 1]) := by
  refine ⟨List.pairwise_append.2 ⟨h.increasing, by simp, fun m hm k hk => ?_⟩, fun m hm => ?_⟩
  · rw [List.mem_singleton.1 hk]
    rcases List.mem_append.1 hm with hm | hm
    · exact ((List.pairwise_append.1 h.increasing).2.2 m hm n (by simp)).trans (Nat.lt_succ_self n)
    · rw [List.mem_singleton.1 hm]
      exact Nat.lt_succ_self n
  · rcases List.mem_append.1 hm with hm | hm
    · exact h.short m hm
    · rwa [List.mem_singleton.1 hm]

namespace Dir

variable {l l' : List (ℕ × File)} {n : ℕ} {f : File}

theorem find_segmentFiles (h : Numbered (l.map Prod.fst)) (hm : (n, f) ∈ l) :
    find (segmentFiles l) (segmentName n) = some f := by
  have hn := h.short n (List.mem_map_of_mem hm)
  unfold find segmentFiles
  induction l with
  | nil => cases hm
  | cons e l ih =>
    rw [List.map_cons, List.lookup_cons]
    have htail : Numbered (l.map Prod.fst) := h.sublist (List.sublist_cons_self ..)
    rcases List.mem_cons.1 hm with rfl | hm
    · rw [beq_self_eq_true]
    · have hlt : e.1 < n :=
        List.rel_of_pairwise_cons h.increasing (List.mem_map_of_mem (f := Prod.fst) hm)
      have hne : (segmentName n == segmentName e.1) = false := by
        rw [beq_eq_false_iff_ne]
        intro heq
        exact hlt.ne' (segmentName_inj hn (hlt.trans hn) heq)
      rw [hne]
      exact ih htail hm

theorem find_segmentFiles_none (h : ∀ m ∈ l.map Prod.fst, m < n) (hn : n < 10 ^ 12) :
    find (segmentFiles l) (segmentName n) = none := by
  unfold find segmentFiles
  rw [List.lookup_eq_none_iff]
  intro e he
  obtain ⟨x, hx, rfl⟩ := List.mem_map.1 he
  have hlt := h x.1 (List.mem_map_of_mem hx)
  rw [bne_iff_ne]
  exact fun heq => hlt.ne' (segmentName_inj hn (hlt.trans hn) heq)

theorem modify_segmentFiles (h : Numbered ((l ++ [(n, f)]).map Prod.fst)) (g : File → File) :
    modify (segmentFiles (l ++ [(n, f)])) (segmentName n) g = segmentFiles (l ++ [(n, g f)]) := by
  rw [List.map_append] at h
  have hn : n < 10 ^ 12 := h.short n (by simp)
  unfold modify segmentFiles
  rw [List.map_map, List.map_append, List.map_append]
  congr 1
  · refine List.map_congr_left fun e he => ?_
    have hlt : e.1 < n :=
      (List.pairwise_append.1 h.increasing).2.2 e.1 (List.mem_map_of_mem he) n (by simp)
    exact if_neg fun heq => hlt.ne (segmentName_inj (hlt.trans hn) hn heq)
  · simp

theorem create_segmentFiles :
    create (segmentFiles l) (segmentName n) = segmentFiles (l ++ [(n, File.mk [] 0)]) := by
  simp [create, segmentFiles]

theorem unlink_segmentFiles (h : Numbered ((l ++ (n, f) :: l').map Prod.fst)) :
    unlink (segmentFiles (l ++ (n, f) :: l')) (segmentName n) = segmentFiles (l ++ l') := by
  rw [List.map_append, List.map_cons] at h
  have hn : n < 10 ^ 12 := h.short n (by simp)
  have hkeep : ∀ l : List (ℕ × File), (∀ e ∈ l, e.1 < 10 ^ 12 ∧ e.1 ≠ n) →
      (segmentFiles l).filter (fun e => e.1 ≠ segmentName n) = segmentFiles l := by
    intro l hl
    rw [List.filter_eq_self]
    intro e he
    obtain ⟨x, hx, rfl⟩ := List.mem_map.1 he
    obtain ⟨hshort, hne⟩ := hl x hx
    simpa using fun heq => hne (segmentName_inj hshort hn heq)
  have hmem : ∀ e ∈ l, e.1 ∈ l.map Prod.fst := fun e he => List.mem_map_of_mem he
  have hmem' : ∀ e ∈ l', e.1 ∈ l'.map Prod.fst := fun e he => List.mem_map_of_mem he
  obtain ⟨-, hright, hcross⟩ := List.pairwise_append.1 h.increasing
  have hsplit : segmentFiles (l ++ (n, f) :: l') =
      segmentFiles l ++ (segmentName n, f) :: segmentFiles l' := by simp [segmentFiles]
  have hjoin : segmentFiles (l ++ l') = segmentFiles l ++ segmentFiles l' := by
    simp [segmentFiles]
  rw [unlink, hsplit, hjoin, List.filter_append, List.filter_cons_of_neg (by simp)]
  congr 1
  · exact hkeep l fun e he =>
      ⟨h.short _ (by simp [hmem e he]), (hcross _ (hmem e he) n (by simp)).ne⟩
  · exact hkeep l' fun e he => ⟨h.short _ (by simp [hmem' e he]),
      (List.rel_of_pairwise_cons hright (hmem' e he)).ne'⟩

theorem discoverSegments_segmentFiles (h : Numbered (l.map Prod.fst)) :
    discoverSegments (segmentFiles l) = l.map Prod.fst := by
  have hnumbers : (segmentFiles l).filterMap (fun e => segmentNumber e.1) = l.map Prod.fst := by
    rw [segmentFiles, List.filterMap_map, ← List.filterMap_eq_map]
    refine List.filterMap_congr fun e he => ?_
    exact segmentNumber_segmentName (h.short e.1 (List.mem_map_of_mem he))
  rw [discoverSegments, hnumbers]
  exact List.Pairwise.insertionSort_eq (h.increasing.imp fun h => h.le)

end Dir

end Vdb
