import Vdb.Durable.Credited
import Vdb.Durable.Recovery

/-!
# A crash inside `truncate`

`Wal::truncate` unlinks one segment after the other.  What it has unlinked at any time is what it
unlinks up to a smaller lsn.

* `Wal.unlinking` : the files when it has unlinked some of them.
* `Chronicle.unlinked_stored` : a process finds in them what it finds behind a call that has ended.
-/

namespace Vdb

namespace Wal

variable {w w' : Wal} {o : Opener} {l : Log}

/-- `truncate` takes the segment away. -/
def Reclaims (upto : ℕ) (s : Segment) : Prop := s.isSealed ∧ s.lastLsn ≠ 0 ∧ s.lastLsn ≤ upto

instance (upto : ℕ) : DecidablePred (Reclaims upto) := fun s =>
  inferInstanceAs (Decidable (s.isSealed = true ∧ s.lastLsn ≠ 0 ∧ s.lastLsn ≤ upto))

/-- The files when the loop of `truncate` has unlinked its first `k` segments. -/
def unlinking (w : Wal) (upto k : ℕ) : Dir :=
  ((w.segments.dropLast.filter (Reclaims upto)).take k).foldl
    (fun files s => files.unlink (segmentName s.number)) w.files

/-- What the loop of `truncate` leaves. -/
theorem reclaim_files {upto : ℕ} {ss survivors : List Segment} {files files' : Dir}
    (h : reclaim upto ss files = .ok survivors files') :
    files' = (ss.dropLast.filter (Reclaims upto)).foldl
      (fun files s => files.unlink (segmentName s.number)) files := by
  induction ss generalizing files survivors with
  | nil =>
    cases h
    rfl
  | cons s rest ih =>
    cases rest with
    | nil =>
      cases h
      rfl
    | cons t rest =>
      rw [reclaim] at h
      rw [List.dropLast_cons_cons]
      split_ifs at h with hs hfind
      · rw [List.filter_cons_of_pos (by exact decide_eq_true hs)]
        exact ih h
      · obtain ⟨survivors', files₁, hrest, h⟩ := Outcome.andThen_ok h
        cases h
        rw [List.filter_cons_of_neg (by exact decide_eq_true_iff.not.2 hs)]
        exact ih hrest

/-- The last lsns of the segments that have records are among those of the records. -/
theorem lastLsns_sublist (cs : List Content) :
    ((cs.filter fun c => (c.segment true).lastLsn ≠ 0).map fun c =>
      (c.segment true).lastLsn).Sublist
      ((cs.flatMap Content.records).map WalRecord.lsn) := by
  induction cs with
  | nil => exact List.Sublist.slnil
  | cons c cs ih =>
    rw [List.flatMap_cons, List.map_append]
    by_cases hc : (c.segment true).lastLsn ≠ 0
    · rw [List.filter_cons_of_pos (by simpa using hc), List.map_cons, ← List.singleton_append]
      refine List.Sublist.append (List.singleton_sublist.2 ?_) ih
      rw [Journal.lastLsn_segment] at hc ⊢
      cases hlast : c.records.getLast? with
      | none =>
        rw [hlast] at hc
        exact absurd rfl hc
      | some r => exact List.mem_map_of_mem (List.mem_of_getLast? hlast)
    · rw [List.filter_cons_of_neg (by simpa using hc)]
      exact ih.trans (List.sublist_append_right ..)

/-- **The files in the middle** of `truncate` are those behind it, for a smaller lsn. -/
theorem Holds.unlinked (h : w.Holds o l)
    (hordered : (0 :: l.records.map WalRecord.lsn).Pairwise (· < ·)) (upto k : ℕ) :
    ∃ upto' ≤ upto, ∃ w', w.truncate upto' = .ok () w' ∧ w'.files = w.unlinking upto k := by
  -- the segments of it that have records
  have hlsns : (0 :: (l.closed.filter fun c => (c.segment true).lastLsn ≠ 0).map
      fun c => (c.segment true).lastLsn).Pairwise (· < ·) := by
    refine hordered.sublist (((lastLsns_sublist l.closed).trans ?_).cons_cons 0)
    rw [Log.records, Log.segments, List.flatMap_append, List.map_append]
    exact List.sublist_append_left ..
  set cs := l.closed.filter fun c => (c.segment true).lastLsn ≠ 0 with hcs
  have hfilter : ∀ n, w.segments.dropLast.filter (Reclaims n) =
      (cs.filter fun c => (c.segment true).lastLsn ≤ n).map (Content.segment true) := by
    intro n
    rw [h.segments, List.dropLast_concat, List.filter_map, hcs, List.filter_filter]
    refine congrArg _ (List.filter_congr fun c _ => ?_)
    simp [Reclaims, isSealed_segment, and_comm]
  -- those that have gone are in front
  have hfront : (cs.filter fun c => (c.segment true).lastLsn ≤ upto).take k <+: cs := by
    refine (List.take_prefix ..).trans (filter_front ?_)
    refine (List.pairwise_map.1 (List.pairwise_cons.1 hlsns).2).imp fun hlt hle => ?_
    exact decide_eq_true (hlt.le.trans (of_decide_eq_true hle))
  have hm := prefix_eq_filter hfront hlsns
  set gone := (cs.filter fun c => (c.segment true).lastLsn ≤ upto).take k with hgone
  set m := gone.foldl (fun m c => max m (c.segment true).lastLsn) 0 with hmax
  have hle : m < upto + 1 := by
    refine foldl_max_lt (Nat.succ_pos _) fun c hc => Nat.lt_succ_of_le ?_
    exact of_decide_eq_true (List.mem_filter.1 (List.mem_of_mem_take hc)).2
  refine ⟨m, Nat.le_of_lt_succ hle, ?_⟩
  obtain ⟨w', he, -⟩ := h.truncate m
  refine ⟨w', he, ?_⟩
  unfold Wal.truncate at he
  split at he
  · cases he
  · rename_i survivors files hreclaim
    cases he
    rw [unlinking, hfilter, ← List.map_take, ← hgone, hm, ← hfilter]
    exact reclaim_files hreclaim

end Wal

namespace Durable

open Metadata Database

variable {ι δ : Type} [ColumnIndex ι] [Distance δ] {K : Kernels δ} {config : VDBConfig}
  {walDir : Bytes}

/-- The lsn up to which a call reclaims segments. -/
def Pc.reclaims : Pc δ → Option ℕ
  | .truncate _ lsn => some lsn
  | _ => none

namespace Chronicle

/-- A call that reclaims segments, if there is one, has unlinked the first `k` of them. -/
def unlinked (c : Chronicle ι δ) (k : ℕ) : Chronicle ι δ :=
  match c.system.calls.findSome? Pc.reclaims with
  | none => c
  | some lsn =>
    let files := c.system.durable.wal.unlinking lsn k
    { c with system.durable := c.system.durable.withWal { c.system.durable.wal with files } }

variable {c : Chronicle ι δ}

variable (K walDir) in
/-- **In the middle of `truncate`** there are the files of a process that has truncated up to a
smaller lsn. -/
theorem unlinked_stored (h : Stored config c) (k : ℕ) : ∃ c' : Chronicle ι δ, Stored config c' ∧
    c'.log = c.log ∧ c'.system.durable.snapshot = c.system.durable.snapshot ∧
      c'.system.durable.durableLsn = c.system.durable.durableLsn ∧
        ∀ kept opts, (c.unlinked k).reopened K config walDir kept opts =
          c'.reopened K config walDir kept opts := by
  unfold unlinked
  cases hfind : c.system.calls.findSome? Pc.reclaims with
  | none => exact ⟨c, h, rfl, rfl, rfl, fun _ _ => rfl⟩
  | some lsn =>
    obtain ⟨pc, hpc, hlsn⟩ := List.exists_of_findSome?_eq_some hfind
    obtain ⟨reply, rfl⟩ : ∃ reply, pc = .truncate reply lsn := by
      cases pc with
      | truncate reply lsn' =>
        cases hlsn
        exact ⟨reply, rfl⟩
      | _ => cases hlsn
    obtain ⟨i, hi⟩ := List.getElem?_of_mem hpc
    -- what has been unlinked is what a call with a smaller lsn unlinks
    obtain ⟨upto, hle, wal, hwal, hfiles⟩ : ∃ upto ≤ lsn, ∃ wal,
        c.system.durable.wal.truncate upto = .ok () wal ∧
          wal.files = c.system.durable.wal.unlinking lsn k := by
      obtain ⟨_, _, t, l, hsystem, -, -, -, -, hkeeps⟩ := h.disk
      have hholds : c.system.durable.wal.Holds (openerOf config) l := hsystem ▸ hkeeps.holds
      refine hholds.unlinked ?_ lsn k
      exact h.history.ordered.sublist ((hkeeps.records.map _).cons_cons 0)
    refine ⟨⟨⟨c.system.durable.withWal wal, []⟩, c.log⟩, ?_, rfl, rfl, rfl, fun kept opts => ?_⟩
    · have hstored := h.section (s := ⟨c.system.durable.withWal wal, []⟩) (r := none)
        (fun t hsystem ht => ?_) nofun (DurableVDB.gives_none le_rfl) nofun le_rfl nofun
        (fun l lsn' hl hi hcalls => ?_) (.inl ⟨rfl, nofun⟩)
      · rwa [Option.toList_none, List.append_nil] at hstored
      -- such a call is one that the state allows
      · obtain ⟨hlt, hcovers⟩ : t.CallOk (.truncate reply lsn) := ht.calls _ (hsystem ▸ hpc)
        have hcall : t.CallOk (.truncate reply upto) := ⟨hle.trans_lt hlt, hcovers.mono hle⟩
        rw [← hsystem] at hwal ⊢
        have hm : t.system.durable.Moves K false {} (.truncate reply upto)
            (.creditCheckpoint reply upto) (t.system.durable.withWal wal) none :=
          .truncates reply upto wal hwal
        obtain ⟨hdurable, hafter, -⟩ := ht.moves [] hcall hm
        exact ht.after (Traced.advances_of_moves ht.laid hm) hdurable hafter nofun
      · obtain ⟨l', hl', hf⟩ := hl.follows_truncate hi hwal
        exact ⟨l', hl', hf.mono (hle.trans (hcalls _ hpc lsn rfl))⟩
    · unfold reopened Wal.outage
      dsimp only [DurableVDB.withWal]
      rw [hfiles]

end Chronicle

end Durable

end Vdb
