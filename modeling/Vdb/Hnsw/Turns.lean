import Vdb.Hnsw.SearchLayer
import Vdb.Hnsw.Select

/-!
# How long a link takes

A `link` never waits for another one: its sections take a lock, and let go of it.  Whatever the
other calls do to the graph meanwhile, a search expands no node twice, and a list is at most as long
as the search has found nodes.

* `Pc.work` : how many sections a call at a place may still run, in a graph of so many nodes and
  layers.
* `System.link_ends` : a call has ended after so many sections of its own, in every interleaving.
-/

namespace Vdb

namespace Hnsw

open HNSWIndex

variable {ε δ : Type*} [Distance δ] (dist : ε → ε → δ)

/-- The sections that all layers below `lc` take, and the last one of a new entry point. -/
def workBelow (N lc : ℕ) : ℕ := lc * (2 * N + 1) + 1

/-- The sections a call at `pc` may still run while there are at most `N` nodes, and no node above
layer `T`.  On a layer these are one for each node that is expanded, one that sets the node's own
list, and one for each back-link. -/
def Pc.work (N T : ℕ) : Pc δ → ℕ
  | .start => workBelow N (T + 1) + 1
  | .search _ lc _ _ st =>
    N - st.visited.length + st.candidates.length + 1 + (N + 1) + workBelow N lc
  | .assign _ lc _ _ neighbours => neighbours.length + 1 + workBelow N lc
  | .backLink _ lc _ _ _ rest => rest.length + 1 + workBelow N lc
  | .promote => 1
  | .done => 0

omit [Distance δ] in
theorem Pc.work_eq_zero {N T : ℕ} {pc : Pc δ} : pc.work N T = 0 ↔ pc = .done := by
  cases pc with
  | promote => exact iff_of_false Nat.one_ne_zero nofun
  | done => exact iff_of_true rfl rfl
  | _ => exact iff_of_false (by simp only [Pc.work, workBelow]; omega) nofun

/-! ### What a search has seen -/

/-- No node has been visited twice, and the results are among the visited. -/
structure SearchState.Tidy (x : HNSWIndex ε) (st : SearchState δ) : Prop where
  nodup : st.visited.Nodup
  nodes : ∀ i ∈ st.visited, i < x.count
  results : st.W.length ≤ st.visited.length

/-- A search of the call is tidy. -/
def Pc.Tidy (x : HNSWIndex ε) : Pc δ → Prop
  | .search _ _ _ _ st => st.Tidy x
  | _ => True

variable {dist} {x y : HNSWIndex ε} {id i ep cur : InternalId} {L lc ef N T : ℕ} {q : ε}
  {st : SearchState δ} {l W : List InternalId} {pc : Pc δ}

omit [Distance δ] in
theorem SearchState.Tidy.mono (h : st.Tidy x) (hle : x.count ≤ y.count) : st.Tidy y :=
  ⟨h.nodup, fun i hi => (h.nodes i hi).trans_le hle, h.results⟩

omit [Distance δ] in
theorem Pc.Tidy.mono (h : pc.Tidy x) (hle : x.count ≤ y.count) : pc.Tidy y := by
  cases pc with
  | search L lc ep cur st => exact SearchState.Tidy.mono h hle
  | _ => trivial

omit [Distance δ] in
theorem SearchState.Tidy.length_le (h : st.Tidy x) : st.visited.length ≤ x.count := by
  have hsub : st.visited ⊆ List.range x.count := fun i hi => List.mem_range.2 (h.nodes i hi)
  have hle := (h.nodup.subperm hsub).length_le
  rwa [List.length_range] at hle

variable (dist x q ef) in
theorem HNSWIndex.length_W_visit (st : SearchState δ) (i : InternalId) :
    (x.visit dist q ef st i).W.length + st.visited.length ≤
      st.W.length + (x.visit dist q ef st i).visited.length := by
  unfold visit
  dsimp only
  split_ifs
  · exact le_rfl
  · rw [List.length_tail, (push_perm _ _ _).length_eq, List.length_cons, List.length_cons]
    omega
  · rw [(push_perm _ _ _).length_eq, List.length_cons, List.length_cons]
    omega
  · exact Nat.add_le_add_left (Nat.le_succ _) _

theorem SearchState.Tidy.visit (h : st.Tidy x) (hi : i < x.count) :
    (x.visit dist q ef st i).Tidy x := by
  have hW := length_W_visit dist x ef q st i
  have hres := h.results
  refine ⟨?_, ?_, by omega⟩
  · rw [visited_visit]
    split_ifs with hseen
    · exact h.nodup
    · exact List.nodup_cons.2 ⟨hseen, h.nodup⟩
  · rw [visited_visit]
    split_ifs
    · exact h.nodes
    · exact List.forall_mem_cons.2 ⟨hi, h.nodes⟩

variable (dist q ef) in
/-- A walk along a list: what gets into the heap of candidates has just been visited. -/
theorem SearchState.Tidy.visits (h : st.Tidy x) (hl : ∀ i ∈ l, i < x.count) :
    (l.foldl (x.visit dist q ef) st).Tidy x ∧
      (l.foldl (x.visit dist q ef) st).candidates.length + st.visited.length ≤
        st.candidates.length + (l.foldl (x.visit dist q ef) st).visited.length := by
  induction l generalizing st with
  | nil => exact ⟨h, le_rfl⟩
  | cons i l ih =>
    obtain ⟨htidy, hlen⟩ := ih (h.visit (hl i List.mem_cons_self))
      fun j hj => hl j (List.mem_cons_of_mem i hj)
    refine ⟨htidy, ?_⟩
    have hone := length_visit dist x q ef st i
    rw [List.foldl_cons]
    omega

theorem SearchState.Tidy.next {c : InternalId} {st' : SearchState δ} (h : st.Tidy x)
    (hn : nextCandidate st = some (c, st')) :
    st'.Tidy x ∧ st'.visited = st.visited ∧
      st'.candidates.length + 1 = st.candidates.length := by
  unfold nextCandidate at hn
  split at hn
  · cases hn
  · rename_i dc c' rest hc
    split_ifs at hn
    cases hn
    exact ⟨⟨h.nodup, h.nodes, h.results⟩, rfl, by rw [hc, List.length_cons]⟩

/-! ### Sections -/

namespace HNSWIndex

omit [Distance δ] in
theorem enterLayer_tidy (h : ep < x.count) : (x.enterLayer dist id L lc ep).Tidy x :=
  ⟨List.nodup_singleton ep, fun _ hi => List.mem_singleton.1 hi ▸ h, le_rfl⟩

omit [Distance δ] in
theorem enterLayer_work (hN : 0 < N) :
    (x.enterLayer dist id L lc ep).work N T = workBelow N (lc + 1) := by
  simp only [enterLayer, Pc.work, workBelow, List.length_singleton, List.length_nil,
    Nat.succ_mul]
  omega

omit [Distance δ] in
/-- The layers below are what is left behind a layer. -/
theorem leaveLayer_work (hN : 0 < N) :
    (x.leaveLayer dist id L lc ep).work N T ≤ workBelow N lc := by
  cases lc with
  | zero =>
    rw [leaveLayer]
    split_ifs
    · exact Nat.le_add_left 1 _
    · exact Nat.zero_le _
  | succ lc => exact (enterLayer_work hN).le

omit [Distance δ] in
theorem leaveLayer_tidy (h : ep < x.count) : (x.leaveLayer dist id L lc ep).Tidy x := by
  cases lc with
  | zero =>
    rw [leaveLayer]
    split_ifs <;> trivial
  | succ lc => exact enterLayer_tidy h

theorem linkBack_work (hN : 0 < N) :
    (x.linkBack dist id L lc ep W l).work N T ≤ l.length + workBelow N lc := by
  cases l with
  | nil => exact (leaveLayer_work hN).trans (Nat.le_add_left _ _)
  | cons e rest => exact le_rfl

theorem linkBack_tidy (hep : ep < x.count) (hW : ∀ i ∈ W, i < x.count) :
    (x.linkBack dist id L lc ep W l).Tidy x := by
  cases l with
  | nil =>
    refine leaveLayer_tidy ?_
    rcases closest_mem dist (x.vec id) ep W with heq | hmem
    · rwa [heq]
    · exact hW _ hmem
  | cons e rest => trivial

theorem leaveSearch_work (hN : 0 < N) (hW : W.length ≤ N) :
    (x.leaveSearch dist id L lc ep W).work N T ≤ N + 1 + workBelow N lc := by
  unfold leaveSearch
  split_ifs
  · exact (leaveLayer_work hN).trans (Nat.le_add_left _ _)
  · have hle : (x.selectNeighbors dist (x.vec id) W x.config.M).length ≤ N := by
      rw [length_selectNeighbors]
      exact (Nat.min_le_right _ _).trans hW
    simp only [Pc.work]
    omega

theorem leaveSearch_tidy (hep : ep < x.count) (hW : ∀ i ∈ W, i < x.count) :
    (x.leaveSearch dist id L lc ep W).Tidy x := by
  unfold leaveSearch
  split_ifs
  · exact linkBack_tidy (l := []) hep hW
  · trivial

variable (dist) in
/-- **A section** keeps the searches tidy and leaves less to do. -/
theorem runSection_work (hx : x.Valid) (hid : id < x.count) (hpc : pc.Valid x id) (h : pc.Tidy x)
    (hN : x.count ≤ N) (hT : x.maxLayer ≤ T) :
    (x.runSection dist id pc).2.Tidy (x.runSection dist id pc).1 ∧
      (x.runSection dist id pc).2.work N T ≤ pc.work N T - 1 := by
  have hpos : 0 < N := (Nat.zero_lt_of_lt hid).trans_le hN
  cases pc with
  | start =>
    rw [runSection]
    split_ifs with hm
    · exact ⟨trivial, Nat.zero_le _⟩
    · refine ⟨enterLayer_tidy (hx.entry (not_lt.1 hm)).1, ?_⟩
      have hle : x.maxLayer.toNat + 1 ≤ T + 1 := by omega
      have hmul := Nat.mul_le_mul_right (2 * N + 1) hle
      rw [enterLayer_work hpos]
      simp only [Pc.work, workBelow]
      omega
  | search L lc ep cur st =>
    obtain ⟨hep, hcur, hok⟩ := hpc
    have hlinks : ∀ i ∈ x.links cur lc, i < x.count := fun i hi => (hx.links cur lc i hi).1
    obtain ⟨htidy, hlen⟩ := SearchState.Tidy.visits dist
      (if x.level id < lc then 1 else x.config.ef) (x.vec id) h hlinks
    have hok' : x.SearchOk lc ((x.links cur lc).foldl
      (x.visit dist (x.vec id) (if x.level id < lc then 1 else x.config.ef)) st) :=
      hok.visits dist (hx.links cur lc)
    have hvisited := SearchState.Tidy.length_le htidy
    rw [runSection, searchSection]
    dsimp only
    split
    · refine ⟨leaveSearch_tidy hep.1 fun i hi => (hok'.results i hi).1, ?_⟩
      have hW := htidy.results
      refine (leaveSearch_work hpos ?_).trans ?_
      · rw [results, List.length_map]
        omega
      · simp only [Pc.work]
        omega
    · rename_i c st' hn
      obtain ⟨htidy', hsame, hone⟩ := SearchState.Tidy.next htidy hn
      refine ⟨htidy', ?_⟩
      -- what the walk has put on the heap was not visited before, and one leaves it
      simp only [Pc.work, hsame]
      omega
  | assign L lc ep W neighbours =>
    obtain ⟨-, hep, hW, -⟩ := hpc
    refine ⟨.mono (linkBack_tidy hep.1 fun i hi => (hW i hi).1) le_rfl, ?_⟩
    refine (linkBack_work hpos).trans ?_
    simp only [Pc.work]
    omega
  | backLink L lc ep W e rest =>
    obtain ⟨-, hep, hW, -, -⟩ := hpc
    refine ⟨.mono (linkBack_tidy hep.1 fun i hi => (hW i hi).1) le_rfl, ?_⟩
    refine (linkBack_work hpos).trans ?_
    simp only [Pc.work]
    omega
  | promote =>
    rw [runSection]
    split_ifs <;> exact ⟨trivial, le_rfl⟩
  | done => exact ⟨trivial, le_rfl⟩

end HNSWIndex

/-- The turn is the `i`-th call's. -/
def Action.turn (i : ℕ) : Action ε → Bool
  | .run j => j == i
  | _ => false

namespace System

variable {s : System ε δ} {a : Action ε}

/-- No link of a graph of this size has run more sections, from its start to its end. -/
def linkBound (s : System ε δ) : ℕ := workBelow s.index.count (s.index.maxLayer.toNat + 1) + 1

/-- There are at most so many nodes and layers. -/
structure Within (N T : ℕ) (s : System ε δ) : Prop where
  count : s.index.count ≤ N
  maxLayer : s.index.maxLayer ≤ T

/-- The searches are tidy, and no call has more to do than at its start. -/
structure Working (N T : ℕ) (s : System ε δ) : Prop where
  valid : s.Valid
  tidy : ∀ c ∈ s.calls, c.pc.Tidy s.index
  work : ∀ c ∈ s.calls, c.pc.work N T ≤ workBelow N (T + 1) + 1

variable (dist) in
theorem Within.of_act (a : Action ε) (h : (s.act dist a).Within N T) : s.Within N T := by
  have hmono : s.index.count ≤ (s.act dist a).index.count ∧
      s.index.maxLayer ≤ (s.act dist a).index.maxLayer := by
    cases a with
    | allocate vec l =>
      rw [act]
      cases hal : s.index.allocate vec l with
      | none => exact ⟨le_rfl, le_rfl⟩
      | some index =>
        unfold allocate at hal
        split_ifs at hal
        cases hal
        exact ⟨Nat.le_succ _, le_rfl⟩
    | link id =>
      rw [act]
      split_ifs <;> exact ⟨le_rfl, le_rfl⟩
    | run i =>
      cases hc : s.calls[i]? with
      | none => simp [act, hc]
      | some c =>
        rw [act_run dist hc]
        refine ⟨(count_runSection dist s.index c.id c.pc).ge, ?_⟩
        cases hpc : c.pc with
        | start =>
          rw [runSection]
          split_ifs with hm
          · exact hm.le.trans (Int.natCast_nonneg _)
          · exact le_rfl
        | promote =>
          rw [runSection]
          split_ifs with hm
          · exact hm.le
          · exact le_rfl
        | _ => exact le_rfl
  exact ⟨hmono.1.trans h.count, hmono.2.trans h.maxLayer⟩

/-- **One action** leaves no call more to do, and the call that runs less. -/
theorem Working.act (h : s.Working N T) (hin : s.Within N T) (a : Action ε) :
    (s.act dist a).Working N T ∧ ∀ i c, s.calls[i]? = some c → ∃ pc,
      (s.act dist a).calls[i]? = some ⟨c.id, pc⟩ ∧
        pc.work N T ≤ c.pc.work N T - (a.turn i).toNat := by
  have hvalid := h.valid.act dist a
  cases a with
  | allocate vec l =>
    rw [System.act] at hvalid ⊢
    cases hal : s.index.allocate vec l with
    | none => exact ⟨h, fun i c hc => ⟨c.pc, hc, le_rfl⟩⟩
    | some index =>
      rw [hal] at hvalid
      have hle : s.index.count ≤ index.count := by
        unfold allocate at hal
        split_ifs at hal
        cases hal
        exact Nat.le_succ _
      exact ⟨⟨hvalid, fun c hc => (h.tidy c hc).mono hle, h.work⟩,
        fun i c hc => ⟨c.pc, hc, le_rfl⟩⟩
  | link id =>
    rw [System.act] at hvalid ⊢
    split_ifs at hvalid ⊢ with hid
    · refine ⟨⟨hvalid, fun c hc => ?_, fun c hc => ?_⟩, fun i c hc => ⟨c.pc, ?_, le_rfl⟩⟩
      · rcases List.mem_append.1 hc with hc | hc
        · exact h.tidy c hc
        · rw [List.mem_singleton.1 hc]
          trivial
      · rcases List.mem_append.1 hc with hc | hc
        · exact h.work c hc
        · rw [List.mem_singleton.1 hc]
          exact le_rfl
      · exact (List.getElem?_append_left (List.getElem?_eq_some_iff.1 hc).1).trans hc
    · exact ⟨h, fun i c hc => ⟨c.pc, hc, le_rfl⟩⟩
  | run j =>
    cases hj : s.calls[j]? with
    | none =>
      have hsame : s.act dist (.run j) = s := by simp [System.act, hj]
      rw [hsame]
      refine ⟨h, fun i c hc => ⟨c.pc, hc, ?_⟩⟩
      have hne : (j == i) = false := by
        rw [beq_eq_false_iff_ne]
        rintro rfl
        rw [hj] at hc
        cases hc
      rw [Action.turn, hne]
      exact le_rfl
    | some c =>
      have hmem := List.mem_of_getElem? hj
      obtain ⟨htidy, hwork⟩ := runSection_work dist h.valid.index (h.valid.ids c hmem)
        (h.valid.calls c hmem) (h.tidy c hmem) hin.count hin.maxLayer
      rw [act_run dist hj] at hvalid ⊢
      refine ⟨⟨hvalid, fun d hd => ?_, fun d hd => ?_⟩, fun i d hd => ?_⟩
      · rcases List.mem_or_eq_of_mem_set hd with hd | rfl
        · exact (h.tidy d hd).mono (count_runSection dist s.index c.id c.pc).ge
        · exact htidy
      · rcases List.mem_or_eq_of_mem_set hd with hd | rfl
        · exact h.work d hd
        · exact hwork.trans ((Nat.sub_le _ _).trans (h.work c hmem))
      · by_cases hij : j = i
        · subst hij
          rw [hj] at hd
          cases hd
          refine ⟨_, List.getElem?_set_self (List.getElem?_eq_some_iff.1 hj).1, ?_⟩
          rw [Action.turn, beq_self_eq_true]
          exact hwork
        · refine ⟨d.pc, (List.getElem?_set_ne hij).trans hd, ?_⟩
          rw [Action.turn, beq_eq_false_iff_ne.2 hij]
          exact le_rfl

/-- What is left to the `i`-th call after a run. -/
theorem Working.exec (h : s.Working N T) {acts : List (Action ε)}
    (hin : (s.exec dist acts).Within N T) {i : ℕ} {c : Call δ} (hc : s.calls[i]? = some c) :
    (s.exec dist acts).Working N T ∧ ∃ pc, (s.exec dist acts).calls[i]? = some ⟨c.id, pc⟩ ∧
      pc.work N T ≤ c.pc.work N T - acts.countP (Action.turn i) := by
  -- the call is there all along, and its work is the measure
  have hstart : ∃ pc, s.calls[i]? = some ⟨c.id, pc⟩ := ⟨c.pc, hc⟩
  have hstep : ∀ (t : System ε δ) a, (t.Working N T ∧ ∃ pc, t.calls[i]? = some ⟨c.id, pc⟩) →
      (t.act dist a).Within N T →
        (t.act dist a).Working N T ∧ ∃ pc, (t.act dist a).calls[i]? = some ⟨c.id, pc⟩ := by
    rintro t a ⟨ht, pc, hpc⟩ hwithin
    obtain ⟨hworking, hcalls⟩ := ht.act (hwithin.of_act dist a) a
    obtain ⟨pc', hpc', -⟩ := hcalls i _ hpc
    exact ⟨hworking, pc', hpc'⟩
  have halong := (Run.along_of_end (fun _ a => Within.of_act dist a) hin).2
  obtain ⟨hworking, pc, hpc⟩ := halong.invariant hstep ⟨h, hstart⟩
  refine ⟨hworking, pc, hpc, ?_⟩
  have hdown : ((s.exec dist acts).calls[i]?.elim 0 fun d => d.pc.work N T) ≤
      (s.calls[i]?.elim 0 fun d => d.pc.work N T) - acts.countP (Action.turn i) := by
    refine halong.countdown (μ := fun t => t.calls[i]?.elim 0 fun d => d.pc.work N T) hstep ?_
      ⟨h, hstart⟩
    rintro t a ⟨ht, pc, hpc⟩ hwithin
    obtain ⟨-, hcalls⟩ := ht.act (hwithin.of_act dist a) a
    obtain ⟨pc', hpc', hle⟩ := hcalls i _ hpc
    rw [hpc, hpc']
    exact hle
  rwa [hc, System.exec, hpc] at hdown

variable (dist) in
/-- **A link does not wait.**  Whatever the other calls do, a call of `link` has ended when it has
had as many turns as a graph of the final size can ask of it. -/
theorem link_ends [Inhabited ε] (config : HNSWConfig) (before after : List (Action ε)) (i : ℕ)
    (id : InternalId)
    (hid : (((new config : System ε δ).exec dist before).calls[i]?).map Call.id = some id)
    (hturns : ((new config : System ε δ).exec dist (before ++ after)).linkBound ≤
      after.countP (Action.turn i)) :
    ((new config : System ε δ).exec dist (before ++ after)).calls[i]? = some ⟨id, .done⟩ := by
  obtain ⟨c, hc, rfl⟩ := Option.map_eq_some_iff.1 hid
  have happend : (new config : System ε δ).exec dist (before ++ after) =
      ((new config : System ε δ).exec dist before).exec dist after := List.foldl_append
  rw [happend] at hturns ⊢
  set s := (new config : System ε δ).exec dist before with hs
  set t := s.exec dist after with ht
  have hin : t.Within t.index.count t.index.maxLayer.toNat := ⟨le_rfl, Int.self_le_toNat _⟩
  have hstart : (new config : System ε δ).Working t.index.count t.index.maxLayer.toNat :=
    ⟨valid_new config, nofun, nofun⟩
  have hworking : s.Working t.index.count t.index.maxLayer.toNat := by
    have hbefore : s.Within t.index.count t.index.maxLayer.toNat :=
      (Run.along_of_end (fun _ a => Within.of_act dist a) hin).1
    have halong := (Run.along_of_end (fun _ a => Within.of_act dist a) hbefore).2
    exact halong.invariant (fun u a hu hwithin => (hu.act (hwithin.of_act dist a) a).1) hstart
  obtain ⟨-, pc, hpc, hle⟩ := hworking.exec hin hc
  have hbound := hworking.work c (List.mem_of_getElem? hc)
  have hzero : pc.work t.index.count t.index.maxLayer.toNat = 0 :=
    Nat.le_zero.1 (hle.trans (Nat.sub_eq_zero_of_le (hbound.trans hturns)).le)
  rw [hpc, Pc.work_eq_zero.1 hzero]

/-- The calls that run in `overwritten` take turns. -/
def racing : List (Action ℕ) := (List.replicate 16 [.run 1, .run 2]).flatten

theorem racing_ends :
    ((new {} : System ℕ ℕ).exec lineDist (beforeOverwrite ++ racing)).calls[2]? =
      some ⟨2, .done⟩ :=
  link_ends lineDist {} beforeOverwrite racing 2 2 (by decide +kernel) (by decide +kernel)

end System

end Hnsw

end Vdb
