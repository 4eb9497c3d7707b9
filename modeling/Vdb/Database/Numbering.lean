import Vdb.Database.Basic
import Vdb.Hnsw.Concurrent

/-!
# The numbering of an index

An index numbers its nodes in the order in which they are allocated, and linking a node changes no
number.  `Index.Sound` is what the index of a database always satisfies: an IVF index is never
trained and so never accepts a vector, and the graph of an HNSW index is valid.
-/

namespace Vdb

namespace Database

open Hnsw (HNSWIndex Pc)

variable {δ : Type} [Distance δ] {K : Kernels δ} {metric : Metric} {vec : Vec} {iid : InternalId}
  {e : Exn}

namespace HNSWState

structure Sound (x : HNSWState) : Prop where
  graph : x.graph.Valid
  config : x.graph.config = {}
  room : x.graph.count ≤ 2 ^ 20
  junk : ∀ i, x.graph.count ≤ i → x.graph.nodes i = ⟨[], []⟩
  levels : ∀ i, (x.graph.nodes i).neighbours.length ≤ 2 ^ 31
  maxLayer : -1 ≤ x.graph.maxLayer ∧ x.graph.maxLayer < 2 ^ 31
  entryPoint : x.graph.entryPoint ≤ 2 ^ 20
  efSearch : x.efSearch = 50

variable {x x' : HNSWState}

theorem sound_new : new.Sound where
  graph := HNSWIndex.valid_new {}
  config := rfl
  room := Nat.zero_le _
  junk _ _ := rfl
  levels _ := Nat.zero_le _
  maxLayer := ⟨le_rfl, by decide⟩
  entryPoint := Nat.zero_le _
  efSearch := rfl

omit [Distance δ] in
theorem Sound.allocate (h : x.Sound) (he : x.allocate K.level vec = .ok iid x') : x'.Sound := by
  unfold HNSWState.allocate at he
  cases ha : x.graph.allocate vec (K.level x.draws) with
  | none =>
    rw [ha] at he
    cases he
  | some graph =>
    rw [ha] at he
    cases he
    have hvalid := (h.graph.allocate ha).1
    unfold HNSWIndex.allocate at ha
    split_ifs at ha with hroom
    cases ha
    refine ⟨hvalid, h.config, ?_, fun i hi => ?_, fun i => ?_, h.maxLayer, h.entryPoint,
      h.efSearch⟩
    · rw [h.config] at hroom
      exact not_le.1 hroom
    · dsimp only at hi ⊢
      rw [Function.update_of_ne (Nat.ne_of_gt hi)]
      exact h.junk i (Nat.le_of_lt hi)
    · dsimp only
      by_cases hi : i = x.graph.count
      · rw [hi, Function.update_self, List.length_replicate]
        exact K.level_lt x.draws
      · rw [Function.update_of_ne hi]
        exact h.levels i

theorem junk_setLinks {g : HNSWIndex Vec} {i lc : ℕ} {l : List InternalId}
    (h : ∀ j, g.count ≤ j → g.nodes j = ⟨[], []⟩) (j : ℕ) (hj : g.count ≤ j) :
    (g.setLinks i lc l).nodes j = ⟨[], []⟩ := by
  unfold HNSWIndex.setLinks
  dsimp only
  by_cases hij : j = i
  · subst hij
    rw [Function.update_self, h j hj]
    rfl
  · rw [Function.update_of_ne hij, h j hj]

theorem length_setLinks {g : HNSWIndex Vec} {i lc : ℕ} {l : List InternalId} (j : ℕ) :
    ((g.setLinks i lc l).nodes j).neighbours.length = (g.nodes j).neighbours.length := by
  rw [HNSWIndex.setLinks_neighbours]
  split_ifs with hij
  · rw [List.length_set, hij]
  · rfl

theorem Sound.linkSection {dist : Vec → Vec → δ} {id : InternalId} {pc : Pc δ} (h : x.Sound)
    (hid : id < x.graph.count) (hpc : pc.Valid x.graph id) :
    (x.linkSection dist id pc).1.Sound ∧
      (x.linkSection dist id pc).2.Valid (x.linkSection dist id pc).1.graph id ∧
      x.graph.Grows (x.linkSection dist id pc).1.graph := by
  obtain ⟨hvalid, hgrows, hpc'⟩ := Hnsw.runSection_valid dist h.graph hid hpc
  refine ⟨?_, hpc', hgrows⟩
  have hlevel : (x.graph.level id : ℤ) < 2 ^ 31 := by
    have := h.levels id
    have := h.graph.level id hid
    unfold HNSWIndex.level
    omega
  have hentry : id ≤ 2 ^ 20 := hid.le.trans h.room
  have hcount : (x.graph.runSection dist id pc).1.count = x.graph.count :=
    Hnsw.System.count_runSection dist x.graph id pc
  refine ⟨hvalid, ?_, ?_, ?_, ?_, ?_, ?_, h.efSearch⟩
  · change (x.graph.runSection dist id pc).1.config = {}
    cases pc <;> simp only [HNSWIndex.runSection] <;> (try split_ifs) <;> exact h.config
  · exact hcount.le.trans h.room
  · change ∀ i, (x.graph.runSection dist id pc).1.count ≤ i → _
    rw [hcount]
    change ∀ i, _ → (x.graph.runSection dist id pc).1.nodes i = _
    cases pc <;> simp only [HNSWIndex.runSection] <;> (try split_ifs) <;>
      first | exact h.junk | exact junk_setLinks h.junk
  · change ∀ i, ((x.graph.runSection dist id pc).1.nodes i).neighbours.length ≤ _
    intro i
    cases pc <;> simp only [HNSWIndex.runSection] <;> (try split_ifs) <;>
      first | exact h.levels i | exact (length_setLinks i).le.trans (h.levels i)
  · change -1 ≤ (x.graph.runSection dist id pc).1.maxLayer ∧
      (x.graph.runSection dist id pc).1.maxLayer < _
    cases pc <;> simp only [HNSWIndex.runSection] <;> (try split_ifs) <;>
      first | exact h.maxLayer | exact ⟨(by omega : (-1 : ℤ) ≤ (x.graph.level id : ℤ)), hlevel⟩
  · change (x.graph.runSection dist id pc).1.entryPoint ≤ _
    cases pc <;> simp only [HNSWIndex.runSection] <;> (try split_ifs) <;>
      first | exact h.entryPoint | exact hentry

end HNSWState

namespace Index

variable {x x' : Index}

/-- What the index of a database satisfies. -/
def Sound : Index → Prop
  | .brute _ => True
  | .ivf x => x = {}
  | .hnsw x => x.Sound

/-- What a call of `link` on node `id` holds are nodes of the graph. -/
def PcValid (id : InternalId) (pc : Pc δ) : Index → Prop
  | .hnsw x => pc.Valid x.graph id
  | _ => True

/-- Nodes of `x` are nodes of `x'`. -/
def Grows : Index → Index → Prop
  | .hnsw x, .hnsw x' => x.graph.Grows x'.graph
  | .hnsw _, _ => False
  | _, .hnsw _ => False
  | _, _ => True

theorem sound_make (config : VDBConfig) : (make config).Sound := by
  unfold make
  cases config.kind with
  | brute => trivial
  | ivf => rfl
  | hnsw => exact HNSWState.sound_new

theorem size_make (config : VDBConfig) :
    (make config).size = 0 ∧ (make config).kind = config.kind := by
  unfold make
  cases h : config.kind <;> exact ⟨rfl, rfl⟩

theorem allocate_ok (h : x.allocate K metric vec = .ok iid x') :
    iid < 2 ^ 32 ∧ x'.size = x.size + 1 ∧ x'.kind = x.kind := by
  cases x with
  | brute x =>
    cases h
    exact ⟨Nat.mod_lt _ (by decide), by simp [size], rfl⟩
  | ivf x =>
    rw [allocate, IVFIndex.add] at h
    split_ifs at h
    · cases h
      refine ⟨Nat.mod_lt _ (by decide), ?_, rfl⟩
      have hvec : ∀ id, (x.assign (K.dist metric) K.maxDist id vec).vectors = x.vectors := by
        intro id
        unfold IVFIndex.assign
        dsimp only
        split <;> rfl
      simp [size, hvec]
    · cases h
  | hnsw x =>
    rw [allocate, HNSWState.allocate, HNSWIndex.allocate] at h
    split_ifs at h
    · cases h
    · cases h
      exact ⟨Nat.mod_lt _ (by decide), rfl, rfl⟩

theorem allocate_error (h : x.allocate K metric vec = .error e x') : x' = x := by
  cases x with
  | brute x => cases h
  | ivf x =>
    rw [allocate, IVFIndex.add] at h
    split_ifs at h
    · cases h
    · cases h
      rfl
  | hnsw x =>
    rw [allocate, HNSWState.allocate, HNSWIndex.allocate] at h
    split_ifs at h
    · cases h
      rfl
    · cases h

theorem Sound.allocate (hx : x.Sound) (h : x.allocate K metric vec = .ok iid x') :
    x'.Sound ∧ x.Grows x' := by
  cases x with
  | brute x =>
    cases h
    exact ⟨trivial, trivial⟩
  | ivf x =>
    -- an index that is not trained refuses every vector
    cases hx
    cases h
  | hnsw x =>
    rw [Index.allocate] at h
    cases ha : x.allocate K.level vec with
    | error e x₁ =>
      rw [ha] at h
      cases h
    | ok id x₁ =>
      rw [ha] at h
      cases h
      refine ⟨HNSWState.Sound.allocate hx ha, ?_⟩
      unfold HNSWState.allocate at ha
      cases hg : x.graph.allocate vec (K.level x.draws) with
      | none =>
        rw [hg] at ha
        cases ha
      | some graph =>
        rw [hg] at ha
        cases ha
        exact (hx.graph.allocate hg).2

theorem size_linkSection (id : InternalId) (pc : Pc δ) :
    (x.linkSection K metric id pc).1.size = x.size ∧
      (x.linkSection K metric id pc).1.kind = x.kind := by
  cases x with
  | hnsw x => exact ⟨Hnsw.System.count_runSection (K.dist metric) x.graph id pc, rfl⟩
  | _ => exact ⟨rfl, rfl⟩

theorem Sound.linkSection (K : Kernels δ) (metric : Metric) {id : InternalId} {pc : Pc δ}
    (h : x.Sound) (hid : id < x.size)
    (hpc : x.PcValid id pc) :
    (x.linkSection K metric id pc).1.Sound ∧
      (x.linkSection K metric id pc).1.PcValid id (x.linkSection K metric id pc).2 ∧
      x.Grows (x.linkSection K metric id pc).1 := by
  cases x with
  | hnsw x => exact HNSWState.Sound.linkSection h hid hpc
  | _ => exact ⟨h, trivial, trivial⟩

omit [Distance δ] in
theorem pcValid_start (id : InternalId) : x.PcValid id (Pc.start : Pc δ) := by
  cases x <;> trivial

omit [Distance δ] in
theorem PcValid.mono {id : InternalId} {pc : Pc δ} (h : x.PcValid id pc) (hg : x.Grows x') :
    x'.PcValid id pc := by
  cases x <;> cases x' <;> first | trivial | exact hg.elim | exact Pc.Valid.mono h hg

theorem size_link (id : InternalId) :
    (x.link K metric id).size = x.size ∧ (x.link K metric id).kind = x.kind := by
  cases x with
  | hnsw x =>
    have hiter : ∀ (n : ℕ) (s : HNSWState × Pc δ),
        ((fun s : HNSWState × Pc δ => s.1.linkSection (K.dist metric) id s.2)^[n] s).1.graph.count =
          s.1.graph.count := by
      intro n
      induction n with
      | zero => exact fun s => rfl
      | succ n ih =>
        intro s
        rw [Function.iterate_succ_apply, ih]
        exact Hnsw.System.count_runSection (K.dist metric) s.1.graph id s.2
    exact ⟨hiter _ _, rfl⟩
  | _ => exact ⟨rfl, rfl⟩

theorem Sound.link {id : InternalId} (h : x.Sound) (hid : id < x.size) :
    (x.link K metric id).Sound := by
  cases x with
  | hnsw x =>
    have hiter : ∀ (n : ℕ) (s : HNSWState × Pc δ), s.1.Sound → id < s.1.graph.count →
        s.2.Valid s.1.graph id →
        ((fun s : HNSWState × Pc δ => s.1.linkSection (K.dist metric) id s.2)^[n] s).1.Sound := by
      intro n
      induction n with
      | zero => exact fun s hs _ _ => hs
      | succ n ih =>
        intro s hs hlt hpc
        rw [Function.iterate_succ_apply]
        obtain ⟨hs', hpc', -⟩ := HNSWState.Sound.linkSection hs hlt hpc
        exact ih _ hs' (by rwa [HNSWState.linkSection, Hnsw.System.count_runSection]) hpc'
    exact hiter _ _ h hid trivial
  | _ => exact h

theorem add_ok (h : x.add K metric vec = .ok iid x') :
    iid < 2 ^ 32 ∧ x'.size = x.size + 1 ∧ x'.kind = x.kind ∧
      (x.Sound → iid = x.size → x'.Sound) := by
  unfold add at h
  cases ha : x.allocate K metric vec with
  | error e x₁ =>
    rw [ha] at h
    cases h
  | ok id x₁ =>
    rw [ha] at h
    cases h
    obtain ⟨h1, h2, h3⟩ := allocate_ok ha
    obtain ⟨h4, h5⟩ := size_link (K := K) (x := x₁) iid
    exact ⟨h1, h4.trans h2, h5.trans h3,
      fun hx hid => (hx.allocate ha).1.link (hid ▸ h2 ▸ Nat.lt_succ_self _)⟩

omit [Distance δ] in
/-- A graph has at most so many nodes. -/
theorem Sound.size_le (h : x.Sound) (hk : x.kind = .hnsw) : x.size ≤ 2 ^ 20 := by
  cases x with
  | hnsw x => exact HNSWState.Sound.room h
  | _ => cases hk

omit [Distance δ] in
/-- Nothing trains the index of an IVF database, and so it has no rows. -/
theorem Sound.size_ivf (h : x.Sound) (hk : x.kind = .ivf) : x.size = 0 := by
  cases x with
  | ivf x =>
    obtain rfl : x = {} := h
    rfl
  | _ => cases hk

/-- An index with room for one more vector takes it. -/
theorem add_returns (K : Kernels δ) (metric : Metric) (vec : Vec) (hx : x.Sound)
    (hivf : x.kind ≠ .ivf) (hroom : x.kind = .hnsw → x.size < 2 ^ 20) :
    ∃ iid x', x.add K metric vec = .ok iid x' := by
  cases x with
  | brute x => exact ⟨_, _, rfl⟩
  | ivf x => exact absurd rfl hivf
  | hnsw x =>
    have hlt : ¬ x.graph.config.maxElements ≤ x.graph.count := by
      rw [hx.config]
      exact not_le.2 (hroom rfl)
    obtain ⟨graph, hg⟩ : ∃ graph, x.graph.allocate vec (K.level x.draws) = some graph := by
      unfold HNSWIndex.allocate
      rw [if_neg hlt]
      exact ⟨_, rfl⟩
    have ha : (hnsw x).allocate K metric vec =
        .ok (x.graph.count % 2 ^ 32) (hnsw { x with graph, draws := x.draws + 1 }) := by
      rw [allocate, HNSWState.allocate, hg]
      rfl
    rw [add, ha]
    exact ⟨_, _, rfl⟩

end Index

end Database

end Vdb
