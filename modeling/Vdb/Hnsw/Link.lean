import Vdb.Hnsw.SearchLayer
import Vdb.Hnsw.Select

/-!
# A link alone in the graph

`link` with no other call running, layer by layer, and the sections that make it up: `link_eq` says
that so many of them reach the end, with the graph that the layers give.
-/

namespace Vdb

namespace Hnsw

namespace HNSWIndex

variable {ε δ : Type*} [Distance δ] (dist : ε → ε → δ) (x : HNSWIndex ε)

/-- So many sections of `link(id)`, from `pc` on. -/
def runSections (id : InternalId) (n : ℕ) (s : HNSWIndex ε × Pc δ) : HNSWIndex ε × Pc δ :=
  (fun s => s.1.runSection dist id s.2)^[n] s

/-- As many sections as a `link` alone in the graph can run. -/
def linkSections : ℕ := (x.maxLayer.toNat + 1) * (2 * x.count + 3) + 3

/-- `link`, with no other call running. -/
def link (id : InternalId) : HNSWIndex ε := (runSections dist id x.linkSections (x, .start)).1

/-- `add` with the level `l`; `none` when it throws, and then the index is as it was. -/
def add (vec : ε) (l : ℕ) : Option (HNSWIndex ε) :=
  (x.allocate vec l).map fun y => y.link dist x.count

/-! ### Layer by layer -/

/-- The list of `e` gets its back-link to `id`. -/
def addBackLink (id : InternalId) (lc : ℕ) (e : InternalId) : HNSWIndex ε :=
  x.setLinks e lc (x.withBackLink dist id lc e)

/-- The nodes a link finds on layer `lc`, from `ep`. -/
def layerFound (id : InternalId) (lc : ℕ) (ep : InternalId) : List InternalId :=
  x.searchLayer dist (x.vec id) ep (if x.level id < lc then 1 else x.config.ef) lc

/-- The neighbours a link chooses on layer `lc`. -/
def layerNeighbours (id : InternalId) (lc : ℕ) (ep : InternalId) : List InternalId :=
  x.selectNeighbors dist (x.vec id) (x.layerFound dist id lc ep) x.config.M

/-- The entry of the next layer. -/
def layerNext (id : InternalId) (lc : ℕ) (ep : InternalId) : InternalId :=
  x.closest dist (x.vec id) ep (x.layerFound dist id lc ep)

/-- The graph after layer `lc`. -/
def linkLayer (id : InternalId) (lc : ℕ) (ep : InternalId) : HNSWIndex ε :=
  if x.level id < lc then x
  else (x.layerNeighbours dist id lc ep).foldl (fun y e => y.addBackLink dist id lc e)
    (x.setLinks id lc (x.layerNeighbours dist id lc ep))

/-- The graph after all layers from `lc` down. -/
def linkDown (id : InternalId) : ℕ → InternalId → HNSWIndex ε → HNSWIndex ε
  | 0, ep, x => x.linkLayer dist id 0 ep
  | lc + 1, ep, x => linkDown id lc (x.layerNext dist id (lc + 1) ep)
    (x.linkLayer dist id (lc + 1) ep)

/-- The whole of `link_node_`. -/
def linkNode (id : InternalId) : HNSWIndex ε :=
  if x.maxLayer < 0 then { x with entryPoint := id, maxLayer := x.level id }
  else
    let y := linkDown dist id x.maxLayer.toNat x.entryPoint x
    if x.maxLayer.toNat < x.level id then { y with entryPoint := id, maxLayer := x.level id } else y

/-! ### What a link leaves as it is -/

/-- Everything is the same but the contents of the lists. -/
structure Frame (x y : HNSWIndex ε) : Prop where
  config : y.config = x.config
  count : y.count = x.count
  entryPoint : y.entryPoint = x.entryPoint
  maxLayer : y.maxLayer = x.maxLayer
  data : ∀ i, (y.nodes i).data = (x.nodes i).data
  layers : ∀ i, (y.nodes i).neighbours.length = (x.nodes i).neighbours.length

variable {dist x} {y z : HNSWIndex ε} {id ep i : InternalId} {lc L n : ℕ} {q : ε}
  {l W : List InternalId}

omit [Distance δ] in
theorem Frame.refl (x : HNSWIndex ε) : Frame x x := ⟨rfl, rfl, rfl, rfl, fun _ => rfl, fun _ => rfl⟩

theorem Frame.trans (h : Frame x y) (h' : Frame y z) : Frame x z where
  config := h'.config.trans h.config
  count := h'.count.trans h.count
  entryPoint := h'.entryPoint.trans h.entryPoint
  maxLayer := h'.maxLayer.trans h.maxLayer
  data i := (h'.data i).trans (h.data i)
  layers i := (h'.layers i).trans (h.layers i)

theorem frame_setLinks : Frame x (x.setLinks i lc l) := by
  refine ⟨rfl, rfl, rfl, rfl, fun k => ?_, fun k => ?_⟩
  · simp only [setLinks, Function.update_apply]
    split_ifs with hk
    · rw [hk]
    · rfl
  · rw [setLinks_neighbours]
    split_ifs with hk
    · rw [List.length_set, hk]
    · rfl

theorem Frame.level (h : Frame x y) (i : InternalId) : y.level i = x.level i := by
  rw [HNSWIndex.level, HNSWIndex.level, h.layers]

theorem Frame.hasLayer (h : Frame x y) : y.HasLayer lc i ↔ x.HasLayer lc i := by
  rw [HasLayer, HasLayer, h.count, h.layers]

theorem Frame.vec (h : Frame x y) (i : InternalId) : y.vec i = x.vec i := h.data i

theorem Frame.mMax (h : Frame x y) (lc : ℕ) : y.mMax lc = x.mMax lc := by
  rw [HNSWIndex.mMax, HNSWIndex.mMax, h.config]

omit [Distance δ] in
theorem Frame.distTo (h : Frame x y) : y.distTo dist q = x.distTo dist q :=
  funext fun i => by rw [HNSWIndex.distTo, HNSWIndex.distTo, h.data]

theorem Frame.closest (h : Frame x y) : y.closest dist q ep W = x.closest dist q ep W := by
  cases W with
  | nil => rfl
  | cons c cands => rw [HNSWIndex.closest, HNSWIndex.closest, h.distTo]

omit [Distance δ] in
theorem Frame.enterLayer (h : Frame x y) :
    y.enterLayer dist id L lc ep = x.enterLayer dist id L lc ep := by
  rw [HNSWIndex.enterLayer, HNSWIndex.enterLayer, h.vec, h.distTo]

omit [Distance δ] in
theorem Frame.leaveLayer (h : Frame x y) :
    y.leaveLayer dist id L lc ep = x.leaveLayer dist id L lc ep := by
  cases lc with
  | zero => rw [HNSWIndex.leaveLayer, HNSWIndex.leaveLayer, h.level]
  | succ lc => exact h.enterLayer

theorem Frame.linkBack (h : Frame x y) :
    y.linkBack dist id L lc ep W l = x.linkBack dist id L lc ep W l := by
  cases l with
  | nil => rw [HNSWIndex.linkBack, HNSWIndex.linkBack, h.vec, h.closest, h.leaveLayer]
  | cons e rest => rfl

theorem frame_addBackLink {e : InternalId} : Frame x (x.addBackLink dist id lc e) := frame_setLinks

theorem frame_addBackLinks (l : List InternalId) (y : HNSWIndex ε) :
    Frame y (l.foldl (fun y e => y.addBackLink dist id lc e) y) := by
  induction l generalizing y with
  | nil => exact .refl y
  | cons e l ih => exact frame_addBackLink.trans (ih _)

theorem frame_linkLayer : Frame x (x.linkLayer dist id lc ep) := by
  unfold linkLayer
  split_ifs
  · exact .refl x
  · exact frame_setLinks.trans (frame_addBackLinks _ _)

theorem frame_linkDown (lc : ℕ) (ep : InternalId) (x : HNSWIndex ε) :
    Frame x (linkDown dist id lc ep x) := by
  induction lc generalizing ep x with
  | zero => exact frame_linkLayer
  | succ lc ih => exact frame_linkLayer.trans (ih _ _)

/-! ### The sections of a layer -/

theorem runSections_add (n k : ℕ) (s : HNSWIndex ε × Pc δ) :
    runSections dist id (n + k) s = runSections dist id k (runSections dist id n s) := by
  rw [Nat.add_comm, runSections, Function.iterate_add_apply]
  rfl

theorem runSections_done (n : ℕ) : runSections dist id n (x, .done) = (x, .done) := by
  induction n with
  | zero => rfl
  | succ n ih => exact ih

/-- The entry of a search is its first candidate. -/
theorem searchEnd_eq (q : ε) (ep : InternalId) (ef lc : ℕ) :
    x.searchEnd dist q ep ef lc = x.searchLoop dist q ef lc x.count
      ((x.links ep lc).foldl (x.visit dist q ef)
        { visited := [ep], candidates := [], W := [(x.distTo dist q ep, ep)] }) := by
  have hnext : nextCandidate (x.searchStart dist q ep) = some (ep,
      { visited := [ep], candidates := [], W := [(x.distTo dist q ep, ep)] }) := by
    rw [nextCandidate, searchStart]
    dsimp only
    rw [if_neg]
    rintro ⟨w, hw, hlt⟩
    cases hw
    exact lt_irrefl _ hlt
  rw [searchEnd, searchLoop, hnext]

variable (ep L) in
/-- The sections that search a layer. -/
theorem exists_runSections_search {ef : ℕ} (hef : ef = if x.level id < lc then 1 else x.config.ef)
    (n : ℕ) {cur : InternalId} {st : SearchState δ}
    (hend : nextCandidate (x.searchLoop dist (x.vec id) ef lc n
      ((x.links cur lc).foldl (x.visit dist (x.vec id) ef) st)) = none) :
    ∃ k ≤ n + 1, runSections dist id k (x, .search L lc ep cur st) =
      (x, x.leaveSearch dist id L lc ep (results (x.searchLoop dist (x.vec id) ef lc n
        ((x.links cur lc).foldl (x.visit dist (x.vec id) ef) st)))) := by
  subst hef
  induction n generalizing cur st with
  | zero =>
    refine ⟨1, le_rfl, ?_⟩
    rw [searchLoop] at hend ⊢
    change (x, x.searchSection dist id L lc ep cur st) = _
    rw [searchSection, hend]
  | succ n ih =>
    have hsection : ∀ k, runSections dist id (k + 1) (x, .search L lc ep cur st) =
        runSections dist id k (x, x.searchSection dist id L lc ep cur st) := fun k => rfl
    rw [searchLoop] at hend ⊢
    cases hnext : nextCandidate ((x.links cur lc).foldl
        (x.visit dist (x.vec id) (if x.level id < lc then 1 else x.config.ef)) st) with
    | none =>
      refine ⟨1, Nat.le_add_left _ _, ?_⟩
      rw [hsection, searchSection]
      dsimp only
      rw [hnext]
      rfl
    | some p =>
      rw [hnext] at hend
      obtain ⟨k, hk, hrun⟩ := ih hend
      refine ⟨k + 1, Nat.succ_le_succ hk, ?_⟩
      rw [hsection, searchSection]
      dsimp only
      rw [hnext]
      exact hrun

variable (dist id ep lc L W) in
/-- The sections that add the first back-links. -/
theorem runSections_linkBack (h : Frame x y) (l l' : List InternalId) :
    runSections dist id l.length (y, x.linkBack dist id L lc ep W (l ++ l')) =
      (l.foldl (fun y e => y.addBackLink dist id lc e) y, x.linkBack dist id L lc ep W l') := by
  induction l generalizing y with
  | nil => rfl
  | cons e l ih =>
    have hsection : runSections dist id (l.length + 1)
        (y, x.linkBack dist id L lc ep W (e :: (l ++ l'))) = runSections dist id l.length
          (y.addBackLink dist id lc e, y.linkBack dist id L lc ep W (l ++ l')) := rfl
    rw [List.length_cons, List.cons_append, hsection, h.linkBack, ih (h.trans frame_addBackLink)]
    rfl

/-- What a search finds on a layer of a valid graph. -/
theorem Valid.found (hx : x.Valid) (dist : ε → ε → δ) (q : ε) {ef : ℕ} (hef : 1 ≤ ef)
    (hep : x.HasLayer lc ep) : ∃ seen,
      x.Found dist q ep ef lc seen (x.searchLayer dist q ep ef lc) ∧
        nextCandidate (x.searchEnd dist q ep ef lc) = none := by
  obtain ⟨hinv, hend⟩ := searching_end dist q hef hep.1 fun i _ j hj => (hx.links i lc j hj).1
  exact ⟨_, hinv.found hend, hend⟩

variable (dist id) in
theorem Valid.layerFound (hx : x.Valid) (hef : 1 ≤ x.config.ef) (hep : x.HasLayer lc ep) :
    ∃ seen, x.Found dist (x.vec id) ep (if x.level id < lc then 1 else x.config.ef) lc seen
        (x.layerFound dist id lc ep) ∧
      nextCandidate (x.searchEnd dist (x.vec id) ep (if x.level id < lc then 1 else x.config.ef)
        lc) = none := by
  refine hx.found dist (x.vec id) ?_ hep
  split_ifs
  · exact le_rfl
  · exact hef

/-- Lists of a layer hold nodes of the layer. -/
theorem Reaches.hasLayer (hx : x.Valid) (hep : x.HasLayer lc ep) (h : x.Reaches lc ep i) :
    x.HasLayer lc i := by
  induction h with
  | refl => exact hep
  | tail _ hlink _ => exact hx.links _ lc _ hlink

variable (dist id) in
/-- As many neighbours are chosen as there are nodes, at most. -/
theorem Valid.length_layerNeighbours (hx : x.Valid) (hef : 1 ≤ x.config.ef)
    (hep : x.HasLayer lc ep) :
    (x.layerNeighbours dist id lc ep).length ≤ x.count := by
  obtain ⟨seen, hfound, -⟩ := hx.layerFound dist id hef hep
  have hsub : x.layerFound dist id lc ep ⊆ List.range x.count := fun i hi =>
    List.mem_range.2 ((hfound.reaches i hi).hasLayer hx hep).1
  have hle := (hfound.nodup.subperm hsub).length_le
  rw [List.length_range] at hle
  rw [layerNeighbours, length_selectNeighbors]
  exact (Nat.min_le_right _ _).trans hle

variable (dist id L) in
/-- The sections of a layer up to its first back-link. -/
theorem exists_runSections_assign (hx : x.Valid) (hef : 1 ≤ x.config.ef) (hep : x.HasLayer lc ep)
    (hl : ¬ x.level id < lc) : ∃ k ≤ x.count + 2,
      runSections dist id k (x, x.enterLayer dist id L lc ep) =
        (x.setLinks id lc (x.layerNeighbours dist id lc ep),
          x.linkBack dist id L lc ep (x.layerFound dist id lc ep)
            (x.layerNeighbours dist id lc ep)) := by
  obtain ⟨seen, hfound, hend⟩ := hx.layerFound dist id hef hep
  rw [searchEnd_eq] at hend
  obtain ⟨k, hk, hrun⟩ := exists_runSections_search ep L rfl x.count hend
  rw [← searchEnd_eq, leaveSearch, if_neg hl] at hrun
  have hsearch : runSections dist id k (x, x.enterLayer dist id L lc ep) =
      (x, .assign L lc ep (x.layerFound dist id lc ep) (x.layerNeighbours dist id lc ep)) := hrun
  refine ⟨k + 1, by omega, ?_⟩
  rw [runSections_add, hsearch]
  rfl

variable (dist id L) in
/-- The sections of a layer. -/
theorem exists_runSections_layer (hx : x.Valid) (hef : 1 ≤ x.config.ef) (hep : x.HasLayer lc ep) :
    ∃ k ≤ 2 * x.count + 3, runSections dist id k (x, x.enterLayer dist id L lc ep) =
      (x.linkLayer dist id lc ep, x.leaveLayer dist id L lc (x.layerNext dist id lc ep)) := by
  rw [linkLayer]
  split_ifs with hl
  · obtain ⟨seen, hfound, hend⟩ := hx.layerFound dist id hef hep
    rw [searchEnd_eq] at hend
    obtain ⟨k, hk, hrun⟩ := exists_runSections_search ep L rfl x.count hend
    rw [← searchEnd_eq, leaveSearch, if_pos hl] at hrun
    exact ⟨k, by omega, hrun⟩
  · obtain ⟨k, hk, hrun⟩ := exists_runSections_assign dist id L hx hef hep hl
    have hlen := hx.length_layerNeighbours dist id hef hep
    refine ⟨k + (x.layerNeighbours dist id lc ep).length, by omega, ?_⟩
    have hset : Frame x (x.setLinks id lc (x.layerNeighbours dist id lc ep)) := frame_setLinks
    have hback := runSections_linkBack dist id ep lc L (x.layerFound dist id lc ep) hset
      (x.layerNeighbours dist id lc ep) []
    rw [List.append_nil] at hback
    rw [runSections_add, hrun, hback]
    rfl

/-! ### All layers -/

variable (dist id) in
theorem Valid.layerNext (hx : x.Valid) (hef : 1 ≤ x.config.ef) (hep : x.HasLayer lc ep) :
    x.HasLayer lc (x.layerNext dist id lc ep) := by
  obtain ⟨seen, hfound, -⟩ := hx.layerFound dist id hef hep
  exact closest_valid dist hep (fun i hi => (hfound.reaches i hi).hasLayer hx hep) _

theorem Valid.addBackLink (hx : x.Valid) (hid : x.HasLayer lc id) (e : InternalId) :
    (x.addBackLink dist id lc e).Valid :=
  hx.setLinks fun j hj => by
    rcases List.mem_append.1 (withBackLink_subset dist id lc e hj) with hj | hj
    · exact hx.links e lc j hj
    · rwa [List.mem_singleton.1 hj]

theorem Valid.addBackLinks (hx : x.Valid) (hid : x.HasLayer lc id) (l : List InternalId) :
    (l.foldl (fun y e => y.addBackLink dist id lc e) x).Valid := by
  induction l generalizing x with
  | nil => exact hx
  | cons e l ih => exact ih (hx.addBackLink hid e) (frame_setLinks.hasLayer.2 hid)

variable (dist) in
theorem Valid.linkLayer (hx : x.Valid) (hef : 1 ≤ x.config.ef) (hid : id < x.count)
    (hep : x.HasLayer lc ep) : (x.linkLayer dist id lc ep).Valid := by
  unfold HNSWIndex.linkLayer
  split_ifs with hl
  · exact hx
  · have hself := HasLayer.self hx hid (Nat.le_of_not_lt hl)
    obtain ⟨seen, hfound, -⟩ := hx.layerFound dist id hef hep
    refine (hx.setLinks fun j hj => ?_).addBackLinks (frame_setLinks.hasLayer.2 hself) _
    exact (hfound.reaches j (selectNeighbors_subset dist _ _ _ hj)).hasLayer hx hep

variable (dist id L) in
/-- The sections of all layers from `lc` down. -/
theorem exists_runSections_down (hx : x.Valid) (hef : 1 ≤ x.config.ef) (hid : id < x.count)
    (hep : x.HasLayer lc ep) : ∃ k ≤ (lc + 1) * (2 * x.count + 3),
      runSections dist id k (x, x.enterLayer dist id L lc ep) =
        (linkDown dist id lc ep x, if L < x.level id then .promote else .done) := by
  induction lc generalizing x ep with
  | zero =>
    obtain ⟨k, hk, hrun⟩ := exists_runSections_layer dist id L hx hef hep
    exact ⟨k, by omega, hrun⟩
  | succ lc ih =>
    obtain ⟨k, hk, hrun⟩ := exists_runSections_layer dist id L hx hef hep
    have hframe : Frame x (x.linkLayer dist id (lc + 1) ep) := frame_linkLayer
    obtain ⟨k', hk', hrun'⟩ := ih (hx.linkLayer dist hef hid hep)
      (hframe.config ▸ hef) (hframe.count ▸ hid)
      (hframe.hasLayer.2 ((hx.layerNext dist id hef hep).le (Nat.le_succ lc)))
    refine ⟨k + k', ?_, ?_⟩
    · rw [hframe.count] at hk'
      rw [Nat.succ_mul (lc + 1)]
      omega
    · rw [runSections_add, hrun, leaveLayer, ← hframe.enterLayer, hrun', hframe.level]
      rfl

/-- **A link alone in the graph** comes to an end, and this is what it has done. -/
theorem link_eq (hx : x.Valid) (hef : 1 ≤ x.config.ef) (hid : id < x.count) :
    runSections dist id x.linkSections (x, .start) = (x.linkNode dist id, .done) := by
  -- whatever ends in time has ended
  have hlate : ∀ {k : ℕ} {y : HNSWIndex ε}, k ≤ x.linkSections →
      runSections dist id k (x, .start) = (y, .done) →
      runSections dist id x.linkSections (x, .start) = (y, .done) := by
    intro k y hk hrun
    obtain ⟨n, hn⟩ := Nat.exists_eq_add_of_le hk
    rw [hn, runSections_add, hrun, runSections_done]
  by_cases hm : x.maxLayer < 0
  · refine hlate (k := 1) (by rw [linkSections]; omega) ?_
    rw [linkNode, if_pos hm]
    change x.runSection dist id .start = _
    rw [runSection, if_pos hm]
  · obtain ⟨k, hk, hrun⟩ := exists_runSections_down dist id x.maxLayer.toNat hx hef hid
      (hx.entry (not_lt.1 hm))
    have hstart : runSections dist id 1 (x, .start) =
        (x, x.enterLayer dist id x.maxLayer.toNat x.maxLayer.toNat x.entryPoint) := by
      change x.runSection dist id .start = _
      rw [runSection, if_neg hm]
    have hdown : runSections dist id (1 + k) (x, .start) =
        (linkDown dist id x.maxLayer.toNat x.entryPoint x,
          if x.maxLayer.toNat < x.level id then .promote else .done) := by
      rw [runSections_add, hstart, hrun]
    have hframe : Frame x (linkDown dist id x.maxLayer.toNat x.entryPoint x) :=
      frame_linkDown _ _ _
    rw [linkNode, if_neg hm]
    dsimp only
    split_ifs at hdown ⊢ with htall
    · refine hlate (k := 1 + k + 1) (by rw [linkSections]; omega) ?_
      rw [runSections_add, hdown]
      change runSection dist _ id .promote = _
      rw [runSection, hframe.level, hframe.maxLayer, if_pos (by omega)]
    · exact hlate (by rw [linkSections]; omega) hdown

end HNSWIndex

end Hnsw

end Vdb
