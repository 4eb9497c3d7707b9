import Vdb.Database.Index
import Vdb.Hnsw.SearchLayer
import Vdb.Lib.Selection
import Mathlib.Data.List.GetD

/-!
# Searching all inverted lists

An `IVFIndex` that probes every list, against a `BruteIndex` over the same vectors.  The centroids
are those of k-means, from a shuffle of the vectors; the mean of a cluster is computed with floats
and stays a parameter.

* `Partition` : every vector is on one list, under its id.
* `keeps_heap` : the bounded heap holds the nearest of what has been pushed.
* `search_trained` : both indexes report the same distances.
-/

namespace Vdb

namespace Database

open Selection Hnsw.HNSWIndex

variable {δ : Type}

namespace IVFIndex

section Code

variable [Distance δ] (dist : Vec → Vec → δ) (maxDist : δ) (mean : List Vec → Vec)
  (shuffle : ℕ → List ℕ)

/-- One iteration of k-means: a centroid moves to the mean of its cluster, if that is not empty. -/
def kmeansRound (data : List Vec) (centroids : List Vec) : List Vec :=
  let x : IVFIndex := { centroids }
  centroids.mapIdx fun c v =>
    match data.filter fun v => x.nearestCentroid dist maxDist v = c with
    | [] => v
    | cluster => mean cluster

/-- The centroids that `train` finds: vectors of the training set to start with. -/
def kmeans (iters nlist : ℕ) (data : List Vec) : List Vec :=
  (kmeansRound dist maxDist mean data)^[iters]
    (((shuffle data.length).take nlist).map fun i => data.getD i [])

/-- One `add` after the other. -/
def addAll : List Vec → IVFIndex → Outcome IVFIndex (List InternalId)
  | [], x => .ok [] x
  | v :: vs, x => (x.add dist maxDist v).andThen fun id x =>
      (addAll vs x).andThen fun ids x => .ok (id :: ids) x

end Code

/-! ### What it is for -/

/-- The answer has the distances of that of a `BruteIndex`, and every id once. -/
structure AsBrute [Distance δ] (dist : Vec → Vec → δ) (vectors : List Vec) (query : Vec) (K : ℕ)
    (found : List (InternalId × δ)) : Prop where
  distances : found.map Prod.snd =
    (({ dim := query.length, data := vectors } : BruteIndex).search dist query K).map Prod.snd
  length : found.length = min K vectors.length
  sorted : (found.map Prod.snd).Pairwise (· ≤ ·)
  nodup : (found.map Prod.fst).Nodup

/-- Every vector is on one list, under its id of 32 bits. -/
structure Partition (x : IVFIndex) : Prop where
  trained : x.trained = true
  lists : x.invertedLists.length = x.centroids.length
  nonempty : x.centroids ≠ []
  ids : x.invertedLists.flatten.Perm ((List.range x.vectors.length).map (· % 2 ^ 32))

variable {x : IVFIndex} {K : ℕ} {v : Vec} {id : InternalId} {data : List Vec}

/-! ### The nearest centroid -/

section Partition

variable [Distance δ] {dist : Vec → Vec → δ} {maxDist : δ} {mean : List Vec → Vec}
  {shuffle : ℕ → List ℕ}

theorem exists_nearestCentroid (hmax : ∀ a b, dist a b < maxDist) (h : x.centroids ≠ [])
    (hint : x.centroids.length ≤ 2 ^ 31) (v : Vec) :
    ∃ c < x.centroids.length, x.nearestCentroid dist maxDist v = c := by
  have hcast : ∀ {c : ℕ}, c < 2 ^ 31 → toInt32 (c % 2 ^ 32) = c := fun hc => by
    rw [toInt32, Nat.mod_eq_of_lt (hc.trans (by decide)), if_pos hc]
  -- once there is a best centroid, there always is
  have hkeep : ∀ (l : List Vec) (k : ℕ) (best : ℕ) (d : δ), k + l.length ≤ 2 ^ 31 →
      best < k → ∃ c < k + l.length, ((l.zipIdx k).foldl (fun (best : ℤ × δ) c =>
        if dist v c.1 < best.2 then (toInt32 (c.2 % 2 ^ 32), dist v c.1) else best)
        ((best : ℤ), d)).1 = (c : ℤ) := by
    intro l
    induction l with
    | nil => exact fun k best d _ hb => ⟨best, hb, rfl⟩
    | cons u l ih =>
      intro k best d hk hb
      rw [List.length_cons] at hk
      rw [List.zipIdx_cons, List.foldl_cons, List.length_cons, ← Nat.add_assoc,
        Nat.add_right_comm]
      split_ifs
      · dsimp only
        rw [hcast (show k < 2 ^ 31 by omega)]
        exact ih (k + 1) k _ (by omega) (Nat.lt_succ_self k)
      · exact ih (k + 1) best d (by omega) (Nat.lt_succ_of_lt hb)
  obtain ⟨u, l, hl⟩ := List.exists_cons_of_ne_nil h
  rw [hl, List.length_cons] at hint
  obtain ⟨c, hc, hfold⟩ := hkeep l 1 0 (dist v u) (by omega) Nat.one_pos
  refine ⟨c, by rw [hl, List.length_cons]; omega, ?_⟩
  rw [nearestCentroid, hl, List.zipIdx_cons, List.foldl_cons, if_pos (hmax v u)]
  exact hfold

/-- Appending to one of several lists. -/
theorem flatten_modify {ls : List (List InternalId)} {c : ℕ} (h : c < ls.length)
    (id : InternalId) : (ls.modify c fun l => l ++ [id]).flatten.Perm (ls.flatten ++ [id]) := by
  induction ls generalizing c with
  | nil => exact absurd h (Nat.not_lt_zero c)
  | cons l ls ih =>
    cases c with
    | zero =>
      rw [List.modify_zero_cons, List.flatten_cons, List.flatten_cons, List.append_assoc,
        List.append_assoc]
      exact List.perm_append_comm.append_left l
    | succ c =>
      rw [List.modify_succ_cons, List.flatten_cons, List.flatten_cons, List.append_assoc]
      exact (ih (Nat.lt_of_succ_lt_succ h)).append_left l

/-- What an assignment does. -/
theorem assign_spec (hmax : ∀ a b, dist a b < maxDist) (h : x.centroids ≠ [])
    (hint : x.centroids.length ≤ 2 ^ 31) (hlists : x.invertedLists.length = x.centroids.length)
    (id : InternalId) (v : Vec) :
    ∃ lists : List (List InternalId), x.assign dist maxDist id v =
      { x with invertedLists := lists } ∧
      lists.length = x.centroids.length ∧ lists.flatten.Perm (x.invertedLists.flatten ++ [id]) := by
  obtain ⟨c, hc, hnearest⟩ := exists_nearestCentroid hmax h hint v
  refine ⟨x.invertedLists.modify c fun l => l ++ [id], ?_, ?_, flatten_modify (hlists ▸ hc) id⟩
  · rw [assign, hnearest]
    exact if_neg (not_lt.2 (Int.natCast_nonneg c))
  · rw [List.length_modify, hlists]

/-- What the assignments of `train` do. -/
theorem assigns_spec (hmax : ∀ a b, dist a b < maxDist) (data : List Vec) (k : ℕ)
    (h : x.centroids ≠ []) (hint : x.centroids.length ≤ 2 ^ 31)
    (hlists : x.invertedLists.length = x.centroids.length) :
    ∃ lists : List (List InternalId), (data.zipIdx k).foldl
        (fun x v => x.assign dist maxDist (v.2 % 2 ^ 32) v.1) x =
        { x with invertedLists := lists } ∧
      lists.length = x.centroids.length ∧
      lists.flatten.Perm (x.invertedLists.flatten ++
          (List.range' k data.length).map (· % 2 ^ 32)) := by
  induction data generalizing x k with
  | nil => exact ⟨x.invertedLists, rfl, hlists, by rw [List.length_nil]; simp⟩
  | cons v data ih =>
    obtain ⟨lists, hassign, hlen, hperm⟩ := assign_spec hmax h hint hlists (k % 2 ^ 32) v
    obtain ⟨lists', hfold, hlen', hperm'⟩ :=
      ih (x := { x with invertedLists := lists }) (k + 1) h hint hlen
    refine ⟨lists', ?_, hlen', hperm'.trans ((hperm.append_right _).trans ?_)⟩
    · rw [List.zipIdx_cons, List.foldl_cons]
      dsimp only
      rw [hassign, hfold]
    · rw [List.length_cons, List.range'_succ, List.map_cons, List.append_assoc,
        List.singleton_append]

/-- There are as many centroids as asked for, whatever clusters are empty. -/
theorem length_kmeans (hshuffle : ∀ n, (shuffle n).Perm (List.range n)) (iters : ℕ) {nlist : ℕ}
    (h : nlist ≤ data.length) :
    (kmeans dist maxDist mean shuffle iters nlist data).length = nlist := by
  have hround : ∀ (n : ℕ) (centroids : List Vec),
      ((kmeansRound dist maxDist mean data)^[n] centroids).length = centroids.length := by
    intro n
    induction n with
    | zero => exact fun _ => rfl
    | succ n ih =>
      intro centroids
      rw [Function.iterate_succ_apply, ih, kmeansRound, List.length_mapIdx]
  rw [kmeans, hround, List.length_map, List.length_take, (hshuffle _).length_eq, List.length_range,
    Nat.min_eq_left h]

variable (dist maxDist mean shuffle x data) in
theorem partition_train (hmax : ∀ a b, dist a b < maxDist)
    (hshuffle : ∀ n, (shuffle n).Perm (List.range n)) (iters : ℕ) (hnlist : 1 ≤ x.nlist)
    (hint : min x.nlist data.length ≤ 2 ^ 31) (hdata : data ≠ []) :
    ∃ y, x.train dist maxDist (kmeans dist maxDist mean shuffle iters) data = y ∧ y.Partition ∧
      y.vectors = data ∧ y.nprobe = x.nprobe ∧ y.centroids.length = min x.nlist data.length := by
  have hpos := List.length_pos_iff.2 hdata
  have hlen : (kmeans dist maxDist mean shuffle iters (min x.nlist data.length) data).length =
      min x.nlist data.length := length_kmeans hshuffle iters (Nat.min_le_right _ _)
  have hne : kmeans dist maxDist mean shuffle iters (min x.nlist data.length) data ≠ [] := by
    intro hnil
    rw [hnil, List.length_nil] at hlen
    omega
  unfold train
  dsimp only
  obtain ⟨lists, hfold, hlists, hperm⟩ := assigns_spec hmax data 0 (x := { x with
    nlist := min x.nlist data.length
    centroids := kmeans dist maxDist mean shuffle iters (min x.nlist data.length) data
    invertedLists := List.replicate (min x.nlist data.length) []
    vectors := data, trained := true }) hne (hlen.trans_le hint)
    (by rw [List.length_replicate, hlen])
  refine ⟨_, hfold, ⟨rfl, hlists, hne, ?_⟩, rfl, rfl, hlen⟩
  rw [List.flatten_replicate_nil, List.nil_append] at hperm
  rw [List.range_eq_range']
  exact hperm

theorem Partition.add (h : x.Partition) (hmax : ∀ a b, dist a b < maxDist)
    (hint : x.centroids.length ≤ 2 ^ 31) (v : Vec) :
    ∃ id y, x.add dist maxDist v = .ok id y ∧ y.Partition ∧ y.vectors = x.vectors ++ [v] ∧
      y.nprobe = x.nprobe ∧ y.centroids = x.centroids := by
  obtain ⟨lists, hassign, hlen, hperm⟩ :=
    assign_spec hmax h.nonempty hint h.lists (x.vectors.length % 2 ^ 32) v
  refine ⟨_, _, by rw [IVFIndex.add, if_neg (not_not.2 h.trained)], ?_, ?_, ?_, ?_⟩
  · rw [hassign]
    refine ⟨h.trained, hlen, h.nonempty, hperm.trans ?_⟩
    rw [List.length_append, List.length_singleton, List.range_succ, List.map_append]
    exact h.ids.append_right _
  · rw [hassign]
  · rw [hassign]
  · rw [hassign]

/-- All adds return. -/
theorem Partition.addAll (h : x.Partition) (hmax : ∀ a b, dist a b < maxDist)
    (hint : x.centroids.length ≤ 2 ^ 31) (adds : List Vec) :
    ∃ ids y, addAll dist maxDist adds x = .ok ids y ∧ y.Partition ∧
      y.vectors = x.vectors ++ adds ∧ y.nprobe = x.nprobe ∧ y.centroids = x.centroids := by
  induction adds generalizing x with
  | nil => exact ⟨[], x, rfl, h, (List.append_nil _).symm, rfl, rfl⟩
  | cons v adds ih =>
    obtain ⟨id, y, hadd, hy, hvec, hprobe, hcent⟩ := h.add hmax hint v
    obtain ⟨ids, z, hall, hz, hvec', hprobe', hcent'⟩ := ih hy (hcent ▸ hint)
    refine ⟨id :: ids, z, ?_, hz, ?_, hprobe'.trans hprobe, hcent'.trans hcent⟩
    swap
    · rw [hvec', hvec, List.append_assoc, List.singleton_append]
    rw [IVFIndex.addAll, hadd, Outcome.andThen, hall]
    rfl

end Partition

/-! ### The bounded heap -/

section Heap

variable [Distance δ] {heap seen : List (δ × InternalId)}

/-- The heap holds the nearest of what has been seen, the farthest on top. -/
structure Keeps (K : ℕ) (seen heap : List (δ × InternalId)) : Prop where
  sorted : heap.Pairwise fun a b => b.1 ≤ a.1
  length : heap.length = min K seen.length
  rest : ∃ rest, (heap ++ rest).Perm seen ∧ ∀ a ∈ heap, ∀ b ∈ rest, a.1 ≤ b.1

theorem Keeps.keepNearest (h : Keeps K seen heap) (e : δ × InternalId) :
    Keeps K (seen ++ [e]) (keepNearest K heap e) := by
  obtain ⟨rest, hperm, hle⟩ := h.rest
  have hlen := hperm.length_eq
  have hheap := h.length
  rw [List.length_append] at hlen
  unfold IVFIndex.keepNearest
  dsimp only
  split_ifs with hroom
  · -- nothing has been left out so far
    have hrest : rest = [] := List.length_eq_zero_iff.1 (by omega)
    have hpush := push_perm (fun a b => pairLt b a) e heap
    rw [hrest, List.append_nil] at hperm
    refine ⟨push_sorted h.sorted e, ?_, [], ?_, fun a _ b hb => absurd hb List.not_mem_nil⟩
    · rw [hpush.length_eq, List.length_cons, List.length_append, List.length_singleton]
      omega
    · rw [List.append_nil]
      exact hpush.trans ((hperm.cons e).trans (List.perm_append_singleton e seen).symm)
  · have hall : ((heap ++ rest) ++ [e]).Perm (seen ++ [e]) := hperm.append_right [e]
    cases heap with
    | nil =>
      refine ⟨List.Pairwise.nil, ?_, rest ++ [e], hall, fun a ha => absurd ha List.not_mem_nil⟩
      rw [List.length_nil] at hroom ⊢
      omega
    | cons top heap =>
      -- the farthest of those kept gives way to a nearer one
      obtain ⟨htop, hsorted⟩ := List.pairwise_cons.1 h.sorted
      dsimp only
      rw [List.length_cons] at hheap hroom
      split_ifs with hlt
      · have hpush := push_perm (fun a b => pairLt b a) e heap
        refine ⟨push_sorted hsorted e, ?_, top :: rest, ?_, fun a ha b hb => ?_⟩
        · rw [hpush.length_eq, List.length_cons, List.length_append, List.length_singleton]
          omega
        · refine List.Perm.trans ?_ hall
          refine (hpush.append_right _).trans ?_
          rw [List.cons_append, List.cons_append]
          refine ((List.perm_middle.cons e).trans ?_)
          exact (List.perm_append_singleton e _).symm
        · have ha' : a.1 ≤ top.1 := by
            rcases List.mem_cons.1 (hpush.subset ha) with rfl | ha
            · exact hlt.le
            · exact htop a ha
          rcases List.mem_cons.1 hb with rfl | hb
          · exact ha'
          · exact ha'.trans (hle top List.mem_cons_self b hb)
      · have hfar : top.1 ≤ e.1 := by
          rcases Distance.le_total top.1 e.1 with hte | hte
          · exact hte
          · by_contra hnot
            exact hlt (lt_of_le_not_ge hte hnot)
        refine ⟨h.sorted, ?_, rest ++ [e], ?_, fun a ha b hb => ?_⟩
        · rw [List.length_cons, List.length_append, List.length_singleton]
          omega
        · rwa [← List.append_assoc]
        · rcases List.mem_append.1 hb with hb | hb
          · exact hle a ha b hb
          · rw [List.mem_singleton.1 hb]
            rcases List.mem_cons.1 ha with rfl | ha
            · exact hfar
            · exact (htop a ha).trans hfar

/-- The heap after the scan. -/
theorem keeps_heap (K : ℕ) (seen : List (δ × InternalId)) :
    Keeps K seen (seen.foldl (keepNearest K) []) := by
  have hfold : ∀ (es before heap : List (δ × InternalId)), Keeps K before heap →
      Keeps K (before ++ es) (es.foldl (IVFIndex.keepNearest K) heap) := by
    intro es
    induction es with
    | nil => exact fun before heap h => by rwa [List.append_nil]
    | cons e es ih =>
      intro before heap h
      have hnext := ih (before ++ [e]) _ (h.keepNearest e)
      rwa [List.append_assoc, List.singleton_append] at hnext
  exact hfold seen [] [] ⟨List.Pairwise.nil, by simp, [], .refl _,
    fun a ha => absurd ha List.not_mem_nil⟩

/-- Emptying the heap from its top gives the nearest in order. -/
theorem selects_heap (K : ℕ) (seen : List (δ × InternalId)) :
    Selects Prod.fst K seen (seen.foldl (keepNearest K) []).reverse := by
  have h := keeps_heap K seen
  obtain ⟨rest, hperm, hle⟩ := h.rest
  refine ⟨List.pairwise_reverse.2 h.sorted, by rw [List.length_reverse, h.length], rest, ?_, ?_⟩
  · exact ((List.reverse_perm _).append_right rest).trans hperm
  · exact fun a ha b hb => hle a (List.mem_reverse.1 ha) b hb

end Heap

/-! ### Searching -/

section Search

variable [Distance δ] {dist : Vec → Vec → δ}

/-- The lists one after the other. -/
theorem flatMap_range_getD (ls : List (List InternalId)) :
    ((List.range ls.length).flatMap fun c => ls.getD c []) = ls.flatten := by
  have hmap : (List.range ls.length).map (fun c => ls.getD c []) = ls := by
    refine List.ext_getElem (by simp) fun i hi _ => ?_
    rw [List.length_map, List.length_range] at hi
    rw [List.getElem_map, List.getElem_range, List.getD_eq_getElem _ _ hi]
  rw [List.flatMap_def, hmap]

variable (dist) in
/-- What a search that probes every list reports, of the ids on the lists. -/
theorem Partition.search (h : x.Partition) (hprobe : x.centroids.length ≤ x.nprobe) (query : Vec)
    (K : ℕ) : ∃ found, x.search dist query K = .ok found ∧
      Selects Prod.snd K (((List.range x.vectors.length).map (· % 2 ^ 32)).map
        fun id => (id, dist query (x.vectors.getD id []))) found := by
  rw [IVFIndex.search, if_neg (not_not.2 h.trained)]
  by_cases hK : K = 0
  · rw [if_pos hK]
    refine ⟨[], rfl, List.Pairwise.nil, by rw [hK, List.length_nil, Nat.zero_min], _, .refl _,
      fun a ha => absurd ha List.not_mem_nil⟩
  · rw [if_neg hK]
    dsimp only
    refine ⟨_, rfl, ?_⟩
    have hsort := List.perm_insertionSort (fun a b => !pairLt b a)
      (x.centroids.mapIdx fun c v => (dist query v, c))
    set sorted := (x.centroids.mapIdx fun c v => (dist query v, c)).insertionSort
      fun a b => !pairLt b a
    have htake : sorted.take x.nprobe = sorted := by
      refine List.take_of_length_le ?_
      rw [hsort.length_eq, List.length_mapIdx]
      exact hprobe
    have hcells : (sorted.map Prod.snd).Perm (List.range x.invertedLists.length) := by
      refine (hsort.map Prod.snd).trans (.of_eq ?_)
      rw [h.lists]
      refine List.ext_getElem (by simp) fun i hi _ => ?_
      rw [List.getElem_map, List.getElem_mapIdx, List.getElem_range]
    have hids : ((sorted.take x.nprobe).flatMap fun c => x.invertedLists.getD c.2 []).Perm
        ((List.range x.vectors.length).map (· % 2 ^ 32)) := by
      rw [htake, ← List.flatMap_map Prod.snd fun c => x.invertedLists.getD c []]
      refine (hcells.flatMap_right _).trans ?_
      rw [flatMap_range_getD]
      exact h.ids
    have hselects := selects_heap K ((((sorted.take x.nprobe).flatMap
      fun c => x.invertedLists.getD c.2 []).map fun id => (dist query (x.vectors.getD id []), id)))
    have hsnd :
      Selects (Prod.snd ∘ fun e : δ × InternalId => ((e.2, e.1) : InternalId × δ)) K _ _ :=
      hselects
    have hswap := hsnd.map
    refine hswap.perm ?_
    rw [List.map_map]
    exact hids.map _

end Search

/-- The answer of a `BruteIndex`. -/
theorem selects_brute [LinearOrder δ] (dist : Vec → Vec → δ) (x : BruteIndex) (query : Vec)
    (K : ℕ) :
    Selects Prod.snd K ((List.range x.data.length).map
      fun id => (id, dist query (x.data.getD id []))) (x.search dist query K) := by
  have hall : x.data.mapIdx (fun i v => (i, dist query v)) =
      (List.range x.data.length).map fun id => (id, dist query (x.data.getD id [])) := by
    refine List.ext_getElem (by simp) fun i hi _ => ?_
    rw [List.length_mapIdx] at hi
    rw [List.getElem_mapIdx, List.getElem_map, List.getElem_range, List.getD_eq_getElem _ _ hi]
  rw [← hall]
  exact selects_insertionSort Prod.snd K _

variable [LinearOrder δ] {dist : Vec → Vec → δ} {maxDist : δ} {mean : List Vec → Vec}
  {shuffle : ℕ → List ℕ}

/-- **Searching every list** of a trained index answers as a `BruteIndex` does, as long as the ids
tell the vectors apart and an `int` the lists. -/
theorem search_trained (dist : Vec → Vec → δ) (maxDist : δ) (mean : List Vec → Vec)
    (shuffle : ℕ → List ℕ) (hmax : ∀ a b, dist a b < maxDist)
    (hshuffle : ∀ n, (shuffle n).Perm (List.range n)) (iters : ℕ) (x : IVFIndex)
    (hnlist : 1 ≤ x.nlist) (data adds : List Vec) (hdata : data ≠ [])
    (hsize : data.length + adds.length ≤ 2 ^ 32) (hint : min x.nlist data.length ≤ 2 ^ 31) :
    ∃ ids y, addAll dist maxDist adds
        (x.train dist maxDist (kmeans dist maxDist mean shuffle iters) data) = .ok ids y ∧
      y.vectors = data ++ adds ∧ y.invertedLists.flatten.Perm (List.range y.vectors.length) ∧
      (y.centroids.length ≤ y.nprobe → ∀ query K, ∃ found, y.search dist query K = .ok found ∧
        AsBrute dist (data ++ adds) query K found) := by
  obtain ⟨z, htrain, hz, hvec, -, hcent⟩ :=
    partition_train x data dist maxDist mean shuffle hmax hshuffle iters hnlist hint hdata
  obtain ⟨ids, y, hadds, hy, hvec', -⟩ := hz.addAll hmax (hcent.trans_le hint) adds
  rw [hvec] at hvec'
  rw [htrain]
  have hids : (List.range y.vectors.length).map (· % 2 ^ 32) = List.range y.vectors.length := by
    refine (List.map_congr_left fun i hi => ?_).trans (List.map_id _)
    rw [List.mem_range, hvec', List.length_append] at hi
    exact Nat.mod_eq_of_lt (hi.trans_le hsize)
  refine ⟨ids, y, hadds, hvec', hids ▸ hy.ids, fun hprobe query K => ?_⟩
  obtain ⟨found, hfound, hselects⟩ := hy.search dist hprobe query K
  have hbrute := selects_brute dist { dim := query.length, data := y.vectors } query K
  rw [hids] at hselects
  refine ⟨found, hfound, ?_⟩
  rw [← hvec']
  refine ⟨?_, ?_, List.pairwise_map.2 hselects.sorted, ?_⟩
  · rw [← List.forall₂_eq_eq_eq, List.forall₂_map_left_iff, List.forall₂_map_right_iff]
    exact (hselects.keys hbrute (.refl _)).imp fun a b hab => hab.eq
  · rw [hselects.length, List.length_map, List.length_range]
  · -- the ids of the selection are some of the ids of all
    obtain ⟨rest, hperm, -⟩ := hselects.rest
    have hnodup := (hperm.map Prod.fst).nodup_iff.2 (by
      rw [List.map_map]
      exact (List.map_id (List.range y.vectors.length)).symm ▸ List.nodup_range)
    rw [List.map_append] at hnodup
    exact (List.nodup_append.1 hnodup).1

/-- Two vectors are equal or not. -/
def discrete (a b : Vec) : ℕ := if a = b then 0 else 1

theorem discrete_lt (a b : Vec) : discrete a b < 2 := by
  unfold discrete
  split_ifs <;> decide

/-- Three vectors on two lists. -/
theorem search_trained_three :
    ∃ ids y, addAll discrete 2 [[3]] (IVFIndex.train discrete { nlist := 2 } 2
        (kmeans discrete 2 (fun _ => [9]) List.range 1) [[1], [2]]) = .ok ids y ∧
      y.vectors = [[1], [2], [3]] ∧
      y.invertedLists.flatten.Perm (List.range y.vectors.length) ∧
      (y.centroids.length ≤ y.nprobe → ∀ query K, ∃ found, y.search discrete query K = .ok found ∧
        AsBrute discrete [[1], [2], [3]] query K found) :=
  search_trained discrete 2 (fun _ => [9]) List.range discrete_lt (fun _ => .refl _) 1
    { nlist := 2 } (by decide) [[1], [2]] [[3]] (by decide) (by decide) (by decide)

/-- **One vector more than there are ids**: the last has the id of the first, and a search for it
misses it. -/
theorem search_wrapped : ¬ ∀ data adds : List Vec, data ≠ [] →
    ∃ ids y, addAll discrete 2 adds (IVFIndex.train discrete { nlist := 1 } 2
        (kmeans discrete 2 (fun _ => [9]) List.range 25) data) = .ok ids y ∧
      (y.centroids.length ≤ y.nprobe → ∀ query K, ∃ found, y.search discrete query K = .ok found ∧
        AsBrute discrete (data ++ adds) query K found) := by
  intro hall
  obtain ⟨zeros, hlen, hzeros⟩ :
      ∃ zeros : List Vec, zeros.length + 1 = 2 ^ 32 ∧ ∀ v ∈ zeros, v = [0] :=
    ⟨List.replicate (2 ^ 32 - 1) [0], by rw [List.length_replicate]; omega,
      fun _ => List.eq_of_mem_replicate⟩
  obtain ⟨ids, y, hadds, hsearch⟩ := hall [[0]] (zeros ++ [[1]]) (by decide)
  obtain ⟨z, htrain, hz, hvec, hprobe, hcent⟩ := partition_train { nlist := 1 } [[0]]
    discrete 2 (fun _ => [9]) List.range discrete_lt (fun _ => .refl _) 25 (by decide) (by decide)
    (by decide)
  obtain ⟨ids', y', hadds', hy, hvec', hprobe', hcent'⟩ := hz.addAll discrete_lt
    (hcent.trans_le (by decide)) (zeros ++ [[1]])
  rw [htrain, hadds'] at hadds
  cases hadds
  have hfits : y.centroids.length ≤ y.nprobe := by
    rw [hcent', hcent, hprobe', hprobe]
    decide
  obtain ⟨found, hfound, hbrute⟩ := hsearch hfits [1] 1
  obtain ⟨found', hfound', hselects⟩ := hy.search discrete hfits [1] 1
  rw [hfound] at hfound'
  cases hfound'
  rw [hvec] at hvec'
  -- the first `2 ^ 32` vectors are all at distance `1`
  have hfar : ∀ e ∈ found, e.2 = 1 := by
    intro e he
    obtain ⟨id, hid, rfl⟩ := List.mem_map.1 (hselects.subset he)
    obtain ⟨i, -, rfl⟩ := List.mem_map.1 hid
    have hlt : i % 2 ^ 32 < ([0] :: zeros).length := by
      rw [List.length_cons, hlen]
      exact Nat.mod_lt _ (by decide)
    have hget : y.vectors.getD (i % 2 ^ 32) [] = [0] := by
      rw [hvec', List.singleton_append, ← List.cons_append, List.getD_append _ _ _ _ hlt,
        List.getD_eq_getElem _ _ hlt]
      exact (List.mem_cons.1 (List.getElem_mem hlt)).elim id (hzeros _)
    dsimp only
    rw [hget]
    decide
  -- a `BruteIndex` finds the last one
  have hnear := selects_brute discrete
    { dim := 1, data := [[0]] ++ (zeros ++ [[1]]) } [1] 1
  have hlast : (zeros.length + 1, 0) ∈ (List.range ([[0]] ++ (zeros ++ [[1]])).length).map
      fun id => (id, discrete [1] (([[0]] ++ (zeros ++ [[1]])).getD id [])) := by
    refine List.mem_map.2 ⟨zeros.length + 1, ?_, ?_⟩
    · rw [List.mem_range]
      simp only [List.length_append, List.length_singleton]
      omega
    · have hget : ([[0]] ++ (zeros ++ [[1]])).getD (zeros.length + 1) [] = [1] := by
        rw [List.singleton_append, List.getD_cons_succ, List.getD_append_right _ _ _ _ le_rfl,
          Nat.sub_self]
        rfl
      rw [hget]
      rfl
  have hfound0 : ∃ e ∈ BruteIndex.search discrete
      { dim := 1, data := [[0]] ++ (zeros ++ [[1]]) } [1] 1, e.2 = 0 := by
    by_cases hin : (zeros.length + 1, 0) ∈ BruteIndex.search discrete
        { dim := 1, data := [[0]] ++ (zeros ++ [[1]]) } [1] 1
    · exact ⟨_, hin, rfl⟩
    · have hpos := hnear.length
      rw [List.length_map, List.length_range] at hpos
      obtain ⟨e, he⟩ := List.exists_mem_of_length_pos (l := BruteIndex.search discrete
        { dim := 1, data := [[0]] ++ (zeros ++ [[1]]) } [1] 1) (by
          rw [hpos]
          simp)
      exact ⟨e, he, Nat.le_zero.1 (hnear.le_of_not_mem hlast hin he)⟩
  obtain ⟨e, he, he0⟩ := hfound0
  have hmem : e.2 ∈ found.map Prod.snd := by
    rw [hbrute.distances]
    exact List.mem_map_of_mem he
  obtain ⟨e', he', heq⟩ := List.mem_map.1 hmem
  rw [hfar e' he', he0] at heq
  cases heq

end IVFIndex

end Database

end Vdb
