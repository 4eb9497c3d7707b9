import Vdb.Hnsw.Concurrent
import Mathlib.Data.Set.Card
import Mathlib.Logic.Relation

/-!
# What a search on one layer finds

`search_layer` run alone: the two heaps and the visited set, over any graph of lists.

* `Searching` : what holds whenever a list has been copied, or none is being walked.
* `searchLayer_found` : the answer, and what was evaluated without being in it.
-/

namespace Vdb

namespace Hnsw

namespace HNSWIndex

variable {ε δ : Type*} [Distance δ] (dist : ε → ε → δ) (x : HNSWIndex ε)

/-! ### What it is for -/

/-- There is a way from `i` to `j` along the lists of the layer. -/
def Reaches (lc : ℕ) : InternalId → InternalId → Prop :=
  Relation.ReflTransGen fun i j => j ∈ x.links i lc

/-- The nodes `found` are the answer, when the distances of the nodes `seen` were computed. -/
structure Found (q : ε) (ep : InternalId) (ef lc : ℕ) (seen found : List InternalId) : Prop where
  nodup : found.Nodup
  length : found.length ≤ ef
  reaches : ∀ i ∈ found, x.Reaches lc ep i
  entry : ep ∈ seen
  evaluated : ∀ i ∈ found, i ∈ seen
  nearest : ∀ i ∈ seen, i ∉ found → found.length = ef ∧
    ∀ j ∈ found, x.distTo dist q j ≤ x.distTo dist q i
  complete : {i | x.Reaches lc ep i}.encard ≤ ef → ∀ i, i ∈ found ↔ x.Reaches lc ep i

/-! ### The invariant -/

/-- What the heaps hold while the list of `cur` is being walked, or between two lists. -/
structure Searching (q : ε) (ep : InternalId) (ef lc : ℕ) (cur : Option InternalId)
    (st : SearchState δ) : Prop where
  visited : st.visited.Nodup
  entry : ep ∈ st.visited
  reaches : ∀ i ∈ st.visited, x.Reaches lc ep i
  candidates : ∀ p ∈ st.candidates, p.2 ∈ st.visited ∧ p.1 = x.distTo dist q p.2
  evaluated : ∀ p ∈ st.W, p.2 ∈ st.visited ∧ p.1 = x.distTo dist q p.2
  sorted : st.W.Pairwise fun a b => b.1 ≤ a.1
  nodup : (results st).Nodup
  length : st.W.length ≤ ef
  nearest : ∀ i ∈ st.visited, i ∉ results st → st.W.length = ef ∧
    ∀ p ∈ st.W, p.1 ≤ x.distTo dist q i
  /-- A result is still to be expanded, or its list has been walked. -/
  expanded : ∀ i ∈ results st, i ∈ st.candidates.map Prod.snd ∨ cur = some i ∨
    ∀ j ∈ x.links i lc, j ∈ st.visited

variable {dist x} {q : ε} {ep i c : InternalId} {ef lc n : ℕ} {cur : Option InternalId}
  {st st' : SearchState δ} {l : List InternalId}

theorem searching_start (hef : 1 ≤ ef) :
    x.Searching dist q ep ef lc none (x.searchStart dist q ep) where
  visited := List.nodup_singleton ep
  entry := List.mem_singleton_self ep
  reaches i hi := List.mem_singleton.1 hi ▸ .refl
  candidates p hp := by
    rw [List.mem_singleton.1 hp]
    exact ⟨List.mem_singleton_self ep, rfl⟩
  evaluated p hp := by
    rw [List.mem_singleton.1 hp]
    exact ⟨List.mem_singleton_self ep, rfl⟩
  sorted := List.pairwise_singleton _ _
  nodup := List.nodup_singleton ep
  length := hef
  nearest i hi hnot := absurd hi hnot
  expanded i hi := .inl hi

theorem pairLt_le {a b : δ × InternalId} (h : pairLt a b = true) : a.1 ≤ b.1 := by
  unfold pairLt at h
  rw [Bool.or_eq_true, Bool.and_eq_true] at h
  rcases h with h | ⟨h, -⟩
  · exact (of_decide_eq_true h).le
  · rcases Distance.le_total a.1 b.1 with hab | hab
    · exact hab
    · -- not below it, so as near
      by_contra hnot
      rw [Bool.not_eq_true', decide_eq_false_iff_not] at h
      exact h (lt_of_le_not_ge hab hnot)

theorem not_pairLt_le {a b : δ × InternalId} (h : ¬ pairLt a b = true) : b.1 ≤ a.1 := by
  rcases Distance.le_total b.1 a.1 with hab | hab
  · exact hab
  · by_contra hnot
    refine h ?_
    unfold pairLt
    rw [Bool.or_eq_true]
    exact .inl (decide_eq_true (lt_of_le_not_ge hab hnot))

omit [Distance δ] in
theorem push_perm (before : δ × InternalId → δ × InternalId → Bool) (a : δ × InternalId)
    (h : List (δ × InternalId)) : (push before a h).Perm (a :: h) := by
  induction h with
  | nil => exact .refl _
  | cons b h ih =>
    rw [push]
    split_ifs
    · exact .refl _
    · exact (ih.cons b).trans (.swap a b h)

/-- A push keeps the farthest on top. -/
theorem push_sorted {W : List (δ × InternalId)} (h : W.Pairwise fun a b => b.1 ≤ a.1)
    (a : δ × InternalId) : (push (fun a b => pairLt b a) a W).Pairwise fun a b => b.1 ≤ a.1 := by
  induction W with
  | nil => exact List.pairwise_singleton _ _
  | cons b W ih =>
    rw [List.pairwise_cons] at h
    rw [push]
    split_ifs with hlt
    · refine List.pairwise_cons.2 ⟨fun c hc => ?_, List.pairwise_cons.2 h⟩
      rcases List.mem_cons.1 hc with rfl | hc
      · exact pairLt_le hlt
      · exact (h.1 c hc).trans (pairLt_le hlt)
    · refine List.pairwise_cons.2 ⟨fun c hc => ?_, ih h.2⟩
      rcases mem_push.1 hc with rfl | hc
      · exact not_pairLt_le hlt
      · exact h.1 c hc

/-! ### One node -/

theorem visited_visit (st : SearchState δ) (i : InternalId) :
    (x.visit dist q ef st i).visited = if i ∈ st.visited then st.visited else i :: st.visited := by
  unfold visit
  dsimp only
  split_ifs <;> rfl

variable (dist x q ef) in
/-- Whoever gets into the heap of candidates has just been visited. -/
theorem length_visit (st : SearchState δ) (i : InternalId) :
    (x.visit dist q ef st i).candidates.length + st.visited.length ≤
      st.candidates.length + (x.visit dist q ef st i).visited.length := by
  unfold visit
  dsimp only
  split_ifs
  · exact le_rfl
  · rw [(push_perm _ _ _).length_eq, List.length_cons, List.length_cons]
    omega
  · rw [(push_perm _ _ _).length_eq, List.length_cons, List.length_cons]
    omega
  · exact Nat.add_le_add_left (Nat.le_succ _) _

/-- A node that is not farther than all the results gets among them, and the farthest may leave. -/
theorem Searching.keep (h : x.Searching dist q ep ef lc cur st) (hef : 1 ≤ ef)
    (hi : i ∉ st.visited) (hreach : x.Reaches lc ep i)
    (hnear : st.W.length < ef ∨ ∃ w ∈ st.W.head?, x.distTo dist q i < w.1) :
    x.Searching dist q ep ef lc cur
      { visited := i :: st.visited
        candidates := push pairLt (x.distTo dist q i, i) st.candidates
        W := let W := push (fun a b => pairLt b a) (x.distTo dist q i, i) st.W
          if ef < W.length then W.tail else W } := by
  dsimp only
  set d := x.distTo dist q i with hd
  have hperm := push_perm (fun a b => pairLt b a) (d, i) st.W
  have hsorted := push_sorted h.sorted (d, i)
  set W := push (fun a b => pairLt b a) (d, i) st.W with hW
  have hlen : W.length = st.W.length + 1 := hperm.length_eq
  have hmem : ∀ p, p ∈ W ↔ p = (d, i) ∨ p ∈ st.W := fun p => mem_push
  have hnot : i ∉ results st := fun hin => by
    obtain ⟨p, hp, rfl⟩ := List.mem_map.1 hin
    exact hi (h.evaluated p hp).1
  have hnodup : (W.map Prod.snd).Nodup :=
    ((hperm.map Prod.snd).nodup_iff).2 (List.nodup_cons.2 ⟨hnot, h.nodup⟩)
  have hold : ∀ p ∈ W, p.2 ∈ i :: st.visited ∧ p.1 = x.distTo dist q p.2 := by
    intro p hp
    rcases (hmem p).1 hp with rfl | hp
    · exact ⟨List.mem_cons_self, hd⟩
    · exact (h.evaluated p hp).imp_left (List.mem_cons_of_mem i)
  -- if something had been left out before, it is no nearer than the new node
  have hleft : ∀ k ∈ st.visited, k ∉ results st → st.W.length = ef ∧
      ∀ p ∈ W, p.1 ≤ x.distTo dist q k := by
    intro k hk hout
    obtain ⟨hfull, hle⟩ := h.nearest k hk hout
    refine ⟨hfull, fun p hp => ?_⟩
    rcases (hmem p).1 hp with rfl | hp
    · obtain hlt | ⟨w, hw, hlt⟩ := hnear
      · exact absurd hfull hlt.ne
      · exact hlt.le.trans (hle w (List.mem_of_mem_head? hw))
    · exact hle p hp
  have hW' : (if ef < W.length then W.tail else W).Sublist W := by
    split_ifs
    · exact List.tail_sublist W
    · exact .refl W
  refine
  { visited := List.nodup_cons.2 ⟨hi, h.visited⟩
    entry := List.mem_cons_of_mem i h.entry
    reaches := fun k hk => ?_
    candidates := fun p hp => ?_
    evaluated := fun p hp => hold p (hW'.subset hp)
    sorted := hsorted.sublist hW'
    nodup := hnodup.sublist (hW'.map Prod.snd)
    length := ?_
    nearest := fun k hk hout => ?_
    expanded := fun k hk => ?_ }
  · rcases List.mem_cons.1 hk with rfl | hk
    · exact hreach
    · exact h.reaches k hk
  · rcases mem_push.1 hp with rfl | hp
    · exact ⟨List.mem_cons_self, hd⟩
    · exact (h.candidates p hp).imp_left (List.mem_cons_of_mem i)
  · have := h.length
    dsimp only
    split_ifs with hover
    · rw [List.length_tail]
      omega
    · omega
  · dsimp only [results] at hout ⊢
    by_cases hover : ef < W.length
    · rw [if_pos hover] at hout ⊢
      have hfull := h.length
      refine ⟨by rw [List.length_tail]; omega, fun p hp => ?_⟩
      by_cases hin : k ∈ W.map Prod.snd
      · -- the one that has left is the farthest
        obtain ⟨p', hp', rfl⟩ := List.mem_map.1 hin
        obtain ⟨top, rest, hcons⟩ := List.exists_cons_of_ne_nil (List.ne_nil_of_mem hp')
        rw [hcons] at hp' hout hp hsorted
        rw [List.tail_cons] at hout hp
        rcases List.mem_cons.1 hp' with rfl | hp'
        · rw [← (hold p' (by rw [hcons]; exact List.mem_cons_self)).2]
          exact (List.pairwise_cons.1 hsorted).1 p hp
        · exact absurd (List.mem_map_of_mem hp') hout
      · have hk' : k ∈ st.visited ∧ k ∉ results st := by
          refine ⟨(List.mem_cons.1 hk).resolve_left ?_, fun hres => hin ?_⟩
          · rintro rfl
            exact hin (List.mem_map.2 ⟨_, (hmem _).2 (.inl rfl), rfl⟩)
          · obtain ⟨p', hp', rfl⟩ := List.mem_map.1 hres
            exact List.mem_map_of_mem ((hmem p').2 (.inr hp'))
        exact (hleft k hk'.1 hk'.2).2 p (List.mem_of_mem_tail hp)
    · rw [if_neg hover] at hout ⊢
      -- nothing can have been left out before
      have hk' : k ∈ st.visited ∧ k ∉ results st := by
        refine ⟨(List.mem_cons.1 hk).resolve_left ?_, fun hres => hout ?_⟩
        · rintro rfl
          exact hout (List.mem_map.2 ⟨_, (hmem _).2 (.inl rfl), rfl⟩)
        · obtain ⟨p', hp', rfl⟩ := List.mem_map.1 hres
          exact List.mem_map_of_mem ((hmem p').2 (.inr hp'))
      have := (hleft k hk'.1 hk'.2).1
      omega
  · obtain ⟨p, hp, rfl⟩ := List.mem_map.1 hk
    rcases (hmem p).1 (hW'.subset hp) with rfl | hp
    · exact .inl (List.mem_map.2 ⟨_, mem_push.2 (.inl rfl), rfl⟩)
    · rcases h.expanded p.2 (List.mem_map_of_mem hp) with hc | hc | hc
      · obtain ⟨p', hp', heq⟩ := List.mem_map.1 hc
        exact .inl (List.mem_map.2 ⟨p', mem_push.2 (.inr hp'), heq⟩)
      · exact .inr (.inl hc)
      · exact .inr (.inr fun j hj => List.mem_cons_of_mem i (hc j hj))

/-- Walking over a node of the list keeps the invariant. -/
theorem Searching.visit (h : x.Searching dist q ep ef lc cur st) (hef : 1 ≤ ef)
    (hreach : x.Reaches lc ep i) : x.Searching dist q ep ef lc cur (x.visit dist q ef st i) := by
  unfold HNSWIndex.visit
  by_cases hi : i ∈ st.visited
  · rwa [if_pos hi]
  rw [if_neg hi]
  dsimp only
  split_ifs with hnear hover
  · have hkeep := h.keep hef hi hreach hnear
    dsimp only at hkeep
    rwa [if_pos hover] at hkeep
  · have hkeep := h.keep hef hi hreach hnear
    dsimp only at hkeep
    rwa [if_neg hover] at hkeep
  · -- as far as the farthest of a full heap
    rw [not_or, not_lt] at hnear
    have hfull : st.W.length = ef := le_antisymm h.length hnear.1
    have hfar : ∀ p ∈ st.W, p.1 ≤ x.distTo dist q i := by
      intro p hp
      obtain ⟨top, rest, hcons⟩ := List.exists_cons_of_ne_nil (List.ne_nil_of_mem hp)
      have htop : top.1 ≤ x.distTo dist q i := by
        rcases Distance.le_total top.1 (x.distTo dist q i) with hle | hle
        · exact hle
        · by_contra hnot
          exact hnear.2 ⟨top, by rw [hcons]; rfl, lt_of_le_not_ge hle hnot⟩
      have hsorted := h.sorted
      rw [hcons, List.pairwise_cons] at hsorted
      rw [hcons] at hp
      rcases List.mem_cons.1 hp with rfl | hp
      · exact htop
      · exact (hsorted.1 p hp).trans htop
    exact
    { h with
      visited := List.nodup_cons.2 ⟨hi, h.visited⟩
      entry := List.mem_cons_of_mem i h.entry
      reaches := fun k hk => by
        rcases List.mem_cons.1 hk with rfl | hk
        · exact hreach
        · exact h.reaches k hk
      candidates := fun p hp => (h.candidates p hp).imp_left (List.mem_cons_of_mem i)
      evaluated := fun p hp => (h.evaluated p hp).imp_left (List.mem_cons_of_mem i)
      nearest := fun k hk hout => by
        rcases List.mem_cons.1 hk with rfl | hk
        · exact ⟨hfull, hfar⟩
        · exact h.nearest k hk hout
      expanded := fun k hk => (h.expanded k hk).imp_right fun hc =>
        hc.imp_right fun hj j hlink => List.mem_cons_of_mem i (hj j hlink) }

/-- So does the whole list, whose nodes are visited then. -/
theorem Searching.visits (h : x.Searching dist q ep ef lc cur st) (hef : 1 ≤ ef)
    (hl : ∀ i ∈ l, x.Reaches lc ep i) :
    x.Searching dist q ep ef lc cur (l.foldl (x.visit dist q ef) st) ∧
      (∀ i, i ∈ (l.foldl (x.visit dist q ef) st).visited ↔ i ∈ st.visited ∨ i ∈ l) ∧
      (l.foldl (x.visit dist q ef) st).candidates.length + st.visited.length ≤
        st.candidates.length + (l.foldl (x.visit dist q ef) st).visited.length := by
  induction l generalizing st with
  | nil => exact ⟨h, fun i => by simp, le_rfl⟩
  | cons j l ih =>
    obtain ⟨hinv, hvisited, hlen⟩ := ih (h.visit hef (hl j List.mem_cons_self))
      fun i hi => hl i (List.mem_cons_of_mem j hi)
    refine ⟨hinv, fun i => ?_, ?_⟩
    · rw [List.foldl_cons, hvisited, visited_visit, List.mem_cons]
      split_ifs with hj
      · constructor
        · rintro (hi | hi)
          · exact .inl hi
          · exact .inr (.inr hi)
        · rintro (hi | rfl | hi)
          · exact .inl hi
          · exact .inl hj
          · exact .inr hi
      · rw [List.mem_cons, or_assoc, or_left_comm]
    · have hstep := length_visit dist x q ef st j
      rw [List.foldl_cons]
      omega

/-- Taking a candidate off its heap: its list is walked next. -/
theorem Searching.next (h : x.Searching dist q ep ef lc none st)
    (hn : nextCandidate st = some (c, st')) :
    x.Searching dist q ep ef lc (some c) st' ∧ c ∈ st.visited ∧ st'.visited = st.visited ∧
      st'.candidates.length + 1 = st.candidates.length := by
  unfold nextCandidate at hn
  split at hn
  · cases hn
  · next d c' rest hcand =>
    split_ifs at hn
    cases hn
    have hmem : (d, c) ∈ st.candidates := hcand ▸ List.mem_cons_self
    refine ⟨?_, (h.candidates _ hmem).1, rfl, by rw [hcand]; rfl⟩
    exact
    { h with
      candidates := fun p hp => h.candidates p (hcand ▸ List.mem_cons_of_mem _ hp)
      expanded := fun i hi => by
        rcases h.expanded i hi with hc | hc | hc
        · rw [hcand, List.map_cons, List.mem_cons] at hc
          rcases hc with rfl | hc
          · exact .inr (.inl rfl)
          · exact .inl hc
        · cases hc
        · exact .inr (.inr hc) }

/-- The list of `c` has been walked. -/
theorem Searching.walked (h : x.Searching dist q ep ef lc (some c) st) (hef : 1 ≤ ef)
    (hc : c ∈ st.visited) :
    x.Searching dist q ep ef lc none ((x.links c lc).foldl (x.visit dist q ef) st) ∧
      c ∈ ((x.links c lc).foldl (x.visit dist q ef) st).visited ∧
      ((x.links c lc).foldl (x.visit dist q ef) st).candidates.length + st.visited.length ≤
        st.candidates.length + ((x.links c lc).foldl (x.visit dist q ef) st).visited.length := by
  obtain ⟨hinv, hvisited, hlen⟩ := h.visits hef (l := x.links c lc)
    fun i hi => (h.reaches c hc).tail hi
  refine ⟨{ hinv with expanded := fun i hi => ?_ }, (hvisited c).2 (.inl hc), hlen⟩
  rcases hinv.expanded i hi with hcand | hcur | hdone
  · exact .inl hcand
  · cases hcur
    exact .inr (.inr fun j hj => (hvisited j).2 (.inr hj))
  · exact .inr (.inr hdone)

/-! ### The loop -/

/-- One round of the loop. -/
theorem Searching.round (h : x.Searching dist q ep ef lc none st) (hef : 1 ≤ ef)
    (hn : nextCandidate st = some (c, st')) :
    x.Searching dist q ep ef lc none ((x.links c lc).foldl (x.visit dist q ef) st') ∧
      ((x.links c lc).foldl (x.visit dist q ef) st').candidates.length + st.visited.length + 1 ≤
        st.candidates.length + ((x.links c lc).foldl (x.visit dist q ef) st').visited.length := by
  obtain ⟨hnext, hc, hsame, hpop⟩ := h.next hn
  obtain ⟨hinv, -, hlen⟩ := hnext.walked hef (hsame ▸ hc)
  rw [hsame] at hlen
  exact ⟨hinv, by omega⟩

/-- The loop ends: every round takes off a candidate, and every candidate was visited once. -/
theorem Searching.loop {N : ℕ} (h : x.Searching dist q ep ef lc none st) (hef : 1 ≤ ef)
    (hN : ∀ i, x.Reaches lc ep i → i < N) (hn : N - st.visited.length + st.candidates.length ≤ n) :
    x.Searching dist q ep ef lc none (x.searchLoop dist q ef lc n st) ∧
      nextCandidate (x.searchLoop dist q ef lc n st) = none := by
  induction n generalizing st with
  | zero =>
    refine ⟨h, ?_⟩
    have hempty : st.candidates = [] := List.length_eq_zero_iff.1 (by omega)
    rw [searchLoop, nextCandidate, hempty]
  | succ n ih =>
    rw [searchLoop]
    cases hnext : nextCandidate st with
    | none => exact ⟨h, hnext⟩
    | some p =>
      obtain ⟨hinv, hlen⟩ := h.round hef hnext
      -- the visited nodes are all among the first `N`
      have hsub := hinv.visited.subperm
        (fun i hi => List.mem_range.2 (hN i (hinv.reaches i hi)) : _ ⊆ List.range N)
      have hbound := hsub.length_le
      rw [List.length_range] at hbound
      exact ih hinv (by omega)

/-- What the loop leaves when it ends. -/
theorem Searching.found (h : x.Searching dist q ep ef lc none st)
    (hend : nextCandidate st = none) :
    x.Found dist q ep ef lc st.visited (results st) := by
  have hlen : (results st).length = st.W.length := List.length_map ..
  refine
  { nodup := h.nodup
    length := hlen.trans_le h.length
    reaches := fun i hi => ?_
    entry := h.entry
    evaluated := fun i hi => ?_
    nearest := fun i hi hout => ?_
    complete := fun hef => ?_ }
  · obtain ⟨p, hp, rfl⟩ := List.mem_map.1 hi
    exact h.reaches _ (h.evaluated p hp).1
  · obtain ⟨p, hp, rfl⟩ := List.mem_map.1 hi
    exact (h.evaluated p hp).1
  · obtain ⟨hfull, hle⟩ := h.nearest i hi hout
    refine ⟨hlen.trans hfull, fun j hj => ?_⟩
    obtain ⟨p, hp, rfl⟩ := List.mem_map.1 hj
    exact (h.evaluated p hp).2 ▸ hle p hp
  · -- a visited node that is left out would be one too many
    have hall : ∀ i ∈ st.visited, i ∈ results st := by
      intro i hi
      by_contra hout
      have hfull := (h.nearest i hi hout).1
      have hsub : ((i :: results st).toFinset : Set InternalId) ⊆ {i | x.Reaches lc ep i} := by
        intro j hj
        rw [Finset.mem_coe, List.mem_toFinset] at hj
        rcases List.mem_cons.1 hj with rfl | hj
        · exact h.reaches j hi
        · obtain ⟨p, hp, rfl⟩ := List.mem_map.1 hj
          exact h.reaches _ (h.evaluated p hp).1
      have hcard := (Set.encard_le_encard hsub).trans hef
      rw [Set.encard_coe_eq_coe_finsetCard,
        List.toFinset_card_of_nodup (List.nodup_cons.2 ⟨hout, h.nodup⟩), List.length_cons, hlen,
        hfull] at hcard
      have := ENat.natCast_le_natCast.1 hcard
      omega
    -- so no candidate is left, and every list has been walked
    have hempty : st.candidates = [] := by
      cases hc : st.candidates with
      | nil => rfl
      | cons p rest =>
        rw [nextCandidate, hc] at hend
        dsimp only at hend
        split_ifs at hend with hbreak
        obtain ⟨w, hw, hlt⟩ := hbreak
        obtain ⟨hvis, hdist⟩ := h.candidates p (hc ▸ List.mem_cons_self)
        obtain ⟨p', hp', heq⟩ := List.mem_map.1 (hall p.2 hvis)
        obtain ⟨rest', hcons⟩ : ∃ rest', st.W = w :: rest' := by
          cases hW : st.W with
          | nil => rw [hW] at hw; cases hw
          | cons w' rest' => rw [hW] at hw; cases hw; exact ⟨_, rfl⟩
        have hle : p'.1 ≤ w.1 := by
          have hsorted := h.sorted
          rw [hcons, List.pairwise_cons] at hsorted
          rw [hcons] at hp'
          rcases List.mem_cons.1 hp' with rfl | hp'
          · exact le_rfl
          · exact hsorted.1 p' hp'
        have hsame : p'.1 = p.1 := by rw [(h.evaluated p' hp').2, heq, hdist]
        exact absurd (hsame ▸ hle) (not_le_of_gt hlt)
    have hclosed : ∀ i ∈ st.visited, ∀ j ∈ x.links i lc, j ∈ st.visited := by
      intro i hi
      rcases h.expanded i (hall i hi) with hc | hc | hc
      · rw [hempty] at hc
        cases hc
      · cases hc
      · exact hc
    refine fun i => ⟨fun hi => ?_, fun hi => hall i ?_⟩
    · obtain ⟨p, hp, rfl⟩ := List.mem_map.1 hi
      exact h.reaches _ (h.evaluated p hp).1
    · induction hi with
      | refl => exact h.entry
      | tail _ hlink ih => exact hclosed _ ih _ hlink

/-- Lists that hold nodes lead to nodes. -/
theorem Reaches.lt_count (hep : ep < x.count)
    (hlinks : ∀ i < x.count, ∀ j ∈ x.links i lc, j < x.count) (h : x.Reaches lc ep i) :
    i < x.count := by
  induction h with
  | refl => exact hep
  | tail _ hlink ih => exact hlinks _ ih _ hlink

/-- The invariant at the end of the loop. -/
theorem searching_end (dist : ε → ε → δ) (q : ε) (hef : 1 ≤ ef) (hep : ep < x.count)
    (hlinks : ∀ i < x.count, ∀ j ∈ x.links i lc, j < x.count) :
    x.Searching dist q ep ef lc none (x.searchEnd dist q ep ef lc) ∧
      nextCandidate (x.searchEnd dist q ep ef lc) = none :=
  (searching_start hef).loop hef (fun _ hi => hi.lt_count hep hlinks) (by
    change x.count - 1 + 1 ≤ x.count + 1
    omega)

/-- **A search on one layer** of any graph comes to an end, and this is what it has found. -/
theorem searchLayer_found (dist : ε → ε → δ) (x : HNSWIndex ε) (q : ε) (ep : InternalId)
    (ef lc : ℕ) (hef : 1 ≤ ef) (hep : ep < x.count)
    (hlinks : ∀ i < x.count, ∀ j ∈ x.links i lc, j < x.count) :
    nextCandidate (x.searchEnd dist q ep ef lc) = none ∧
      x.Found dist q ep ef lc (x.searchEnd dist q ep ef lc).visited
        (x.searchLayer dist q ep ef lc) := by
  obtain ⟨hinv, hend⟩ := searching_end dist q hef hep hlinks
  exact ⟨hend, hinv.found hend⟩

/-- Three nodes on a line, linked in a ring. -/
def ring : HNSWIndex ℕ :=
  { config := {}, nodes := fun i => ⟨i, [[(i + 1) % 3]]⟩, count := 3, entryPoint := 0,
    maxLayer := 0 }

/-- Two of them: the third is as far as the farther one. -/
theorem searchLayer_found_ring : nextCandidate (ring.searchEnd System.lineDist 1 0 2 0) = none ∧
    ring.Found System.lineDist 1 0 2 0 [2, 1, 0] [0, 1] :=
  searchLayer_found System.lineDist ring 1 0 2 0 (by decide) (by decide) (by decide)

end HNSWIndex

end Hnsw

end Vdb
