import Vdb.Hnsw.Basic
import Vdb.Lib.Run

/-!
# Concurrent links

A `System` is an index with the calls of `link` started on it; an `Action` allocates a node, starts
a call or runs one section of a call.  `System.Valid` says that every id a list or a call holds on
a layer is a node of that layer, so no section reads or writes outside a node's lists.

* `System.backLinks_kept` : if a node's own list on a layer is empty whenever the node sets it, no
  back-link is lost: once added, it stays until a prune of the same list drops it.
* `System.overwritten` : without that, a node's own assignment discards a back-link.  The node has
  become visible on an upper layer and been found from there.
-/

namespace Vdb

namespace Hnsw

/-- A call of `link`, running or finished. -/
structure Call (δ : Type*) where
  id : InternalId
  pc : Pc δ

/-- The list the next section adds a back-link to. -/
def Pc.backLinkTo {δ : Type*} : Pc δ → Option (InternalId × ℕ)
  | .backLink _ lc _ _ e _ => some (e, lc)
  | _ => none

/-- The layer on which the next section sets the node's own list. -/
def Pc.assignsLayer {δ : Type*} : Pc δ → Option ℕ
  | .assign _ lc _ _ _ => some lc
  | _ => none

structure System (ε δ : Type*) where
  index : HNSWIndex ε
  calls : List (Call δ)

inductive Action (ε : Type*) where
  /-- A node with this vector and level is allocated. -/
  | allocate (vec : ε) (l : ℕ)
  /-- A thread starts to link a node, if it is allocated and no thread has. -/
  | link (id : InternalId)
  /-- The `i`-th call runs its next section. -/
  | run (i : ℕ)

variable {ε δ : Type*} [Distance δ] (dist : ε → ε → δ)

namespace System

/-- The empty index, and no calls. -/
def new [Inhabited ε] (config : HNSWConfig) : System ε δ := ⟨.new config, []⟩

def act (s : System ε δ) : Action ε → System ε δ
  | .allocate vec l =>
    match s.index.allocate vec l with
    | none => s
    | some index => { s with index }
  | .link id =>
    if id < s.index.count ∧ ∀ c ∈ s.calls, c.id ≠ id then
      { s with calls := s.calls ++ [⟨id, .start⟩] }
    else s
  | .run i =>
    match s.calls[i]? with
    | none => s
    | some c =>
      let (index, pc) := s.index.runSection dist c.id c.pc
      { index, calls := s.calls.set i ⟨c.id, pc⟩ }

/-- The system after the actions in this order. -/
def exec (s : System ε δ) (acts : List (Action ε)) : System ε δ := acts.foldl (act dist) s

/-- The action adds the back-link to `b` to the list of `a` on layer `lc`. -/
def Appends (s : System ε δ) (a : InternalId) (lc : ℕ) (b : InternalId) : Action ε → Prop
  | .run i => ∃ c ∈ s.calls[i]?, c.id = b ∧ c.pc.backLinkTo = some (a, lc)
  | _ => False

/-- The action adds a back-link to the list of `a` on layer `lc`, and the prune that follows drops
`b` from it. -/
def Prunes (s : System ε δ) (a : InternalId) (lc : ℕ) (b : InternalId) : Action ε → Prop
  | .run i => ∃ c ∈ s.calls[i]?, c.pc.backLinkTo = some (a, lc) ∧
      b ∈ s.index.links a lc ++ [c.id] ∧ s.index.mMax lc < (s.index.links a lc ++ [c.id]).length ∧
      b ∉ s.index.selectNeighbors dist (s.index.vec a) (s.index.links a lc ++ [c.id])
        (s.index.mMax lc)
  | _ => False

/-- A node that is about to set its own list finds it empty. -/
def OwnListEmpty (s : System ε δ) : Action ε → Prop
  | .run i => ∀ c ∈ s.calls[i]?, ∀ lc ∈ c.pc.assignsLayer, s.index.links c.id lc = []
  | _ => True

instance (s : System ε δ) (a : InternalId) (lc : ℕ) (b : InternalId) :
    DecidablePred (s.Appends a lc b)
  | .run i =>
    inferInstanceAs (Decidable (∃ c ∈ s.calls[i]?, c.id = b ∧ c.pc.backLinkTo = some (a, lc)))
  | .allocate _ _ => .isFalse id
  | .link _ => .isFalse id

instance (s : System ε δ) (a : InternalId) (lc : ℕ) (b : InternalId) :
    DecidablePred (s.Prunes dist a lc b)
  | .run i => inferInstanceAs (Decidable (∃ c ∈ s.calls[i]?, c.pc.backLinkTo = some (a, lc) ∧
      b ∈ s.index.links a lc ++ [c.id] ∧ s.index.mMax lc < (s.index.links a lc ++ [c.id]).length ∧
      b ∉ s.index.selectNeighbors dist (s.index.vec a) (s.index.links a lc ++ [c.id])
        (s.index.mMax lc)))
  | .allocate _ _ => .isFalse id
  | .link _ => .isFalse id

instance (s : System ε δ) : DecidablePred s.OwnListEmpty
  | .run i => inferInstanceAs (Decidable
      (∀ c ∈ s.calls[i]?, ∀ lc ∈ c.pc.assignsLayer, s.index.links c.id lc = []))
  | .allocate _ _ => .isTrue trivial
  | .link _ => .isTrue trivial

end System

/-! ### Nothing is read or written outside the lists -/

namespace HNSWIndex

variable {x y : HNSWIndex ε} {i j id : InternalId} {lc L : ℕ} {l W : List InternalId}
  {ep : InternalId}
  {q : ε} {st : SearchState δ}

/-- The node `i` has a list on layer `lc`. -/
def HasLayer (x : HNSWIndex ε) (lc : ℕ) (i : InternalId) : Prop :=
  i < x.count ∧ lc < (x.nodes i).neighbours.length

/-- Every id in a list on a layer is a node of that layer, and so is the entry point. -/
structure Valid (x : HNSWIndex ε) : Prop where
  junk : ∀ i, x.count ≤ i → (x.nodes i).neighbours = []
  level : ∀ i < x.count, 0 < (x.nodes i).neighbours.length
  links : ∀ i lc, ∀ j ∈ x.links i lc, x.HasLayer lc j
  entry : 0 ≤ x.maxLayer → x.HasLayer x.maxLayer.toNat x.entryPoint

/-- Nodes keep their layers. -/
def Grows (x y : HNSWIndex ε) : Prop := ∀ lc i, x.HasLayer lc i → y.HasLayer lc i

theorem HasLayer.le (h : x.HasLayer lc i) {k : ℕ} (hk : k ≤ lc) : x.HasLayer k i :=
  ⟨h.1, hk.trans_lt h.2⟩

theorem valid_new [Inhabited ε] (config : HNSWConfig) : (new config : HNSWIndex ε).Valid where
  junk _ _ := rfl
  level i hi := absurd hi (Nat.not_lt_zero i)
  links i lc j hj := by simp [HNSWIndex.links, new] at hj
  entry h := absurd h (by simp [new])

theorem HasLayer.self (hx : x.Valid) (hi : i < x.count) (hl : lc ≤ x.level i) :
    x.HasLayer lc i := by
  have := hx.level i hi
  refine ⟨hi, ?_⟩
  unfold HNSWIndex.level at hl
  omega

theorem setLinks_neighbours (k : InternalId) : ((x.setLinks i lc l).nodes k).neighbours =
    if k = i then (x.nodes i).neighbours.set lc l else (x.nodes k).neighbours := by
  simp only [setLinks, Function.update_apply]
  split_ifs <;> rfl

theorem hasLayer_setLinks {k : ℕ} : (x.setLinks i lc l).HasLayer k j ↔ x.HasLayer k j := by
  unfold HasLayer
  rw [setLinks_neighbours]
  split_ifs with h
  · rw [List.length_set, h]
    rfl
  · rfl

theorem links_setLinks {k : ℕ} : (x.setLinks i lc l).links j k =
    if j = i ∧ k = lc ∧ lc < (x.nodes i).neighbours.length then l else x.links j k := by
  unfold links
  rw [setLinks_neighbours]
  by_cases hj : j = i
  · rw [if_pos hj, List.getD_eq_getElem?_getD, List.getElem?_set]
    by_cases hk : lc = k
    · subst hk
      by_cases hlt : lc < (x.nodes i).neighbours.length
      · simp [hj, hlt]
      · simp [hj, hlt]
    · rw [if_neg hk, if_neg (by tauto), hj, List.getD_eq_getElem?_getD]
  · rw [if_neg hj, if_neg (by tauto)]

theorem Valid.setLinks (hx : x.Valid) (hl : ∀ j ∈ l, x.HasLayer lc j) :
    (x.setLinks i lc l).Valid where
  junk k hk := by
    rw [setLinks_neighbours]
    split_ifs with h
    · rw [hx.junk i (h ▸ hk), List.set_nil]
    · exact hx.junk k hk
  level k hk := by
    rw [setLinks_neighbours]
    split_ifs with h
    · rw [List.length_set]
      exact hx.level i (h ▸ hk)
    · exact hx.level k hk
  links k m j hj := by
    rw [links_setLinks] at hj
    rw [hasLayer_setLinks]
    split_ifs at hj with h
    · exact h.2.1 ▸ hl j hj
    · exact hx.links k m j hj
  entry h := hasLayer_setLinks.2 (hx.entry h)

theorem Valid.allocate (hx : x.Valid) {vec : ε} (h : x.allocate vec L = some y) :
    y.Valid ∧ x.Grows y := by
  unfold HNSWIndex.allocate at h
  split_ifs at h
  cases h
  have hold : ∀ i < x.count, i ≠ x.count := fun i hi => hi.ne
  have hgrows : x.Grows { x with
      nodes := Function.update x.nodes x.count ⟨vec, List.replicate (L + 1) []⟩
      count := x.count + 1 } := by
    rintro lc i ⟨hi, hlt⟩
    refine ⟨Nat.lt_succ_of_lt hi, ?_⟩
    dsimp only
    rwa [Function.update_of_ne (hold i hi)]
  refine ⟨⟨fun i hi => ?_, fun i hi => ?_, fun i lc j hj => ?_, fun h => hgrows _ _ (hx.entry h)⟩,
    hgrows⟩
  · dsimp only at hi ⊢
    rw [Function.update_of_ne (show i ≠ x.count by omega)]
    exact hx.junk i (by omega)
  · dsimp only at hi ⊢
    by_cases he : i = x.count
    · rw [he, Function.update_self]
      simp
    · rw [Function.update_of_ne he]
      exact hx.level i (by omega)
  · refine hgrows _ _ (hx.links i lc j ?_)
    unfold HNSWIndex.links at hj ⊢
    dsimp only at hj
    by_cases he : i = x.count
    · rw [he, Function.update_self] at hj
      simp [List.getD_eq_getElem?_getD, List.getElem?_replicate] at hj
      split_ifs at hj <;> simp at hj
    · rwa [Function.update_of_ne he] at hj

/-! ### The parts of a section -/

theorem closest_mem (q : ε) (ep : InternalId) (W : List InternalId) :
    x.closest dist q ep W = ep ∨ x.closest dist q ep W ∈ W := by
  cases W with
  | nil => exact .inl rfl
  | cons c cands =>
    refine .inr ?_
    rw [closest]
    induction cands generalizing c with
    | nil => exact List.mem_singleton_self c
    | cons d cands ih =>
      rw [List.foldl_cons]
      split_ifs
      · exact List.mem_cons_of_mem c (ih d)
      · rcases List.mem_cons.1 (ih c) with h | h
        · rw [h]
          exact List.mem_cons_self
        · exact List.mem_cons_of_mem _ (List.mem_cons_of_mem _ h)

theorem selectRound_mem (q : ε) (M : ℕ) (s : List InternalId × List InternalId) (e : InternalId) :
    ∀ i, i ∈ (x.selectRound dist q M s e).1 ∨ i ∈ (x.selectRound dist q M s e).2 →
      i ∈ s.1 ∨ i ∈ s.2 ∨ i = e := by
  intro i hi
  unfold selectRound at hi
  split_ifs at hi
  · tauto
  · simp only [List.mem_append, List.mem_singleton] at hi
    tauto
  · simp only [List.mem_append, List.mem_singleton] at hi
    tauto

theorem selectNeighbors_subset (q : ε) (cands : List InternalId) (M : ℕ) :
    x.selectNeighbors dist q cands M ⊆ cands := by
  intro i hi
  unfold selectNeighbors at hi
  split_ifs at hi
  · exact hi
  · have hfold : ∀ (l : List InternalId) (s : List InternalId × List InternalId),
        i ∈ (l.foldl (x.selectRound dist q M) s).1 ∨ i ∈ (l.foldl (x.selectRound dist q M) s).2 →
        i ∈ s.1 ∨ i ∈ s.2 ∨ i ∈ l := by
      intro l
      induction l with
      | nil => intro s h; exact h.imp_right .inl
      | cons e l ih =>
        intro s h
        rcases ih _ h with h | h | h
        · rcases selectRound_mem dist q M s e i (.inl h) with h | h | h <;> simp [h]
        · rcases selectRound_mem dist q M s e i (.inr h) with h | h | h <;> simp [h]
        · simp [h]
    have := hfold _ ([], []) ((List.mem_append.1 hi).imp_right List.mem_of_mem_take)
    simpa using this

theorem withBackLink_subset (id : InternalId) (lc : ℕ) (e : InternalId) :
    x.withBackLink dist id lc e ⊆ x.links e lc ++ [id] := by
  unfold withBackLink
  dsimp only
  split_ifs
  · exact selectNeighbors_subset dist _ _ _
  · exact fun _ h => h

/-- An id that is not in the list after a back-link has been added was dropped by the prune. -/
theorem mem_withBackLink {b e : InternalId} (h : b ∈ x.links e lc ++ [id])
    (hb : b ∉ x.withBackLink dist id lc e) : x.mMax lc < (x.links e lc ++ [id]).length ∧
      b ∉ x.selectNeighbors dist (x.vec e) (x.links e lc ++ [id]) (x.mMax lc) := by
  unfold withBackLink at hb
  dsimp only at hb
  split_ifs at hb with hover
  · exact ⟨hover, hb⟩
  · exact absurd h hb

omit [Distance δ] in
theorem mem_push {before : δ × InternalId → δ × InternalId → Bool} {a b : δ × InternalId}
    {h : List (δ × InternalId)} : b ∈ push before a h ↔ b = a ∨ b ∈ h := by
  induction h with
  | nil => simp [push]
  | cons c h ih =>
    rw [push]
    split_ifs
    · simp
    · simp only [List.mem_cons, ih]
      tauto

/-- The heaps of a search hold nodes of its layer. -/
def SearchOk (x : HNSWIndex ε) (lc : ℕ) (st : SearchState δ) : Prop :=
  (∀ p ∈ st.candidates, x.HasLayer lc p.2) ∧ ∀ p ∈ st.W, x.HasLayer lc p.2

theorem SearchOk.visit {ef : ℕ} (h : x.SearchOk lc st) (hi : x.HasLayer lc i) :
    x.SearchOk lc (x.visit dist q ef st i) := by
  unfold HNSWIndex.visit
  dsimp only
  split_ifs with h1 h2 h3
  · exact h
  · refine ⟨fun p hp => ?_, fun p hp => ?_⟩
    · rcases mem_push.1 hp with rfl | hp
      · exact hi
      · exact h.1 p hp
    · rcases mem_push.1 (List.mem_of_mem_tail hp) with rfl | hp
      · exact hi
      · exact h.2 p hp
  · refine ⟨fun p hp => ?_, fun p hp => ?_⟩
    · rcases mem_push.1 hp with rfl | hp
      · exact hi
      · exact h.1 p hp
    · rcases mem_push.1 hp with rfl | hp
      · exact hi
      · exact h.2 p hp
  · exact h

theorem SearchOk.visits {ef : ℕ} (h : x.SearchOk lc st) (hl : ∀ i ∈ l, x.HasLayer lc i) :
    x.SearchOk lc (l.foldl (x.visit dist q ef) st) := by
  induction l generalizing st with
  | nil => exact h
  | cons i l ih =>
    exact ih (h.visit dist (hl i List.mem_cons_self)) fun j hj => hl j (List.mem_cons_of_mem i hj)

theorem SearchOk.next {c : InternalId} {st' : SearchState δ} (h : x.SearchOk lc st)
    (hn : nextCandidate st = some (c, st')) : x.HasLayer lc c ∧ x.SearchOk lc st' := by
  unfold nextCandidate at hn
  split at hn
  · cases hn
  · rename_i dc c' rest hc
    split_ifs at hn
    cases hn
    exact ⟨h.1 (dc, c) (by rw [hc]; exact List.mem_cons_self),
      fun p hp => h.1 p (by rw [hc]; exact List.mem_cons_of_mem _ hp), h.2⟩

omit [Distance δ] in
theorem SearchOk.results (h : x.SearchOk lc st) : ∀ i ∈ results st, x.HasLayer lc i := by
  intro i hi
  obtain ⟨p, hp, rfl⟩ := List.mem_map.1 hi
  exact h.2 p hp

end HNSWIndex

/-! ### Calls -/

open HNSWIndex

variable {x y : HNSWIndex ε} {id ep : InternalId} {L lc : ℕ} {W l : List InternalId}
  {s : System ε δ} {a b : InternalId} {action : Action ε}

/-- What a call holds are nodes of the layer it works on. -/
def Pc.Valid (x : HNSWIndex ε) (id : InternalId) : Pc δ → Prop
  | .search _ lc ep cur st => x.HasLayer lc ep ∧ x.HasLayer lc cur ∧ x.SearchOk lc st
  | .assign _ lc ep W neighbours => x.HasLayer lc id ∧ x.HasLayer lc ep ∧
      (∀ i ∈ W, x.HasLayer lc i) ∧ ∀ i ∈ neighbours, x.HasLayer lc i
  | .backLink _ lc ep W e rest => x.HasLayer lc id ∧ x.HasLayer lc ep ∧
      (∀ i ∈ W, x.HasLayer lc i) ∧ x.HasLayer lc e ∧ ∀ i ∈ rest, x.HasLayer lc i
  | _ => True

omit [Distance δ] in
theorem Pc.Valid.mono {pc : Pc δ} (h : pc.Valid x id) (hg : x.Grows y) : pc.Valid y id := by
  cases pc with
  | search L lc ep cur st =>
    exact ⟨hg _ _ h.1, hg _ _ h.2.1, fun p hp => hg _ _ (h.2.2.1 p hp),
      fun p hp => hg _ _ (h.2.2.2 p hp)⟩
  | assign L lc ep W neighbours =>
    exact ⟨hg _ _ h.1, hg _ _ h.2.1, fun i hi => hg _ _ (h.2.2.1 i hi),
      fun i hi => hg _ _ (h.2.2.2 i hi)⟩
  | backLink L lc ep W e rest =>
    exact ⟨hg _ _ h.1, hg _ _ h.2.1, fun i hi => hg _ _ (h.2.2.1 i hi), hg _ _ h.2.2.2.1,
      fun i hi => hg _ _ (h.2.2.2.2 i hi)⟩
  | _ => trivial

omit [Distance δ] in
theorem enterLayer_valid (h : x.HasLayer lc ep) : (x.enterLayer dist id L lc ep).Valid x id := by
  refine ⟨h, h, ?_, ?_⟩
  · rintro p ⟨⟩
  · intro p hp
    rw [List.mem_singleton.1 hp]
    exact h

omit [Distance δ] in
theorem leaveLayer_valid (h : x.HasLayer lc ep) : (x.leaveLayer dist id L lc ep).Valid x id := by
  cases lc with
  | zero =>
    rw [leaveLayer]
    split_ifs <;> trivial
  | succ lc => exact enterLayer_valid dist (h.le (Nat.le_succ lc))

theorem closest_valid (h : x.HasLayer lc ep) (hW : ∀ i ∈ W, x.HasLayer lc i) (q : ε) :
    x.HasLayer lc (x.closest dist q ep W) := by
  rcases closest_mem dist q ep W with he | hm
  · rwa [he]
  · exact hW _ hm

theorem linkBack_valid (hid : x.HasLayer lc id) (h : x.HasLayer lc ep)
    (hW : ∀ i ∈ W, x.HasLayer lc i) (hl : ∀ i ∈ l, x.HasLayer lc i) :
    (x.linkBack dist id L lc ep W l).Valid x id := by
  cases l with
  | nil => exact leaveLayer_valid dist (closest_valid dist h hW _)
  | cons e rest =>
    exact ⟨hid, h, hW, hl e List.mem_cons_self, fun i hi => hl i (List.mem_cons_of_mem e hi)⟩

theorem leaveSearch_valid (hx : x.Valid) (hid : id < x.count) (h : x.HasLayer lc ep)
    (hW : ∀ i ∈ W, x.HasLayer lc i) : (x.leaveSearch dist id L lc ep W).Valid x id := by
  unfold leaveSearch
  split_ifs with hl
  · exact leaveLayer_valid dist (closest_valid dist h hW _)
  · exact ⟨.self hx hid (Nat.le_of_not_lt hl), h, hW,
      fun i hi => hW i (selectNeighbors_subset dist _ _ _ hi)⟩

theorem searchSection_valid {cur : InternalId} {st : SearchState δ} (hx : x.Valid)
    (hid : id < x.count) (h : (Pc.search L lc ep cur st).Valid x id) :
    (x.searchSection dist id L lc ep cur st).Valid x id := by
  have hst : x.SearchOk lc ((x.links cur lc).foldl
      (x.visit dist (x.vec id) (if x.level id < lc then 1 else x.config.ef)) st) :=
    h.2.2.visits dist (hx.links cur lc)
  unfold searchSection
  dsimp only
  split
  · exact leaveSearch_valid dist hx hid h.1 hst.results
  · rename_i c st' hn
    obtain ⟨hc, hst'⟩ := hst.next hn
    exact ⟨h.1, hc, hst'⟩

/-- A section keeps the index valid, and what its call holds. -/
theorem runSection_valid {pc : Pc δ} (hx : x.Valid) (hid : id < x.count) (h : pc.Valid x id) :
    (x.runSection dist id pc).1.Valid ∧ x.Grows (x.runSection dist id pc).1 ∧
      (x.runSection dist id pc).2.Valid (x.runSection dist id pc).1 id := by
  have hset : ∀ {i lc} {l : List InternalId}, x.Grows (x.setLinks i lc l) :=
    fun lc i h => hasLayer_setLinks.2 h
  have hself : x.HasLayer (Int.toNat (x.level id)) id := .self hx hid (Int.toNat_natCast _).le
  cases pc with
  | start =>
    rw [runSection]
    split_ifs with hm
    · exact ⟨⟨hx.junk, hx.level, hx.links, fun _ => hself⟩, fun _ _ h => h, trivial⟩
    · exact ⟨hx, fun _ _ h => h, enterLayer_valid dist (hx.entry (not_lt.1 hm))⟩
  | search L lc ep cur st => exact ⟨hx, fun _ _ h => h, searchSection_valid dist hx hid h⟩
  | assign L lc ep W neighbours =>
    obtain ⟨h1, h2, h3, h4⟩ := h
    exact ⟨hx.setLinks h4, hset, (linkBack_valid dist h1 h2 h3 h4).mono hset⟩
  | backLink L lc ep W e rest =>
    obtain ⟨h1, h2, h3, -, h5⟩ := h
    refine ⟨hx.setLinks fun j hj => ?_, hset, (linkBack_valid dist h1 h2 h3 h5).mono hset⟩
    rcases List.mem_append.1 (withBackLink_subset dist id lc e hj) with hj | hj
    · exact hx.links e lc j hj
    · rwa [List.mem_singleton.1 hj]
  | promote =>
    rw [runSection]
    split_ifs
    · exact ⟨⟨hx.junk, hx.level, hx.links, fun _ => hself⟩, fun _ _ h => h, trivial⟩
    · exact ⟨hx, fun _ _ h => h, trivial⟩
  | done => exact ⟨hx, fun _ _ h => h, trivial⟩

namespace System

/-- The index is valid, and so is every call. -/
structure Valid (s : System ε δ) : Prop where
  index : s.index.Valid
  ids : ∀ c ∈ s.calls, c.id < s.index.count
  calls : ∀ c ∈ s.calls, c.pc.Valid s.index c.id

omit [Distance δ] in
theorem valid_new [Inhabited ε] (config : HNSWConfig) : (new config : System ε δ).Valid :=
  ⟨HNSWIndex.valid_new config, by rintro c ⟨⟩, by rintro c ⟨⟩⟩

theorem act_run {i : ℕ} {c : Call δ} (hc : s.calls[i]? = some c) : s.act dist (.run i) =
    ⟨(s.index.runSection dist c.id c.pc).1,
      s.calls.set i ⟨c.id, (s.index.runSection dist c.id c.pc).2⟩⟩ := by
  simp [act, hc]

theorem count_runSection (x : HNSWIndex ε) (id : InternalId) (pc : Pc δ) :
    (x.runSection dist id pc).1.count = x.count := by
  cases pc <;> simp only [runSection] <;> (try split_ifs) <;> rfl

/-- Every action keeps the system valid. -/
theorem Valid.act (h : s.Valid) (action : Action ε) : (s.act dist action).Valid := by
  cases action with
  | allocate vec l =>
    rw [System.act]
    cases hal : s.index.allocate vec l with
    | none => exact h
    | some index =>
      obtain ⟨hx, hg⟩ := h.index.allocate hal
      refine ⟨hx, fun c hc => ?_, fun c hc => (h.calls c hc).mono hg⟩
      exact (hg 0 c.id ⟨h.ids c hc, h.index.level _ (h.ids c hc)⟩).1
  | link id =>
    rw [System.act]
    split_ifs with hid
    · refine ⟨h.index, fun c hc => ?_, fun c hc => ?_⟩
      · rcases List.mem_append.1 hc with hc | hc
        · exact h.ids c hc
        · rw [List.mem_singleton.1 hc]
          exact hid.1
      · rcases List.mem_append.1 hc with hc | hc
        · exact h.calls c hc
        · rw [List.mem_singleton.1 hc]
          trivial
    · exact h
  | run i =>
    cases hc : s.calls[i]? with
    | none => simpa [System.act, hc] using h
    | some c =>
      have hmem := List.mem_of_getElem? hc
      obtain ⟨hx, hg, hpc⟩ := runSection_valid dist h.index (h.ids c hmem) (h.calls c hmem)
      rw [act_run dist hc]
      refine ⟨hx, fun d hd => ?_, fun d hd => ?_⟩
      · dsimp only
        rw [count_runSection]
        rcases List.mem_or_eq_of_mem_set hd with hd | rfl
        · exact h.ids d hd
        · exact h.ids c hmem
      · rcases List.mem_or_eq_of_mem_set hd with hd | rfl
        · exact (h.calls d hd).mono hg
        · exact hpc

/-- What one action may do to a list, when nodes set their own lists only while these are empty. -/
theorem act_keeps (h : s.Valid) (hown : s.OwnListEmpty action) (hb : b ∈ s.index.links a lc) :
    b ∈ (s.act dist action).index.links a lc ∨ s.Prunes dist a lc b action := by
  cases action with
  | allocate vec l =>
    refine .inl ?_
    rw [act]
    cases hal : s.index.allocate vec l with
    | none => exact hb
    | some index =>
      have ha : a ≠ s.index.count := by
        rintro rfl
        rw [HNSWIndex.links, h.index.junk _ le_rfl] at hb
        cases hb
      unfold allocate at hal
      split_ifs at hal
      cases hal
      rw [HNSWIndex.links] at hb ⊢
      dsimp only
      rwa [Function.update_of_ne ha]
  | link id =>
    refine .inl ?_
    rw [act]
    split_ifs <;> exact hb
  | run i =>
    cases hc : s.calls[i]? with
    | none => exact .inl (by simpa [act, hc] using hb)
    | some c =>
      rw [act_run dist hc]
      obtain ⟨id, pc⟩ := c
      cases pc with
      | start =>
        rw [runSection]
        split_ifs <;> exact .inl hb
      | search L m ep cur st => exact .inl hb
      | assign L m ep W neighbours =>
        refine .inl ?_
        have hempty : s.index.links id m = [] := hown _ hc m rfl
        rw [runSection]
        dsimp only
        rw [links_setLinks]
        split_ifs with he
        · rw [he.1, he.2.1, hempty] at hb
          cases hb
        · exact hb
      | backLink L m ep W e rest =>
        rw [runSection]
        dsimp only
        rw [links_setLinks]
        split_ifs with he
        · obtain ⟨rfl, rfl, -⟩ := he
          have hb' : b ∈ s.index.links a lc ++ [id] := List.mem_append_left _ hb
          by_cases hkept : b ∈ s.index.withBackLink dist id lc a
          · exact .inl hkept
          · exact .inr ⟨_, hc, rfl, hb', mem_withBackLink dist hb' hkept⟩
        · exact .inl hb
      | promote =>
        rw [runSection]
        split_ifs <;> exact .inl hb
      | done => exact .inl hb

/-- A back-link is in the list right after it has been added, or dropped by the prune that
follows. -/
theorem act_appends (h : s.Valid) (happ : s.Appends a lc b action) :
    b ∈ (s.act dist action).index.links a lc ∨ s.Prunes dist a lc b action := by
  cases action with
  | allocate vec l => exact happ.elim
  | link id => exact happ.elim
  | run i =>
    obtain ⟨⟨id, pc⟩, hc, rfl, hto⟩ := happ
    have hc' : s.calls[i]? = some ⟨id, pc⟩ := hc
    have hval := h.calls _ (List.mem_of_getElem? hc')
    rw [act_run dist hc']
    cases pc with
    | backLink L m ep W e rest =>
      cases hto
      have hlayer : lc < (s.index.nodes a).neighbours.length := hval.2.2.2.1.2
      rw [runSection]
      dsimp only
      rw [links_setLinks, if_pos ⟨rfl, rfl, hlayer⟩]
      have hb : id ∈ s.index.links a lc ++ [id] := by simp
      by_cases hkept : id ∈ s.index.withBackLink dist id lc a
      · exact .inl hkept
      · exact .inr ⟨_, hc, rfl, hb, mem_withBackLink dist hb hkept⟩
    | _ => cases hto

theorem Valid.exec (h : s.Valid) (acts : List (Action ε)) : (s.exec dist acts).Valid :=
  Run.invariant (fun _ a h => h.act dist a) h acts

/-- What is in a list stays in it, until a prune drops it. -/
theorem exec_keeps (h : s.Valid) {acts : List (Action ε)}
    (hown : Run.Along (act dist) OwnListEmpty s acts) (hb : b ∈ s.index.links a lc) :
    b ∈ (s.exec dist acts).index.links a lc ∨
      Run.Meets (act dist) (fun s y => s.Prunes dist a lc b y) s acts := by
  have hrun := Run.Along.keeps_or_meets (K := fun s => s.Valid ∧ b ∈ s.index.links a lc)
    (E := fun s y => s.Prunes dist a lc b y) (fun s y hempty hs => ?_) ⟨h, hb⟩ hown
  · exact hrun.imp_left And.right
  · exact (act_keeps dist hs.1 hempty hs.2).imp_left fun hb' => ⟨hs.1.act dist y, hb'⟩

/-- **Back-links are kept.**  In a run from the empty index let `b` be added to the list of `a` on
layer `lc`.  If from then on every node that sets its own list finds it empty, then `b` stays in
that list, unless a prune of the same list drops it. -/
theorem backLinks_kept [Inhabited ε] (config : HNSWConfig) (before after : List (Action ε))
    (x : Action ε) (a : InternalId) (lc : ℕ) (b : InternalId)
    (happ : ((new config : System ε δ).exec dist before).Appends a lc b x)
    (hown : Run.Along (act dist) OwnListEmpty ((new config : System ε δ).exec dist before)
      (x :: after)) :
    b ∈ (((new config : System ε δ).exec dist before).exec dist (x :: after)).index.links a lc ∨
      Run.Meets (act dist) (fun s y => s.Prunes dist a lc b y)
        ((new config : System ε δ).exec dist before) (x :: after) := by
  have hval : ((new config : System ε δ).exec dist before).Valid := (valid_new config).exec dist _
  rcases act_appends dist hval happ with hb | hp
  · exact (exec_keeps dist (hval.act dist x) hown.2 hb).imp_right .inr
  · exact .inr (.inl hp)

/-- Vectors on a line. -/
def lineDist (a b : ℕ) : ℕ := (a - b) + (b - a)

/-- The link of `1` ends before that of `2` starts; the latter is about to add itself to the list
of `1`. -/
def wholeLinks : List (Action ℕ) :=
  [.allocate 0 1, .allocate 10 1, .allocate 11 0, .link 0, .run 0, .link 1] ++
    List.replicate 8 (.run 1) ++ [.link 2] ++ List.replicate 7 (.run 2)

/-- A fourth node, linked after that. -/
def fourthLink : List (Action ℕ) := [.allocate 12 0, .link 3] ++ List.replicate 12 (.run 3)

theorem wholeLinks_kept :
    2 ∈ (((new {} : System ℕ ℕ).exec lineDist wholeLinks).exec lineDist
      (.run 2 :: fourthLink)).index.links 1 0 ∨
      Run.Meets (act lineDist) (fun s y => s.Prunes lineDist 1 0 2 y)
        ((new {} : System ℕ ℕ).exec lineDist wholeLinks) (.run 2 :: fourthLink) :=
  backLinks_kept lineDist {} wholeLinks fourthLink (.run 2) 1 0 2 (by decide +kernel)
    (by decide +kernel)

/-- Nodes `0` and `1` reach layer `1`, node `2` only layer `0`.  The link of `1` has wired layer
`1` and is searching layer `0`; there the link of `2`, led to `1` from above, is about to add
itself to the list of `1`. -/
def beforeOverwrite : List (Action ℕ) :=
  [.allocate 0 1, .allocate 10 1, .allocate 11 0, .link 0, .run 0, .link 1] ++
    List.replicate 4 (.run 1) ++ [.link 2] ++ List.replicate 5 (.run 2)

/-- Node `1` sets its own list on layer `0` after node `2` has been added to it: the back-link is
gone, and no list was ever pruned. -/
theorem overwritten : ∃ s, s = (new {} : System ℕ ℕ).exec lineDist beforeOverwrite ∧
    s.Appends 1 0 2 (.run 2) ∧ 2 ∈ (s.act lineDist (.run 2)).index.links 1 0 ∧
    2 ∉ (s.exec lineDist (.run 2 :: List.replicate 4 (.run 1))).index.links 1 0 ∧
    ¬ Run.Meets (act lineDist) (fun s y => s.Prunes lineDist 1 0 2 y) s
      (.run 2 :: List.replicate 4 (.run 1)) :=
  ⟨_, rfl, by decide +kernel, by decide +kernel, by decide +kernel, by decide +kernel⟩

end System

end Hnsw

end Vdb
