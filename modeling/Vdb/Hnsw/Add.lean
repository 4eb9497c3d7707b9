import Vdb.Hnsw.Link

/-!
# Adding one node after the other

What holds of the graph after every `add`, whatever levels are drawn, whatever the distances are.

* `Sound` : the entry point is one of the tallest nodes, the lists hold other nodes of their layer,
  each once and not too many, and every node but the first has a neighbour.
* `Linking` : the same while a node is being linked, on the layers that are done.
* `addAll_sound` : every run of adds is sound, and no section of a link leaves the lists.
-/

namespace Vdb

namespace Hnsw

/-- No parameter is zero. -/
structure HNSWConfig.Positive (config : HNSWConfig) : Prop where
  M : 1 ≤ config.M
  Mmax : 1 ≤ config.Mmax
  Mmax0 : 1 ≤ config.Mmax0
  ef : 1 ≤ config.ef

namespace HNSWIndex

variable {ε δ : Type*} [Distance δ] (dist : ε → ε → δ) (x : HNSWIndex ε)

/-- The adds in this order; one that throws leaves the index as it is. -/
def addAll (adds : List (ε × ℕ)) : HNSWIndex ε :=
  adds.foldl (fun x a => (x.add dist a.1 a.2).getD x) x

/-- The ids in a list are other nodes of its layer, each once, and there are not too many. -/
structure Tidy : Prop extends x.Valid where
  self : ∀ i lc, i ∉ x.links i lc
  nodup : ∀ i lc, (x.links i lc).Nodup
  length : ∀ i lc, (x.links i lc).length ≤ max x.config.M (x.mMax lc)

structure Sound : Prop extends x.Tidy where
  linked : ∀ i, 0 < i → i < x.count → x.links i 0 ≠ []
  /-- The entry point is a node on the top layer. -/
  top : 0 < x.count → x.entryPoint < x.count ∧ x.maxLayer = x.level x.entryPoint
  height : ∀ i < x.count, (x.level i : ℤ) ≤ x.maxLayer
  empty : x.count = 0 → x.maxLayer = -1

/-- Node `id` is not yet in a list below layer `k`. -/
structure Linking (id : InternalId) (k : ℕ) : Prop extends x.Tidy where
  fresh : ∀ lc < k, ∀ i, id ∉ x.links i lc
  linked : ∀ i, 0 < i → i < x.count → i ≠ id → x.links i 0 ≠ []

variable {dist x} {y : HNSWIndex ε} {id ep e i : InternalId} {lc k L : ℕ} {vec : ε}
  {l : List InternalId}

/-! ### One list -/

theorem Tidy.setLinks (h : x.Tidy) (hl : ∀ j ∈ l, x.HasLayer lc j) (hself : i ∉ l)
    (hnodup : l.Nodup)
    (hlen : l.length ≤ max x.config.M (x.mMax lc)) : (x.setLinks i lc l).Tidy where
  toValid := h.toValid.setLinks hl
  self j m := by
    rw [links_setLinks]
    split_ifs with hj
    · rwa [hj.1]
    · exact h.self j m
  nodup j m := by
    rw [links_setLinks]
    split_ifs
    · exact hnodup
    · exact h.nodup j m
  length j m := by
    rw [frame_setLinks.mMax, links_setLinks]
    split_ifs with hj
    · rw [hj.2.1]
      exact hlen
    · exact h.length j m

theorem length_withBackLink :
    (x.withBackLink dist id lc e).length = min (x.mMax lc) ((x.links e lc).length + 1) := by
  unfold withBackLink
  dsimp only
  split_ifs with hover
  · rw [length_selectNeighbors, List.length_append, List.length_singleton]
  · rw [List.length_append, List.length_singleton] at hover ⊢
    omega

theorem nodup_withBackLink (h : (x.links e lc).Nodup) (hid : id ∉ x.links e lc) :
    (x.withBackLink dist id lc e).Nodup := by
  have hconn : (x.links e lc ++ [id]).Nodup :=
    List.nodup_append.2 ⟨h, List.nodup_singleton id, fun a ha b hb =>
      List.mem_singleton.1 hb ▸ ne_of_mem_of_not_mem ha hid⟩
  unfold withBackLink
  dsimp only
  split_ifs
  · exact nodup_selectNeighbors hconn
  · exact hconn

theorem one_le_mMax (hc : x.config.Positive) (lc : ℕ) : 1 ≤ x.mMax lc := by
  unfold mMax
  split_ifs
  · exact hc.Mmax0
  · exact hc.Mmax

/-- A node that gets a back-link has neighbours. -/
theorem withBackLink_ne_nil (hc : x.config.Positive) :
    x.withBackLink dist id lc e ≠ [] := by
  intro h
  have hlen : (x.withBackLink dist id lc e).length = min (x.mMax lc) ((x.links e lc).length + 1) :=
    length_withBackLink
  have hpos := one_le_mMax hc lc
  rw [h, List.length_nil] at hlen
  omega

/-! ### One layer -/

/-- While back-links are added on a layer: the nodes of `l` are still to come. -/
structure BackLinking (x : HNSWIndex ε) (id : InternalId) (lc : ℕ) (l : List InternalId) : Prop
    extends x.Linking id lc where
  hasLayer : x.HasLayer lc id
  pending : l.Nodup
  absent : ∀ e ∈ l, e ≠ id ∧ id ∉ x.links e lc
  own : lc = 0 → x.links id 0 ≠ []

theorem BackLinking.step (h : x.BackLinking id lc (e :: l)) (hc : x.config.Positive) :
    (x.addBackLink dist id lc e).BackLinking id lc l := by
  obtain ⟨he, hl⟩ := List.nodup_cons.1 h.pending
  obtain ⟨hne, habsent⟩ := h.absent e List.mem_cons_self
  have hsub := withBackLink_subset dist (x := x) id lc e
  have htidy : (x.addBackLink dist id lc e).Tidy := by
    refine h.toTidy.setLinks (fun j hj => ?_) (fun hin => ?_)
      (nodup_withBackLink (h.nodup e lc) habsent) ?_
    · rcases List.mem_append.1 (hsub hj) with hj | hj
      · exact h.links e lc j hj
      · rw [List.mem_singleton.1 hj]
        exact h.hasLayer
    · rcases List.mem_append.1 (hsub hin) with hin | hin
      · exact h.self e lc hin
      · exact hne (List.mem_singleton.1 hin)
    · rw [length_withBackLink]
      omega
  refine
  { htidy with
    fresh := fun m hm j => ?_
    linked := fun j hj0 hj hjid => ?_
    hasLayer := frame_addBackLink.hasLayer.2 h.hasLayer
    pending := hl
    absent := fun j hj => ⟨(h.absent j (List.mem_cons_of_mem e hj)).1, ?_⟩
    own := fun hlc => ?_ }
  · rw [addBackLink, links_setLinks, if_neg fun hj => hm.ne hj.2.1]
    exact h.fresh m hm j
  · rw [addBackLink, links_setLinks]
    split_ifs
    · exact withBackLink_ne_nil hc
    · exact h.linked j hj0 hj hjid
  · rw [addBackLink, links_setLinks, if_neg (by rintro ⟨rfl, -⟩; exact he hj)]
    exact (h.absent j (List.mem_cons_of_mem e hj)).2
  · rw [addBackLink, links_setLinks, if_neg fun heq => hne heq.1.symm]
    exact h.own hlc

variable (dist) in
theorem BackLinking.all (h : x.BackLinking id lc l) (hc : x.config.Positive) :
    (l.foldl (fun y e => y.addBackLink dist id lc e) x).BackLinking id lc [] := by
  induction l generalizing x with
  | nil => exact h
  | cons e l ih => exact ih (h.step hc) hc

/-- A node that is in no list of the layer is not found from another. -/
theorem Reaches.ne (hfresh : ∀ i, id ∉ x.links i lc) (hep : ep ≠ id) (h : x.Reaches lc ep i) :
    i ≠ id := by
  cases h with
  | refl => exact hep
  | tail _ hlink => exact fun hi => hfresh _ (hi ▸ hlink)

/-- Something is found on every layer. -/
theorem Found.ne_nil {q : ε} {ef : ℕ} {seen found : List InternalId} (hef : 1 ≤ ef)
    (h : x.Found dist q ep ef lc seen found) : found ≠ [] := by
  rintro rfl
  have := (h.nearest ep h.entry List.not_mem_nil).1
  rw [List.length_nil] at this
  omega

variable (dist) in
/-- One layer of a link. -/
theorem Linking.layer (h : x.Linking id (lc + 1)) (hc : x.config.Positive)
    (hid : id < x.count) (hep : x.HasLayer lc ep) (hne : ep ≠ id) :
    (x.linkLayer dist id lc ep).Linking id lc ∧ x.layerNext dist id lc ep ≠ id ∧
      (lc = 0 → (x.linkLayer dist id lc ep).links id 0 ≠ []) := by
  obtain ⟨seen, hfound, -⟩ := h.toValid.layerFound dist id hc.ef hep
  have hfresh := h.fresh lc (Nat.lt_succ_self lc)
  have hother : ∀ i ∈ x.layerFound dist id lc ep, i ≠ id := fun i hi =>
    (hfound.reaches i hi).ne hfresh hne
  have hnext : x.layerNext dist id lc ep ≠ id := by
    rcases closest_mem dist (x := x) (x.vec id) ep (x.layerFound dist id lc ep) with hcl | hcl
    · rw [layerNext, hcl]
      exact hne
    · exact hother _ hcl
  have hlower : x.Linking id lc :=
    { h with fresh := fun m hm => h.fresh m (Nat.lt_succ_of_lt hm) }
  unfold linkLayer
  split_ifs with hl
  · exact ⟨hlower, hnext, fun h0 => absurd hl (h0 ▸ Nat.not_lt_zero _)⟩
  · have hsub := selectNeighbors_subset dist (x := x) (x.vec id) (x.layerFound dist id lc ep)
      x.config.M
    have hself := HasLayer.self h.toValid hid (Nat.le_of_not_lt hl)
    have hlen : (x.layerNeighbours dist id lc ep).length =
        min x.config.M (x.layerFound dist id lc ep).length := length_selectNeighbors
    have hnodup : (x.layerNeighbours dist id lc ep).Nodup := nodup_selectNeighbors hfound.nodup
    have htidy : (x.setLinks id lc (x.layerNeighbours dist id lc ep)).Tidy := by
      refine h.toTidy.setLinks (fun j hj => ?_) (fun hin => hother id (hsub hin) rfl) hnodup ?_
      · exact (hfound.reaches j (hsub hj)).hasLayer h.toValid hep
      · rw [hlen]
        omega
    have hstart : (x.setLinks id lc (x.layerNeighbours dist id lc ep)).BackLinking id lc
        (x.layerNeighbours dist id lc ep) := by
      refine
      { htidy with
        fresh := fun m hm j => ?_
        linked := fun j hj0 hj hjid => ?_
        hasLayer := frame_setLinks.hasLayer.2 hself
        pending := hnodup
        absent := fun e he => ⟨hother e (hsub he), ?_⟩
        own := fun hlc => ?_ }
      · rw [links_setLinks, if_neg fun hj => hm.ne hj.2.1]
        exact h.fresh m (Nat.lt_succ_of_lt hm) j
      · rw [links_setLinks, if_neg fun heq => hjid heq.1]
        exact h.linked j hj0 hj hjid
      · rw [links_setLinks, if_neg fun heq => hother e (hsub he) heq.1]
        exact hfresh e
      · subst hlc
        rw [links_setLinks, if_pos ⟨rfl, rfl, hself.2⟩]
        intro hnil
        rw [hnil, List.length_nil] at hlen
        have hef : 1 ≤ if x.level id < 0 then 1 else x.config.ef := by
          rw [if_neg hl]
          exact hc.ef
        have hpos := List.length_pos_iff.2 (hfound.ne_nil hef)
        have := hc.M
        omega
    have hend := hstart.all dist hc
    exact ⟨hend.toLinking, hnext, hend.own⟩

variable (dist) in
/-- All layers of a link. -/
theorem Linking.down (h : x.Linking id (lc + 1)) (hc : x.config.Positive)
    (hid : id < x.count) (hep : x.HasLayer lc ep) (hne : ep ≠ id) :
    (linkDown dist id lc ep x).Linking id 0 ∧ (linkDown dist id lc ep x).links id 0 ≠ [] := by
  induction lc generalizing x ep with
  | zero =>
    obtain ⟨hlayer, -, hown⟩ := h.layer dist hc hid hep hne
    exact ⟨hlayer, hown rfl⟩
  | succ lc ih =>
    obtain ⟨hlayer, hnext, -⟩ := h.layer dist hc hid hep hne
    have hframe : Frame x (x.linkLayer dist id (lc + 1) ep) := frame_linkLayer
    refine ih hlayer (hframe.config ▸ hc) (hframe.count ▸ hid) ?_ hnext
    exact hframe.hasLayer.2 ((h.toValid.layerNext dist id hc.ef hep).le (Nat.le_succ lc))

/-! ### One add -/

/-- A new node has no neighbours yet, and is in no list. -/
theorem links_allocate (hx : x.Valid) (h : x.allocate vec L = some y) (i : InternalId) (lc : ℕ) :
    y.links i lc = x.links i lc := by
  unfold allocate at h
  split_ifs at h
  cases h
  unfold links
  dsimp only
  by_cases hi : i = x.count
  · rw [hi, Function.update_self, hx.junk _ le_rfl, List.getD_nil, List.getD_eq_getElem?_getD,
      List.getElem?_replicate]
    split_ifs <;> rfl
  · rw [Function.update_of_ne hi]

/-- What else an allocation does. -/
theorem frame_allocate (h : x.allocate vec L = some y) :
    y.config = x.config ∧ y.count = x.count + 1 ∧ y.entryPoint = x.entryPoint ∧
      y.maxLayer = x.maxLayer ∧ y.level x.count = L ∧ ∀ i ≠ x.count, y.nodes i = x.nodes i := by
  unfold allocate at h
  split_ifs at h
  cases h
  refine ⟨rfl, rfl, rfl, rfl, ?_, fun i hi => Function.update_of_ne hi _ _⟩
  unfold level
  dsimp only
  rw [Function.update_self, List.length_replicate, Nat.add_sub_cancel]

theorem Sound.allocate (h : x.Sound) (hy : x.allocate vec L = some y) (k : ℕ) :
    y.Linking x.count k := by
  obtain ⟨hconfig, hcount, -, -, -, -⟩ := frame_allocate hy
  have hlinks := links_allocate h.toValid hy
  have hmMax : ∀ lc, y.mMax lc = x.mMax lc := fun lc => by rw [mMax, mMax, hconfig]
  exact
  { toValid := (h.toValid.allocate hy).1
    self := fun i lc => hlinks i lc ▸ h.self i lc
    nodup := fun i lc => hlinks i lc ▸ h.nodup i lc
    length := fun i lc => by
      rw [hlinks, hconfig, hmMax]
      exact h.length i lc
    fresh := fun lc _ i hin => by
      rw [hlinks] at hin
      exact lt_irrefl _ (h.links i lc _ hin).1
    linked := fun i hi0 hi hne => by
      rw [hlinks]
      exact h.linked i hi0 (by omega) }

/-- Every node but the first has neighbours once the new one has. -/
theorem Linking.all_linked (h : y.Linking id k) (hown : 0 < id → y.links id 0 ≠ []) :
    ∀ i, 0 < i → i < y.count → y.links i 0 ≠ [] := by
  intro i hi0 hi
  by_cases hne : i = id
  · exact hne ▸ hown (hne ▸ hi0)
  · exact h.linked i hi0 hi hne

/-- The node is taller than the graph, and becomes its entry point. -/
theorem Linking.promote (h : y.Linking id k) (hown : 0 < id → y.links id 0 ≠ [])
    (hid : id < y.count) (htall : y.maxLayer < y.level id)
    (hheight : ∀ i < y.count, i ≠ id → (y.level i : ℤ) ≤ y.maxLayer) :
    ({ y with entryPoint := id, maxLayer := y.level id } : HNSWIndex ε).Sound where
  junk := h.junk
  level := h.level
  links := h.links
  entry _ := by
    have hself : y.HasLayer (y.level id) id := .self h.toValid hid le_rfl
    exact hself
  self := h.self
  nodup := h.nodup
  length := h.length
  linked := h.all_linked hown
  top _ := ⟨hid, rfl⟩
  height i hi := by
    by_cases hne : i = id
    · rw [hne]
      rfl
    · exact (hheight i hi hne).trans htall.le
  empty h0 := absurd hid (Nat.not_lt.2 (Nat.le_of_eq h0 |>.trans (Nat.zero_le id)))

/-- The graph is as tall as it was. -/
theorem Linking.stay (h : y.Linking id k) (hown : 0 < id → y.links id 0 ≠ []) (hid : id < y.count)
    (hlow : (y.level id : ℤ) ≤ y.maxLayer)
    (htop : y.entryPoint < y.count ∧ y.maxLayer = y.level y.entryPoint)
    (hheight : ∀ i < y.count, i ≠ id → (y.level i : ℤ) ≤ y.maxLayer) : y.Sound where
  toTidy := h.toTidy
  linked := h.all_linked hown
  top _ := htop
  height i hi := by
    by_cases hne : i = id
    · rwa [hne]
    · exact hheight i hi hne
  empty h0 := absurd hid (Nat.not_lt.2 (Nat.le_of_eq h0 |>.trans (Nat.zero_le id)))

/-- **One add** to a sound graph. -/
theorem Sound.link (h : x.Sound) (hc : x.config.Positive) (hy : x.allocate vec L = some y) :
    (y.linkNode dist x.count).Sound := by
  obtain ⟨hconfig, hcount, hentry, hmax, -, hnodes⟩ := frame_allocate hy
  have hvalid := (h.toValid.allocate hy).1
  have hid : x.count < y.count := by omega
  have hlevel : ∀ i ≠ x.count, y.level i = x.level i := fun i hi => by
    rw [HNSWIndex.level, HNSWIndex.level, hnodes i hi]
  have hheight : ∀ i < y.count, i ≠ x.count → (y.level i : ℤ) ≤ y.maxLayer := fun i hi hne => by
    rw [hlevel i hne, hmax]
    exact h.height i (by omega)
  unfold linkNode
  by_cases hm : y.maxLayer < 0
  · -- the first node
    have h0 : x.count = 0 := by
      by_contra hpos
      have := (h.top (by omega)).2
      omega
    rw [if_pos hm]
    exact (h.allocate hy 0).promote (fun hpos => absurd h0 hpos.ne') hid (by omega) hheight
  · have hpos : 0 < x.count := by
      by_contra h0
      have := h.empty (by omega)
      omega
    obtain ⟨hlt, htop⟩ := h.top hpos
    have hne : y.entryPoint ≠ x.count := hentry ▸ hlt.ne
    obtain ⟨hdown, hown⟩ := (h.allocate hy (y.maxLayer.toNat + 1)).down dist
      (hconfig ▸ hc) hid (hvalid.entry (not_lt.1 hm)) hne
    have hframe : Frame y (linkDown dist x.count y.maxLayer.toNat y.entryPoint y) :=
      frame_linkDown _ _ _
    rw [if_neg hm]
    generalize linkDown dist x.count y.maxLayer.toNat y.entryPoint y = z at hdown hown hframe ⊢
    have hheight' : ∀ i < z.count, i ≠ x.count → (z.level i : ℤ) ≤ z.maxLayer := fun i hi hne => by
      rw [hframe.level, hframe.maxLayer]
      exact hheight i (hframe.count ▸ hi) hne
    have hid' : x.count < z.count := hframe.count ▸ hid
    have hz := hframe.maxLayer
    have hzlevel := hframe.level x.count
    dsimp only
    rw [← hzlevel]
    split_ifs with htall
    · exact hdown.promote (fun _ => hown) hid' (by omega) hheight'
    · refine hdown.stay (fun _ => hown) hid' (by omega) ⟨?_, ?_⟩ hheight'
      · rw [hframe.entryPoint, hframe.count, hentry]
        exact hlt.trans hid
      · rw [hframe.maxLayer, hframe.entryPoint, hframe.level, hlevel _ hne, hmax, htop, hentry]

theorem link_eq_linkNode (hx : x.Valid) (hef : 1 ≤ x.config.ef) (hid : id < x.count) :
    x.link dist id = x.linkNode dist id := by
  rw [HNSWIndex.link, link_eq hx hef hid]

theorem config_linkNode : (x.linkNode dist id).config = x.config := by
  unfold linkNode
  dsimp only
  split_ifs
  · rfl
  · exact (frame_linkDown _ _ _).config
  · exact (frame_linkDown _ _ _).config

theorem Sound.add (h : x.Sound) (hc : x.config.Positive)
    (hy : x.add dist vec L = some y) : y.Sound ∧ y.config = x.config := by
  unfold HNSWIndex.add at hy
  obtain ⟨z, hz, rfl⟩ := Option.map_eq_some_iff.1 hy
  obtain ⟨hconfig, hcount, -⟩ := frame_allocate hz
  have hid : x.count < z.count := by omega
  rw [link_eq_linkNode (h.toValid.allocate hz).1 (hconfig ▸ hc.ef) hid]
  exact ⟨h.link hc hz, config_linkNode.trans hconfig⟩

/-! ### Runs -/

theorem sound_new [Inhabited ε] (config : HNSWConfig) : (new config : HNSWIndex ε).Sound where
  toValid := valid_new config
  self i lc := by simp [HNSWIndex.links, new]
  nodup i lc := by simp [HNSWIndex.links, new]
  length i lc := by simp [HNSWIndex.links, new]
  linked i _ hi := absurd hi (Nat.not_lt_zero i)
  top h := absurd h (lt_irrefl 0)
  height i hi := absurd hi (Nat.not_lt_zero i)
  empty _ := rfl

variable (dist) in
theorem Sound.addAll (h : x.Sound) (hc : x.config.Positive) (adds : List (ε × ℕ)) :
    (x.addAll dist adds).Sound ∧ (x.addAll dist adds).config = x.config := by
  induction adds generalizing x with
  | nil => exact ⟨h, rfl⟩
  | cons a adds ih =>
    rw [HNSWIndex.addAll, List.foldl_cons, ← HNSWIndex.addAll]
    cases hadd : x.add dist a.1 a.2 with
    | none => exact ih h hc
    | some y =>
      obtain ⟨hy, hconfig⟩ := h.add hc hadd
      obtain ⟨hall, hall'⟩ := ih (x := y) hy (hconfig ▸ hc)
      exact ⟨hall, hall'.trans hconfig⟩

/-- Every section of a link finds the lists it reads and writes. -/
theorem runSections_valid (hx : x.Valid) (hid : id < x.count) (n : ℕ) :
    (runSections dist id n (x, .start)).1.Valid ∧ id < (runSections dist id n (x, .start)).1.count ∧
      (runSections dist id n (x, .start)).2.Valid (runSections dist id n (x, .start)).1 id := by
  induction n with
  | zero => exact ⟨hx, hid, trivial⟩
  | succ n ih =>
    obtain ⟨hv, hlt, hpc⟩ := ih
    obtain ⟨hv', -, hpc'⟩ := runSection_valid dist hv hlt hpc
    rw [runSections_add]
    exact ⟨hv', (System.count_runSection dist _ _ _).symm ▸ hlt, hpc'⟩

variable (dist) in
theorem count_link (x : HNSWIndex ε) (id : InternalId) : (x.link dist id).count = x.count := by
  have hsections : ∀ n, (runSections dist id n (x, .start)).1.count = x.count := by
    intro n
    induction n with
    | zero => rfl
    | succ n ih =>
      rw [runSections_add]
      exact (System.count_runSection dist _ _ _).trans ih
  exact hsections _

variable (dist) in
/-- An add that does not throw adds a node. -/
theorem Sound.count_addAll (h : x.Sound) (hc : x.config.Positive) (adds : List (ε × ℕ)) :
    (x.addAll dist adds).count =
      max x.count (min x.config.maxElements (x.count + adds.length)) := by
  induction adds generalizing x with
  | nil =>
    rw [List.length_nil, Nat.add_zero, max_eq_left (min_le_right _ _)]
    rfl
  | cons a adds ih =>
    rw [HNSWIndex.addAll, List.foldl_cons, ← HNSWIndex.addAll, List.length_cons]
    cases hadd : x.add dist a.1 a.2 with
    | none =>
      have hfull : x.config.maxElements ≤ x.count := by
        by_contra hroom
        simp [HNSWIndex.add, HNSWIndex.allocate, hroom] at hadd
      refine (ih h hc).trans ?_
      rw [max_eq_left (min_le_of_left_le hfull), max_eq_left (min_le_of_left_le hfull)]
    | some y =>
      obtain ⟨hy, hconfig⟩ := h.add hc hadd
      obtain ⟨z, hz, rfl⟩ := Option.map_eq_some_iff.1 hadd
      have hcount : (z.link dist x.count).count = x.count + 1 :=
        (count_link dist z x.count).trans (frame_allocate hz).2.1
      have hroom : x.count < x.config.maxElements := by
        by_contra hfull
        simp [HNSWIndex.allocate, Nat.le_of_not_lt hfull] at hz
      refine (ih (x := z.link dist x.count) hy (hconfig ▸ hc)).trans ?_
      rw [hcount, hconfig]
      omega

/-- **After every add** the graph is sound, with a node for every add up to `max_elements`; the next
one comes to an end, and on the way reads and writes only lists that are there. -/
theorem addAll_sound [Inhabited ε] (dist : ε → ε → δ) (config : HNSWConfig)
    (hc : config.Positive) (adds : List (ε × ℕ)) :
    ((new config).addAll dist adds).Sound ∧ ((new config).addAll dist adds).config = config ∧
      ((new config).addAll dist adds).count = min config.maxElements adds.length ∧
      ∀ vec L y, ((new config).addAll dist adds).allocate vec L = some y →
        (runSections dist ((new config).addAll dist adds).count y.linkSections (y, .start)).2 =
        .done ∧
        ∀ n, (runSections dist ((new config).addAll dist adds).count n (y, .start)).2.Valid
          (runSections dist ((new config).addAll dist adds).count n (y, .start)).1
          ((new config).addAll dist adds).count := by
  obtain ⟨hsound, hconfig⟩ := (sound_new config).addAll dist hc adds
  have hall : ((new config).addAll dist adds).count = min config.maxElements adds.length := by
    rw [(sound_new config).count_addAll dist hc adds]
    exact (Nat.zero_max _).trans (congrArg _ (Nat.zero_add _))
  refine ⟨hsound, hconfig, hall, fun vec L y hy => ?_⟩
  obtain ⟨hconfig', hcount, -⟩ := frame_allocate hy
  have hvalid := (hsound.toValid.allocate hy).1
  have hid : ((new config).addAll dist adds).count < y.count := by omega
  have hef : 1 ≤ y.config.ef := by
    rw [hconfig', hconfig]
    exact hc.ef
  rw [link_eq hvalid hef hid]
  exact ⟨rfl, fun n => (runSections_valid hvalid hid n).2.2⟩

/-- Three nodes, the second one taller than the first. -/
theorem addAll_sound_three :
    ((new {} : HNSWIndex ℕ).addAll System.lineDist [(0, 0), (10, 2), (11, 1)]).Sound :=
  (addAll_sound System.lineDist {} ⟨by decide, by decide, by decide, by decide⟩
    [(0, 0), (10, 2), (11, 1)]).1

end HNSWIndex

end Hnsw

end Vdb
