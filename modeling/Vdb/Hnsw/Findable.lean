import Vdb.Hnsw.Add
import Mathlib.Data.List.Perm.Basic
import Mathlib.Data.Finset.Range

/-!
# Whether every stored vector is found

A search for as many results as there are nodes walks over layer `0` from one node, so it reports
what can be reached from there.

* `Connected.findable` : if every node can be reached from every other, all are reported.
* `addAll_findable` : a run of adds keeps the graph so, if each link that a prune drops is bypassed.
* `unfindable` : a prune may drop the only link to an older node.
-/

namespace Vdb

namespace Hnsw

namespace HNSWIndex

variable {ε δ : Type*} [Distance δ] (dist : ε → ε → δ) (x : HNSWIndex ε)

/-! ### What it is for -/

/-- A search for all nodes reports each of them, once. -/
def Findable : Prop :=
  ∀ efSearch query K, x.count ≤ K →
    ((x.search dist efSearch query K).map Prod.fst).Perm (List.range x.count)

/-- Every node can be reached from every other on layer `0`. -/
def Connected : Prop := ∀ i < x.count, ∀ j < x.count, x.Reaches 0 i j

/-! ### Prunes -/

/-- `j` stands in the list of `i`, or it is the new node, which is still to be added there. -/
def Leads (id : InternalId) (rest : List InternalId) (i j : InternalId) : Prop :=
  j ∈ x.links i 0 ∨ i ∈ rest ∧ j = id

/-- Whatever the prune drops from the list of `e` can be reached from a neighbour that it keeps,
along the lists of the other nodes and the back-links still to be added on those of `rest`. -/
def Bypassed (id e : InternalId) (rest : List InternalId) : Prop :=
  ∀ b ∈ x.links e 0 ++ [id], b ∉ x.withBackLink dist id 0 e →
    ∃ c ∈ x.withBackLink dist id 0 e,
      Relation.ReflTransGen (fun i j => i ≠ e ∧ x.Leads id rest i j) c b

/-- If the next section adds a back-link on layer `0`, what it drops is bypassed. -/
def PruneBypassed (id : InternalId) : HNSWIndex ε × Pc δ → Prop
  | (x, .backLink _ 0 _ _ e rest) => x.Bypassed dist id e rest
  | _ => True

/-- So it is for every section of this add, if it does not throw. -/
def AddBypassed (a : ε × ℕ) : Prop :=
  ∀ y, x.allocate a.1 a.2 = some y →
    ∀ n, PruneBypassed dist x.count (runSections dist x.count n (y, .start))

variable {dist x} {y z : HNSWIndex ε} {id ep e i j : InternalId} {lc k L : ℕ} {vec : ε}
  {l rest : List InternalId}

/-! ### Connected graphs -/

variable (dist) in
theorem descend_valid (hx : x.Valid) (q : ε) (hep : x.HasLayer lc ep) :
    x.HasLayer 0 (x.descend dist q lc ep) := by
  induction lc generalizing ep with
  | zero => exact hep
  | succ lc ih =>
    obtain ⟨seen, hfound, -⟩ := hx.found dist q (le_refl 1) hep
    refine ih ((closest_valid dist hep (fun i hi => ?_) q).le (Nat.le_succ lc))
    exact (hfound.reaches i hi).hasLayer hx hep

variable (dist) in
/-- A search with room for all nodes finds those that can be reached. -/
theorem mem_searchLayer_iff (hx : x.Valid) (q : ε) {ef : ℕ} (hep : x.HasLayer lc ep)
    (hef : x.count ≤ ef) :
    (x.searchLayer dist q ep ef lc).Nodup ∧
      ∀ i, i ∈ x.searchLayer dist q ep ef lc ↔ x.Reaches lc ep i := by
  have hpos : 1 ≤ ef := (Nat.zero_lt_of_lt hep.1).trans_le hef
  obtain ⟨seen, hfound, -⟩ := hx.found dist q hpos hep
  refine ⟨hfound.nodup, hfound.complete ?_⟩
  have hsub : {i | x.Reaches lc ep i} ⊆ (Finset.range x.count : Set ℕ) := fun i hi =>
    Finset.mem_coe.2 (Finset.mem_range.2 (Reaches.hasLayer hx hep hi).1)
  refine (Set.encard_le_encard hsub).trans ?_
  rw [Set.encard_coe_eq_coe_finsetCard, Finset.card_range]
  exact ENat.natCast_le_natCast.2 hef

/-- What is found is stored. -/
theorem mem_search (hx : x.Valid) {efSearch : ℕ} (hef : 1 ≤ efSearch) (query : ε) (K : ℕ)
    {e : InternalId × δ} (he : e ∈ x.search dist efSearch query K) : e.1 < x.count := by
  unfold search at he
  dsimp only at he
  split_ifs at he with hm
  · cases he
  · have hep := descend_valid dist hx query (hx.entry (not_lt.1 hm))
    obtain ⟨seen, hfound, -⟩ := hx.found dist query (hef.trans (le_max_left efSearch K)) hep
    have hsorted := (List.mem_insertionSort _).1 (List.mem_of_mem_take he)
    obtain ⟨i, hi, rfl⟩ := List.mem_map.1 hsorted
    exact ((hfound.reaches i hi).hasLayer hx hep).1

/-- **In a connected graph** every vector is found. -/
theorem Connected.findable (h : x.Connected) (hx : x.Sound) : x.Findable dist := by
  intro efSearch query K hK
  unfold search
  dsimp only
  split_ifs with hm
  · have h0 : x.count = 0 := by
      by_contra hpos
      have := (hx.top (Nat.pos_of_ne_zero hpos)).2
      omega
    rw [h0]
    exact .refl _
  · have hep := descend_valid dist hx.toValid query (hx.entry (not_lt.1 hm))
    generalize x.descend dist query x.maxLayer.toNat x.entryPoint = ep at hep ⊢
    obtain ⟨hnodup, hmem⟩ := mem_searchLayer_iff dist hx.toValid query hep
      (hK.trans (le_max_right efSearch K))
    set W := x.searchLayer dist query ep (max efSearch K) 0
    have hall : W.Perm (List.range x.count) := by
      refine (List.perm_ext_iff_of_nodup hnodup List.nodup_range).2 fun i => ?_
      rw [hmem, List.mem_range]
      exact ⟨fun hi => (hi.hasLayer hx.toValid hep).1, fun hi => h ep hep.1 i hi⟩
    have hsort := List.perm_insertionSort (fun a b : InternalId × δ => a.2 ≤ b.2)
      (W.map fun id => (id, x.distTo dist query id))
    have hlen := hsort.length_eq
    rw [List.length_map, hall.length_eq, List.length_range] at hlen
    rw [List.take_of_length_le (hlen.trans_le hK)]
    refine (hsort.map Prod.fst).trans ?_
    rw [List.map_map]
    exact (List.map_id W).symm ▸ hall

/-! ### Upper layers -/

theorem links_addBackLinks (hlc : k ≠ lc) (l : List InternalId) (y : HNSWIndex ε) :
    (l.foldl (fun y e => y.addBackLink dist id lc e) y).links i k = y.links i k := by
  induction l generalizing y with
  | nil => rfl
  | cons e l ih =>
    rw [List.foldl_cons, ih, addBackLink, links_setLinks, if_neg fun h => hlc h.2.1]

/-- A layer leaves the lists of the others as they are. -/
theorem links_linkLayer (hlc : k ≠ lc) : (x.linkLayer dist id lc ep).links i k = x.links i k := by
  unfold linkLayer
  split_ifs
  · rfl
  · rw [links_addBackLinks hlc, links_setLinks, if_neg fun h => hlc h.2.1]

variable (dist L) in
/-- How a link gets to layer `0`. -/
theorem Linking.exists_ground (h : x.Linking id (lc + 1)) (hc : x.config.Positive)
    (hid : id < x.count) (hep : x.HasLayer lc ep) (hne : ep ≠ id) :
    ∃ k z ep', runSections dist id k (x, x.enterLayer dist id L lc ep) =
        (z, z.enterLayer dist id L 0 ep') ∧
      linkDown dist id lc ep x = z.linkLayer dist id 0 ep' ∧ z.Linking id 1 ∧ z.HasLayer 0 ep' ∧
      ep' ≠ id ∧ Frame x z ∧ ∀ i, z.links i 0 = x.links i 0 := by
  induction lc generalizing x ep with
  | zero => exact ⟨0, x, ep, rfl, rfl, h, hep, hne, .refl x, fun _ => rfl⟩
  | succ lc ih =>
    obtain ⟨hlayer, hnext, -⟩ := h.layer dist hc hid hep hne
    obtain ⟨k, -, hrun⟩ := exists_runSections_layer dist id L h.toValid hc.ef hep
    have hframe : Frame x (x.linkLayer dist id (lc + 1) ep) := frame_linkLayer
    obtain ⟨k', z, ep', hrun', hdown, hz, hep', hne', hframe', hlinks⟩ := ih hlayer
      (hframe.config ▸ hc) (hframe.count ▸ hid)
      (hframe.hasLayer.2 ((h.toValid.layerNext dist id hc.ef hep).le (Nat.le_succ lc))) hnext
    refine ⟨k + k', z, ep', ?_, hdown, hz, hep', hne', hframe.trans hframe', fun i => ?_⟩
    · rw [runSections_add, hrun, leaveLayer, ← hframe.enterLayer, hrun']
    · rw [hlinks, links_linkLayer (Nat.succ_ne_zero lc).symm]

/-! ### Layer `0` -/

/-- Every node can be reached from every other, once the new one is in the lists of `rest`. -/
def Linked (y : HNSWIndex ε) (id : InternalId) (rest : List InternalId) : Prop :=
  ∀ i < y.count, ∀ j < y.count, Relation.ReflTransGen (y.Leads id rest) i j

/-- A back-link whose prune is bypassed. -/
theorem Linked.step (h : y.Linked id (e :: rest)) (he : y.HasLayer 0 e)
    (hb : y.Bypassed dist id e rest) : (y.addBackLink dist id 0 e).Linked id rest := by
  have hlist : (y.addBackLink dist id 0 e).links e 0 = y.withBackLink dist id 0 e := by
    rw [addBackLink, links_setLinks, if_pos ⟨rfl, rfl, he.2⟩]
  have hother : ∀ i j, i ≠ e ∧ y.Leads id rest i j →
      (y.addBackLink dist id 0 e).Leads id rest i j := by
    rintro i j ⟨hi, hlead⟩
    refine hlead.imp_left fun hj => ?_
    rwa [addBackLink, links_setLinks, if_neg fun heq => hi heq.1]
  -- a step of the old graph is a way through the new one
  have hlift : ∀ i j, y.Leads id (e :: rest) i j →
      Relation.ReflTransGen ((y.addBackLink dist id 0 e).Leads id rest) i j := by
    intro i j hlead
    by_cases hi : i = e
    · subst hi
      have hj : j ∈ y.links i 0 ++ [id] := by
        rcases hlead with hj | ⟨-, rfl⟩
        · exact List.mem_append_left _ hj
        · exact List.mem_append_right _ (List.mem_singleton_self j)
      by_cases hkept : j ∈ y.withBackLink dist id 0 i
      · exact .single (.inl (hlist ▸ hkept))
      · obtain ⟨c, hc, hway⟩ := hb j hj hkept
        exact .head (.inl (hlist ▸ hc)) (Relation.ReflTransGen.mono hother _ _ hway)
    · refine .single (hother i j ⟨hi, hlead.imp_right fun hpend => ?_⟩)
      exact ⟨(List.mem_cons.1 hpend.1).resolve_left hi, hpend.2⟩
  intro i hi j hj
  exact Relation.reflTransGen_closed hlift _ _ (h i hi j hj)

variable (dist) in
theorem Linked.all (h : y.Linked id l) (hl : ∀ e ∈ l, y.HasLayer 0 e)
    (hb : ∀ l₁ e l₂, l = l₁ ++ e :: l₂ →
      (l₁.foldl (fun y e => y.addBackLink dist id 0 e) y).Bypassed dist id e l₂) :
    (l.foldl (fun y e => y.addBackLink dist id 0 e) y).Linked id [] := by
  induction l generalizing y with
  | nil => exact h
  | cons e l ih =>
    refine ih (h.step (hl e List.mem_cons_self) (hb [] e l rfl))
      (fun e' he' => frame_addBackLink.hasLayer.2 (hl e' (List.mem_cons_of_mem e he')))
      fun l₁ e' l₂ heq => ?_
    exact hb (e :: l₁) e' l₂ (by rw [heq, List.cons_append])

/-- The new node has set its own list: it leads to the old ones, and they to it. -/
theorem Connected.linked (h : x.Connected) (hcount : y.count = x.count + 1)
    (hlinks : ∀ i, y.links i 0 = x.links i 0) (hjunk : x.links x.count 0 = [])
    (hlayer : y.HasLayer 0 x.count) (hl : l ≠ []) (hold : ∀ e ∈ l, e < x.count) :
    (y.setLinks x.count 0 l).Linked x.count l := by
  have hown : (y.setLinks x.count 0 l).links x.count 0 = l := by
    rw [links_setLinks, if_pos ⟨rfl, rfl, hlayer.2⟩]
  have hmono : ∀ i j, j ∈ x.links i 0 → (y.setLinks x.count 0 l).Leads x.count l i j := by
    intro i j hj
    refine .inl ?_
    have hi : i ≠ x.count := by
      rintro rfl
      rw [hjunk] at hj
      cases hj
    rwa [links_setLinks, if_neg fun heq => hi heq.1, hlinks]
  have hway : ∀ i < x.count, ∀ j < x.count,
      Relation.ReflTransGen ((y.setLinks x.count 0 l).Leads x.count l) i j := fun i hi j hj =>
    Relation.ReflTransGen.mono hmono _ _ (h i hi j hj)
  obtain ⟨e, he⟩ := List.exists_mem_of_ne_nil l hl
  have hto : ∀ i, (y.setLinks x.count 0 l).Leads x.count l x.count e ∧
      (i < x.count → Relation.ReflTransGen ((y.setLinks x.count 0 l).Leads x.count l) i x.count) :=
    fun i => ⟨.inl (hown.symm ▸ he), fun hi =>
      (hway i hi e (hold e he)).tail (.inr ⟨he, rfl⟩)⟩
  have hnodes : ∀ i < (y.setLinks x.count 0 l).count, i < x.count ∨ i = x.count := by
    intro i hi
    rw [frame_setLinks.count, hcount] at hi
    exact Nat.lt_succ_iff_lt_or_eq.1 hi
  intro i hi j hj
  rcases hnodes i hi with hi | rfl <;> rcases hnodes j hj with hj | rfl
  · exact hway i hi j hj
  · exact (hto i).2 hi
  · exact .head (hto j).1 (hway e (hold e he) j hj)
  · exact .refl

/-! ### One add -/

/-- **One add** whose prunes are bypassed. -/
theorem Connected.link (h : x.Connected) (hx : x.Sound) (hc : x.config.Positive)
    (hy : x.allocate vec L = some y) (hb : AddBypassed dist x (vec, L)) :
    (y.linkNode dist x.count).Connected := by
  obtain ⟨hconfig, hcount, hentry, hmax, -, -⟩ := frame_allocate hy
  have hvalid := (hx.toValid.allocate hy).1
  have hid : x.count < y.count := by omega
  have hcy : y.config.Positive := hconfig ▸ hc
  unfold linkNode
  by_cases hm : y.maxLayer < 0
  · -- the first node
    have h0 : x.count = 0 := by
      by_contra hpos
      have := (hx.top (by omega)).2
      omega
    rw [if_pos hm]
    intro i hi j hj
    have hi' : i < y.count := hi
    have hj' : j < y.count := hj
    rw [hcount, h0, Nat.zero_add, Nat.lt_one_iff] at hi' hj'
    rw [hi', hj']
    exact .refl
  · have hpos : 0 < x.count := by
      by_contra h0
      have := hx.empty (by omega)
      omega
    have hne : y.entryPoint ≠ x.count := hentry ▸ (hx.top hpos).1.ne
    obtain ⟨k, z, ep, hrun, hdown, hz, hep, hne', hframe, hlinks⟩ :=
      (hx.allocate hy (y.maxLayer.toNat + 1)).exists_ground dist y.maxLayer.toNat
        hcy hid (hvalid.entry (not_lt.1 hm)) hne
    have hcz : z.config.Positive := hframe.config ▸ hcy
    have hidz : x.count < z.count := hframe.count ▸ hid
    have hself : z.HasLayer 0 x.count := HasLayer.self hz.toValid hidz (Nat.zero_le _)
    have hfresh := hz.fresh 0 Nat.one_pos
    obtain ⟨seen, hfound, -⟩ := hz.toValid.layerFound dist x.count hcz.ef hep
    have hsub := selectNeighbors_subset dist (x := z) (z.vec x.count)
      (z.layerFound dist x.count 0 ep) z.config.M
    set l := z.layerNeighbours dist x.count 0 ep with hl
    have hnodes : ∀ e ∈ l, z.HasLayer 0 e := fun e he =>
      (hfound.reaches e (hsub he)).hasLayer hz.toValid hep
    have hzcount : z.count = x.count + 1 := hframe.count.trans hcount
    have hold : ∀ e ∈ l, e < x.count := fun e he => by
      have hlt : e < x.count + 1 := hzcount ▸ (hnodes e he).1
      exact (Nat.lt_succ_iff_lt_or_eq.1 hlt).resolve_right
        ((hfound.reaches e (hsub he)).ne hfresh hne')
    have hlne : l ≠ [] := by
      intro hnil
      have hlen : l.length = min z.config.M (z.layerFound dist x.count 0 ep).length :=
        length_selectNeighbors
      have hef : 1 ≤ if z.level x.count < 0 then 1 else z.config.ef := by
        rw [if_neg (Nat.not_lt_zero _)]
        exact hcz.ef
      have hpos' := List.length_pos_iff.2 (hfound.ne_nil hef)
      have hM := hcz.M
      rw [hnil, List.length_nil] at hlen
      omega
    have hstart : (z.setLinks x.count 0 l).Linked x.count l :=
      h.linked hzcount (fun i => (hlinks i).trans (links_allocate hx.toValid hy i 0))
        (by rw [HNSWIndex.links, hx.junk _ le_rfl]; rfl) hself hlne hold
    -- the state before each back-link is one of the run
    have hbypass : ∀ l₁ e l₂, l = l₁ ++ e :: l₂ →
        (l₁.foldl (fun y e => y.addBackLink dist x.count 0 e)
          (z.setLinks x.count 0 l)).Bypassed dist x.count e l₂ := by
      intro l₁ e l₂ heq
      obtain ⟨k', -, hassign⟩ := exists_runSections_assign dist x.count y.maxLayer.toNat
        hz.toValid hcz.ef hep (Nat.not_lt_zero _)
      rw [← hl] at hassign
      have hset : Frame z (z.setLinks x.count 0 l) := frame_setLinks
      have hback := runSections_linkBack dist x.count ep 0 y.maxLayer.toNat
        (z.layerFound dist x.count 0 ep) hset l₁ (e :: l₂)
      rw [← heq] at hback
      have hstep : runSections dist x.count 1 (y, .start) =
          (y, y.enterLayer dist x.count y.maxLayer.toNat y.maxLayer.toNat y.entryPoint) := by
        change y.runSection dist x.count .start = _
        rw [runSection, if_neg hm]
      have hat := hb y hy (1 + (k + (k' + l₁.length)))
      rw [runSections_add, hstep, runSections_add, hrun, runSections_add, hassign, hback] at hat
      exact hat
    have hend := hstart.all dist
      (fun e he => frame_setLinks.hasLayer.2 (hnodes e he)) hbypass
    have hconn : (z.linkLayer dist x.count 0 ep).Connected := by
      unfold linkLayer
      rw [if_neg (Nat.not_lt_zero _)]
      intro i hi j hj
      refine Relation.ReflTransGen.mono (fun a b hlead => ?_) _ _ (hend i hi j hj)
      exact hlead.resolve_right fun hpend => List.not_mem_nil hpend.1
    rw [if_neg hm]
    dsimp only
    rw [hdown]
    split_ifs
    · exact hconn
    · exact hconn

/-! ### Runs -/

/-- **Adds whose prunes are bypassed** leave every vector findable. -/
theorem addAll_findable [Inhabited ε] (dist : ε → ε → δ) (config : HNSWConfig)
    (hc : config.Positive) (adds : List (ε × ℕ))
    (hb : Run.Along (fun x a => (x.add dist a.1 a.2).getD x) (fun x a => AddBypassed dist x a)
      (new config) adds) : ((new config).addAll dist adds).Findable dist := by
  have hinv := hb.invariant (I := fun x => x.Sound ∧ x.Connected ∧ x.config.Positive)
    (fun x a hx hb => ?_) ⟨sound_new config, fun i hi => absurd hi (Nat.not_lt_zero i), hc⟩
  · exact hinv.2.1.findable hinv.1
  · obtain ⟨hsound, hconn, hconfig⟩ := hx
    cases hadd : x.add dist a.1 a.2 with
    | none => exact ⟨hsound, hconn, hconfig⟩
    | some y =>
      obtain ⟨hy, hcy⟩ := hsound.add hconfig hadd
      refine ⟨hy, ?_, by rw [Option.getD_some, hcy]; exact hconfig⟩
      unfold HNSWIndex.add at hadd
      obtain ⟨z, hz, rfl⟩ := Option.map_eq_some_iff.1 hadd
      obtain ⟨hcz, hcount, -⟩ := frame_allocate hz
      have hid : x.count < z.count := by omega
      rw [Option.getD_some, link_eq_linkNode (hsound.toValid.allocate hz).1 (hcz ▸ hconfig.ef) hid]
      exact hconn.link hsound hconfig hz hb

/-- What the next section drops from a list of layer `0` is a neighbour of one that it keeps. -/
def bypassesAll (dist : ε → ε → δ) (id : InternalId) : HNSWIndex ε × Pc δ → Bool
  | (x, .backLink _ 0 _ _ e _) =>
    (x.links e 0 ++ [id]).all fun b => b ∈ x.withBackLink dist id 0 e ||
      (x.withBackLink dist id 0 e).any fun c => c ≠ e && b ∈ x.links c 0
  | _ => true

theorem addBypassed_of_bypassesAll {a : ε × ℕ} (hx : x.Valid) (hef : 1 ≤ x.config.ef)
    (h : ∀ y ∈ x.allocate a.1 a.2, ∀ n < y.linkSections,
      bypassesAll dist x.count (runSections dist x.count n (y, .start))) :
    AddBypassed dist x a := by
  intro y hy n
  obtain ⟨hconfig, hcount, -⟩ := frame_allocate hy
  have hid : x.count < y.count := by omega
  by_cases hn : n < y.linkSections
  · have hall := h y hy n hn
    generalize runSections dist x.count n (y, .start) = s at hall ⊢
    obtain ⟨z, pc⟩ := s
    cases pc with
    | backLink L lc ep W e rest =>
      cases lc with
      | zero =>
        intro b hb hdropped
        have hbypass := List.all_eq_true.1 hall b hb
        rw [Bool.or_eq_true, decide_eq_true_iff, List.any_eq_true] at hbypass
        obtain ⟨c, hc, hlead⟩ := hbypass.resolve_left hdropped
        rw [Bool.and_eq_true, decide_eq_true_iff, decide_eq_true_iff] at hlead
        exact ⟨c, hc, .single ⟨hlead.1, .inl hlead.2⟩⟩
      | succ lc => trivial
    | _ => trivial
  · -- the link has ended
    obtain ⟨k, rfl⟩ := Nat.exists_eq_add_of_le (Nat.le_of_not_lt hn)
    rw [runSections_add, link_eq (hx.allocate hy).1 (hconfig ▸ hef) hid, runSections_done]
    trivial

/-- The fourth node takes the second out of the list of the first, and the first out of the list of
the third; the third still leads to the second, and the fourth to the first. -/
theorem addAll_findable_bypassed :
    ((new { M := 2, Mmax0 := 2 } : HNSWIndex ℕ).addAll System.lineDist
      [(10, 0), (20, 0), (15, 0), (11, 0)]).Findable System.lineDist := by
  have hc : HNSWConfig.Positive { M := 2, Mmax0 := 2 } :=
    ⟨by decide, by decide, by decide, by decide⟩
  have hvalid : ∀ adds : List (ℕ × ℕ), ((new { M := 2, Mmax0 := 2 } : HNSWIndex ℕ).addAll
      System.lineDist adds).Valid := fun adds =>
    ((sound_new { M := 2, Mmax0 := 2 }).addAll System.lineDist hc adds).1.toValid
  exact addAll_findable System.lineDist { M := 2, Mmax0 := 2 } hc _
    ⟨addBypassed_of_bypassesAll (hvalid []) (by decide) (by decide +kernel),
      addBypassed_of_bypassesAll (hvalid [(10, 0)]) (by decide +kernel) (by decide +kernel),
      addBypassed_of_bypassesAll (hvalid [(10, 0), (20, 0)]) (by decide +kernel)
        (by decide +kernel),
      addBypassed_of_bypassesAll (hvalid [(10, 0), (20, 0), (15, 0)]) (by decide +kernel)
        (by decide +kernel),
      trivial⟩

/-- Lists of two. -/
def narrow : HNSWConfig := { M := 1, Mmax := 1, Mmax0 := 2, ef := 10 }

/-- **A vector is lost.**  The fourth node lies next to the first, whose list of two is full: the
prune drops the second node, which is in no other list, and a search for it finds the others. -/
theorem unfindable :
    let x := (new narrow : HNSWIndex ℕ).addAll System.lineDist [(10, 0), (20, 0), (9, 0), (11, 0)]
    (∀ a b, System.lineDist a b = System.lineDist b a) ∧ 1 ≤ narrow.M ∧ narrow.M ≤ narrow.Mmax ∧
      2 * narrow.M ≤ narrow.Mmax0 ∧ x.count ≤ narrow.ef ∧ x.count = 4 ∧
      (x.search System.lineDist 50 20 4).map Prod.fst = [3, 0, 2] :=
  ⟨fun a b => Nat.add_comm _ _, by decide, by decide, by decide, by decide +kernel,
    by decide +kernel, by decide +kernel⟩

end HNSWIndex

end Hnsw

end Vdb
