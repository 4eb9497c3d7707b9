import Vdb.BTree.Rebalance

/-!
# One call at a time

`BPlusTree.perform` runs a whole call with nothing in between.  Every call comes to an end, on a
well-formed tree it leaves a well-formed tree (`Alone.step`, `Alone.endsIn`), and so a run of calls
answers as a multiset of pairs does: `performAll_new`.
-/

namespace Vdb

namespace BTree

/-- A call of the whole interface. -/
inductive SeqOp where
  | insert (key : Key) (id : InternalId)
  | remove (key : Key) (id : InternalId)
  | find (key : Key)
  | range (lo hi : Key)
  | size
  deriving DecidableEq, Repr

inductive Reply where
  | unit
  | removed (found : Bool)
  | ids (ids : List InternalId)
  | entries (out : List Entry)
  | size (n : ℕ)
  /-- `std::length_error` -/
  | lengthError
  deriving DecidableEq, Repr

namespace BPlusTree

variable (t : BPlusTree)

/-- A whole call; `none` when it does not come to an end within `fuel` rounds, or loses its way. -/
def perform (fuel : ℕ) : SeqOp → Option (BPlusTree × Reply)
  | .insert key id =>
    match solo (.insert key id) fuel (t, .lockRoot) with
    | (t', .done _) => some (t', .unit)
    | (t', .threw) => some (t', .lengthError)
    | _ => none
  | .remove key id => (t.remove fuel key id).map fun (t', found) => (t', .removed found)
  | .find key =>
    match solo (.find key) fuel (t, .lockRoot) with
    | (t', .done out) => some (t', .ids (out.map Prod.snd))
    | _ => none
  | .range lo hi =>
    match solo (.range lo hi) fuel (t, .lockRoot) with
    | (t', .done out) => some (t', .entries out)
    | _ => none
  | .size => some (t, .size t.size)

/-- A run of calls, up to the first that throws. -/
def performAll (fuel : ℕ) : BPlusTree → List SeqOp → Option (BPlusTree × List Reply)
  | t, [] => some (t, [])
  | t, op :: ops =>
    match t.perform fuel op with
    | none => none
    | some (t', .lengthError) => some (t', [.lengthError])
    | some (t', r) => (performAll fuel t' ops).map fun (t'', rs) => (t'', r :: rs)

end BPlusTree

/-! ### The multiset of pairs -/

/-- What an operation makes of the stored pairs. -/
def SeqOp.after (m : Multiset Entry) : SeqOp → Multiset Entry
  | .insert key id => (key, id) ::ₘ m
  | .remove key id => m.erase (key, id)
  | _ => m

/-- The replies a multiset of pairs gives; the order of equal keys is left open. -/
inductive Legal (m : Multiset Entry) : SeqOp → Reply → Prop
  | insert (key : Key) (id : InternalId) : Legal m (.insert key id) .unit
  | remove (key : Key) (id : InternalId) :
      Legal m (.remove key id) (.removed (decide ((key, id) ∈ m)))
  | find {key : Key} {ids : List InternalId} :
      ↑ids = (m.filter fun e => e.1 = key).map Prod.snd → Legal m (.find key) (.ids ids)
  | range {lo hi : Key} {out : List Entry} : ↑out = m.filter (InRange lo hi) →
      (out.Pairwise fun a b => a.1 ≤ b.1) → Legal m (.range lo hi) (.entries out)
  | size : Legal m .size (.size m.card)

/-- The replies to a run of operations on a multiset of pairs. -/
inductive Answers : Multiset Entry → List SeqOp → List Reply → Prop
  | nil {m : Multiset Entry} : Answers m [] []
  | cons {m : Multiset Entry} {op : SeqOp} {r : Reply} {ops : List SeqOp} {rs : List Reply} :
      Legal m op r → Answers (op.after m) ops rs → Answers m (op :: ops) (r :: rs)

variable {t t' : BPlusTree} {g g' : Shape} {op : Op} {pc pc' : Pc} {key : Key} {id : InternalId}
  {cur child parent : NodeId} {sr : SplitResult} {m : Multiset Entry}

/-! ### Nodes that overflow -/

/-- What may follow the change `t₁` that has filled the node `cur`. -/
inductive Overflow (t₁ : BPlusTree) (cur : NodeId) : BPlusTree → Pc → Prop
  | fits : Overflow t₁ cur t₁ (.done [])
  | full : t₁.isFull = true → Overflow t₁ cur t₁ .threw
  | split {t₂ : BPlusTree} {sr : SplitResult} : t₂.cfg = t₁.cfg → t₂.size = t₁.size →
      (t₂.nodes cur).rightLink = some sr.right → Overflow t₁ cur t₂ (t₂.afterSplit cur sr)

theorem insertSection_overflow (t : BPlusTree) (cur : NodeId) (key : Key) (id : InternalId) :
    Overflow (t.insertEntry cur key id) cur
      (t.insertSection cur key id).1 (t.insertSection cur key id).2 := by
  unfold BPlusTree.insertSection
  dsimp only
  split_ifs
  · exact .fits
  · cases hsplit : (t.insertEntry cur key id).splitLeaf cur with
    | none =>
      refine .full ?_
      by_contra hfull
      simp [BPlusTree.splitLeaf, hfull] at hsplit
    | some res =>
      obtain ⟨h1, h2⟩ := splitLeaf_cfg hsplit
      refine .split h1 h2 ?_
      simp only [BPlusTree.splitLeaf] at hsplit
      split_ifs at hsplit
      cases hsplit
      simp

theorem spliceSection_overflow (t : BPlusTree) (parent child : NodeId) (sr : SplitResult) :
    Overflow (t.splice parent child sr) parent
      (t.spliceSection parent child sr).1 (t.spliceSection parent child sr).2 := by
  unfold BPlusTree.spliceSection
  dsimp only
  split_ifs
  · exact .fits
  · cases hsplit : (t.splice parent child sr).splitInternal parent with
    | none =>
      refine .full ?_
      by_contra hfull
      simp [BPlusTree.splitInternal, hfull] at hsplit
    | some res =>
      obtain ⟨h1, h2⟩ := splitInternal_cfg hsplit
      refine .split h1 h2 ?_
      simp only [BPlusTree.splitInternal] at hsplit
      split_ifs at hsplit
      cases hsplit
      simp

/-- The split a call is about to pass upwards. -/
def Pc.splitOf : Pc → Option (NodeId × SplitResult)
  | .relocate _ child sr => some (child, sr)
  | .growRoot child sr => some (child, sr)
  | .freshHint child sr => some (child, sr)
  | _ => none

/-- The halves of the split are still neighbours. -/
def Pc.Linked (t : BPlusTree) (pc : Pc) : Prop :=
  ∀ child sr, pc.splitOf = some (child, sr) → (t.nodes child).rightLink = some sr.right

/-- What a section keeps whatever it meets. -/
structure SectionKeeps (t : BPlusTree) (op : Op) (pc : Pc) (t' : BPlusTree) (pc' : Pc) : Prop where
  cfg : t'.cfg = t.cfg
  size : t'.size + (placed op pc).card = t.size + (placed op pc').card
  full : pc' = .threw → pc = .threw ∨ t'.isFull = true
  linked : pc.Linked t → pc'.Linked t'

theorem splitOf_afterSplit : (t.afterSplit child sr).splitOf = some (child, sr) := by
  unfold BPlusTree.afterSplit
  cases (t.nodes child).parentHint <;> rfl

theorem afterSplit_ne_threw : t.afterSplit child sr ≠ .threw := by
  unfold BPlusTree.afterSplit
  cases (t.nodes child).parentHint <;> exact Pc.noConfusion

theorem linked_of_none (h : pc.splitOf = none) : pc.Linked t := by
  intro child sr hs
  rw [h] at hs
  cases hs

theorem Overflow.keeps {t₁ : BPlusTree} (h : Overflow t₁ cur t' pc') (hcfg : t₁.cfg = t.cfg)
    (hsize : t₁.size + (placed op pc).card = t.size + (placed op (.done [])).card)
    (hplaced : ∀ c sr, placed op (t'.afterSplit c sr) = placed op (.done [])) :
    SectionKeeps t op pc t' pc' := by
  cases h with
  | fits => exact ⟨hcfg, hsize, Pc.noConfusion, fun _ => linked_of_none rfl⟩
  | full hfull =>
    refine ⟨hcfg, ?_, fun _ => .inr hfull, fun _ => linked_of_none rfl⟩
    rw [hsize]
    cases op <;> rfl
  | split h1 h2 h3 =>
    refine ⟨h1.trans hcfg, by rw [h2, hsize, hplaced], fun h => absurd h afterSplit_ne_threw, ?_⟩
    intro _ child sr hs
    rw [splitOf_afterSplit] at hs
    cases hs
    exact h3

theorem SectionKeeps.stay (hplaced : placed op pc' = placed op pc) (hne : pc' ≠ .threw)
    (hs : pc'.splitOf = none ∨ pc'.splitOf = pc.splitOf) : SectionKeeps t op pc t pc' := by
  refine ⟨rfl, by rw [hplaced], fun h => absurd h hne, fun hl => ?_⟩
  rcases hs with hs | hs
  · exact linked_of_none hs
  · intro child sr hc
    exact hl child sr (hs ▸ hc)

theorem placed_insert_afterSplit (c : NodeId) (sr : SplitResult) :
    placed (.insert key id) (t.afterSplit c sr) = placed (.insert key id) (.done []) :=
  placed_afterSplit

theorem placed_range {lo hi : Key} (pc : Pc) : placed (.range lo hi) pc = 0 := by
  cases pc <;> rfl

/-- **Every section** keeps the configuration, counts what it stores, throws only on a full arena
and leaves the halves of a pending split neighbours. -/
theorem runSection_keeps (t : BPlusTree) (op : Op) (pc : Pc) :
    SectionKeeps t op pc (t.runSection op pc).1 (t.runSection op pc).2 := by
  cases pc with
  | lockRoot =>
    cases op with
    | insert key id => exact .stay rfl Pc.noConfusion (.inl rfl)
    | range lo hi =>
      rw [BPlusTree.runSection]
      dsimp only
      split_ifs
      · exact .stay rfl Pc.noConfusion (.inl rfl)
      · exact .stay rfl Pc.noConfusion (.inl rfl)
  | descend cur out =>
    have hmove : ∀ x out', SectionKeeps t op (.descend cur out) t (.descend x out') := fun x out' =>
      .stay (by cases op <;> rfl) Pc.noConfusion (.inl rfl)
    -- a link that is missing ends the walk
    have hlost : SectionKeeps t op (.descend cur out) t .badLink :=
      .stay (by cases op <;> rfl) Pc.noConfusion (.inl rfl)
    cases op with
    | insert key id =>
      rw [BPlusTree.runSection]
      split_ifs
      · cases (t.nodes cur).rightLink with
        | none => exact hlost
        | some right => exact hmove right out
      · exact (insertSection_overflow t cur key id).keeps rfl rfl placed_insert_afterSplit
      · exact hmove _ out
    | range lo hi =>
      rw [BPlusTree.runSection]
      split_ifs
      · cases (t.nodes cur).rightLink with
        | none => exact hlost
        | some right => exact hmove right out
      · unfold BPlusTree.scanSection
        dsimp only
        split_ifs
        · exact .stay rfl Pc.noConfusion (.inl rfl)
        · cases (t.nodes cur).rightLink with
          | none => exact .stay rfl Pc.noConfusion (.inl rfl)
          | some right => exact hmove right _
      · exact hmove _ out
  | relocate cur child sr =>
    rw [BPlusTree.runSection]
    split_ifs
    · refine (spliceSection_overflow t cur child sr).keeps rfl ?_ fun c sr' => ?_
      · cases op <;> rfl
      · cases op with
        | insert key id => exact placed_insert_afterSplit c sr'
        | range lo hi => rw [placed_range, placed_range]
    · cases (t.nodes cur).rightLink with
      | none => cases op <;> exact .stay rfl Pc.noConfusion (.inl rfl)
      | some right => cases op <;> exact .stay rfl Pc.noConfusion (.inr rfl)
  | growRoot child sr =>
    rw [BPlusTree.runSection]
    split_ifs
    -- a root that cannot be allocated is the one way to throw here
    · cases hgrow : t.growRoot child sr with
      | none =>
        refine ⟨rfl, ?_, fun _ => .inr (growRoot_eq_none.1 hgrow), fun _ => linked_of_none rfl⟩
        cases op <;> rfl
      | some t' =>
        obtain ⟨h1, h2⟩ := growRoot_cfg hgrow
        refine ⟨h1, ?_, Pc.noConfusion, fun _ => linked_of_none rfl⟩
        dsimp only
        rw [h2]
        cases op <;> rfl
    · cases op <;> exact .stay rfl Pc.noConfusion (.inr rfl)
  | freshHint child sr =>
    rw [BPlusTree.runSection]
    cases (t.nodes child).parentHint with
    | none => cases op <;> exact .stay rfl Pc.noConfusion (.inr rfl)
    | some h => cases op <;> exact .stay rfl Pc.noConfusion (.inr rfl)
  | hintChild child sr newRoot =>
    refine ⟨rfl, ?_, Pc.noConfusion, fun _ => linked_of_none rfl⟩
    cases op <;> rfl
  | hintRight right newRoot =>
    refine ⟨rfl, ?_, Pc.noConfusion, fun _ => linked_of_none rfl⟩
    cases op <;> rfl
  | done out => exact .stay rfl Pc.noConfusion (.inl rfl)
  | threw => exact ⟨rfl, rfl, fun _ => .inl rfl, fun h => h⟩
  | targetLost => exact .stay rfl Pc.noConfusion (.inl rfl)
  | badLink => exact .stay rfl Pc.noConfusion (.inl rfl)

/-! ### A call alone -/

/-- A call with no other running, on a tree that held the pairs `m` when it started. -/
structure Alone (cfg : BTreeConfig) (m : Multiset Entry) (op : Op) (s : BPlusTree × Pc)
    (g : Shape) : Prop where
  cfg : s.1.cfg = cfg
  blink : BLink s.1 g
  call : CallOk s.1 g m op s.2
  contents : entriesOf s.1 (g.chain 0) = m + placed op s.2
  size : s.1.size = m.card + (placed op s.2).card
  linked : s.2.Linked s.1
  full : s.2 = .threw → s.1.isFull = true
  tidy : s.2 ≠ .threw → Tidy s.1 g s.2.pendingRight.toList s.2.owed

theorem WellFormed.alone (h : WellFormed t g) (hsize : t.size = (entriesOf t (g.chain 0)).card)
    (op : Op) : Alone t.cfg (entriesOf t (g.chain 0)) op (t, .lockRoot) g := by
  have hplaced : placed op .lockRoot = 0 := by cases op <;> rfl
  exact ⟨rfl, h.blink, by cases op <;> trivial, by rw [hplaced, add_zero],
    by rw [hplaced, Multiset.card_zero, add_zero, hsize], linked_of_none rfl, Pc.noConfusion,
    fun _ => (wellFormed_iff.1 h).2⟩

/-- A splice right behind its left half is in order. -/
theorem Pc.Linked.inOrder (h : pc.Linked t) (hcount : 0 < t.count)
    (hfull : ∀ child sr, pc = .growRoot child sr → t.root = child → t.isFull = false) :
    t.InOrder pc := by
  cases pc with
  | relocate cur child sr =>
    intro _ x hx
    obtain ⟨n, hn⟩ := Nat.exists_eq_succ_of_ne_zero hcount.ne'
    rw [hn, BPlusTree.between, h child sr rfl] at hx
    dsimp only at hx
    rw [if_pos rfl] at hx
    cases hx
  | growRoot child sr => exact hfull child sr rfl
  | _ => trivial

variable {cfg : BTreeConfig} {s : BPlusTree × Pc}

theorem Alone.step (h : Alone cfg m op s g) (hcap : 2 ≤ cfg.nodeCapacity) :
    Alone cfg m op (s.1.runSection op s.2) (g.next s.1 (s.1.runSection op s.2).2) := by
  obtain ⟨t, pc⟩ := s
  have hcfg : t.cfg = cfg := h.cfg
  have hk := runSection_keeps t op pc
  have hok := runSection_ok h.blink h.call (by rw [h.contents]; exact Multiset.le_add_right _ _)
  refine ⟨hk.cfg.trans hcfg, hok.blink, hok.call, ?_, ?_, hk.linked h.linked, fun hthrew => ?_,
    fun hgoes => ?_⟩
  · have hsec := hok.contents
    rw [h.contents] at hsec
    refine add_right_cancel (b := placed op pc) (hsec.trans ?_)
    dsimp only
    abel
  · have hsec := hk.size
    have hsize := h.size
    dsimp only at hsize ⊢
    omega
  · rcases hk.full hthrew with rfl | hfull
    · cases op <;> exact h.full rfl
    · exact hfull
  · have hne : pc ≠ .threw := by
      rintro rfl
      cases op <;> exact hgoes rfl
    have hin : t.InOrder pc := by
      refine h.linked.inOrder ((Nat.zero_le _).trans_lt (h.blink.lt_count _ _ h.blink.root_mem)) ?_
      rintro child sr rfl hroot
      rw [Bool.eq_false_iff]
      intro hfull
      refine hgoes ?_
      rw [BPlusTree.runSection, if_pos hroot, growRoot_eq_none.2 hfull]
    have hnext : Tidy (t.runSection op pc).1 (g.next t (t.runSection op pc).2)
        ((t.runSection op pc).2.pendingRight.toList ++ [])
        ((t.runSection op pc).2.owed ++ []) :=
      runSection_tidy h.blink (hcfg ▸ hcap) h.call hin (by simp) (by simp)
        (by simpa using h.tidy hne)
    rwa [List.append_nil, List.append_nil] at hnext

theorem Alone.solo (h : Alone cfg m op s g) (hcap : 2 ≤ cfg.nodeCapacity) (n : ℕ) :
    ∃ g', Alone cfg m op (BPlusTree.solo op n s) g' := by
  induction n generalizing s g with
  | zero => exact ⟨g, h⟩
  | succ n ih => exact ih (h.step hcap)

/-! ### Every call comes to an end -/

/-- The call has returned or thrown. -/
def Pc.Ended (pc : Pc) : Prop := pc = .threw ∨ ∃ out, pc = .done out

def Pc.ended : Pc → Bool
  | .threw => true
  | .done _ => true
  | _ => false

theorem Pc.ended_iff : pc.ended = true ↔ pc.Ended := by
  cases pc <;> simp [Pc.ended, Pc.Ended]

instance : DecidablePred Pc.Ended := fun _ => decidable_of_iff _ Pc.ended_iff

/-- The call comes to an end within `n` rounds. -/
def EndsIn (n : ℕ) (op : Op) (s : BPlusTree × Pc) : Prop := (BPlusTree.solo op n s).2.Ended

theorem solo_add (op : Op) (a b : ℕ) (s : BPlusTree × Pc) :
    BPlusTree.solo op (a + b) s = BPlusTree.solo op b (BPlusTree.solo op a s) := by
  induction a generalizing s with
  | zero => rw [Nat.zero_add]; rfl
  | succ a ih => rw [Nat.succ_add]; exact ih _

theorem solo_ended (h : pc.Ended) (n : ℕ) : BPlusTree.solo op n (t, pc) = (t, pc) := by
  have hstep : t.runSection op pc = (t, pc) := by
    rcases h with rfl | ⟨out, rfl⟩ <;> cases op <;> rfl
  induction n with
  | zero => rfl
  | succ n ih =>
    rw [BPlusTree.solo]
    rw [hstep, ih]

theorem EndsIn.mono {n k : ℕ} (h : EndsIn n op s) (hk : n ≤ k) : EndsIn k op s := by
  obtain ⟨k, rfl⟩ := Nat.exists_eq_add_of_le hk
  unfold EndsIn
  rw [solo_add, solo_ended h]
  exact h

theorem EndsIn.now {n : ℕ} (h : s.2.Ended) : EndsIn n op s :=
  EndsIn.mono (n := 0) h (Nat.zero_le n)

theorem EndsIn.later {n : ℕ} (h : EndsIn n op (s.1.runSection op s.2)) : EndsIn (n + 1) op s := h

theorem Holds.not_exceeds {x : NodeId} (h : Holds t g key x) :
    BPlusTree.exceeds (t.nodes x) key = false := by
  rw [Bool.eq_false_iff]
  intro hex
  obtain ⟨v, hv, hlt⟩ := exceeds_iff.1 hex
  exact absurd (h.2 v hv) (Nat.not_le.2 hlt)

/-- A reader walks over the leaves to the end of its interval, or of the leaves. -/
theorem BLink.scan_ends (hb : BLink t g) {lo hi : Key} : ∀ (post pre : List NodeId) (cur : NodeId)
    (out : List Entry), g.chain 0 = pre ++ cur :: post →
    EndsIn (post.length + 1) (.range lo hi) (t, .descend cur out) := by
  intro post
  induction post with
  | nil =>
    intro pre cur out hd
    have hleaf := (hb.leaf cur (by rw [hd]; simp)).1
    rcases hb.next hd with ⟨-, hlink, hhigh⟩ | ⟨_, _, he, -⟩
    · have hex : BPlusTree.exceeds (t.nodes cur) lo = false := by
        rw [BPlusTree.exceeds, hhigh]
      refine .later (.now ?_)
      rw [runSection_range lo hi hex hleaf]
      unfold BPlusTree.scanSection
      dsimp only
      rw [hlink]
      split_ifs <;> exact .inr ⟨_, rfl⟩
    · cases he
  | cons right post ih =>
    intro pre cur out hd
    have hleaf := (hb.leaf cur (by rw [hd]; simp)).1
    have hd' : g.chain 0 = (pre ++ [cur]) ++ right :: post := by rw [hd]; simp
    have hlink : (t.nodes cur).rightLink = some right := by
      rcases hb.next hd with ⟨he, -⟩ | ⟨_, _, he, hlink, -⟩
      · cases he
      · cases he
        exact hlink
    by_cases hex : BPlusTree.exceeds (t.nodes cur) lo = true
    · refine .later ?_
      rw [runSection_right (.range lo hi) hex hlink]
      exact ih _ right out hd'
    · refine .later ?_
      rw [runSection_range lo hi (Bool.not_eq_true _ ▸ hex) hleaf]
      unfold BPlusTree.scanSection
      dsimp only
      rw [hlink]
      split_ifs
      · exact .now (.inr ⟨_, rfl⟩)
      · exact ih _ right _ hd'

/-- A call that ends from every leaf for its key ends from every node for its key. -/
theorem Formed.descent_ends (h : Formed t g) {out : List Entry} {n : ℕ}
    (hleaf : ∀ leaf ∈ g.chain 0, Holds t g op.target leaf → EndsIn n op (t, .descend leaf out)) :
    ∀ (ℓ : ℕ) (x : NodeId), x ∈ g.chain ℓ → Holds t g op.target x →
      EndsIn (n + ℓ) op (t, .descend x out) := by
  intro ℓ
  induction ℓ with
  | zero => exact hleaf
  | succ ℓ ih =>
    intro x hx hk
    obtain ⟨hinner, hch, -⟩ := h.blink.internal ℓ x hx
    obtain ⟨hmem, hk'⟩ := h.holds_child hx hk
    refine .later ?_
    rw [runSection_child op hk.not_exceeds hinner]
    exact ih _ (hch _ hmem) hk'

theorem exists_pending {before : Multiset Entry}
    (h : CallOk t g before (.insert key id) (t'.afterSplit child sr)) :
    ∃ ℓ, Pending t g ℓ child sr := by
  unfold BPlusTree.afterSplit at h
  cases hh : (t'.nodes child).parentHint with
  | none =>
    rw [hh] at h
    exact h
  | some x =>
    rw [hh] at h
    obtain ⟨ℓ, hp, -⟩ := h
    exact ⟨ℓ, hp⟩

theorem top_next_afterSplit (g : Shape) (t t' : BPlusTree) (child : NodeId) (sr : SplitResult) :
    (g.next t (t'.afterSplit child sr)).top = g.top := by
  unfold BPlusTree.afterSplit
  cases (t'.nodes child).parentHint <;> (simp only [Shape.next]; split_ifs <;> rfl)

/-- A node without a hint is the root. -/
theorem Tidy.root_of_no_hint (ht : Tidy t g [sr.right] []) (hb : BLink t g) {ℓ : ℕ}
    (hp : Pending t g ℓ child sr) (hh : (t.nodes child).parentHint = none) : t.root = child := by
  have hne : child ∉ [sr.right] := by
    have hn := hp.after.nodup (hb.nodup ℓ)
    simpa using hn
  have htop : ℓ = g.top := by
    refine le_antisymm (hb.level_le_top hp.child_mem) (Nat.le_of_not_lt fun hlt => ?_)
    exact ht.hinted ℓ hlt child hp.child_mem hne (by simp) hh
  have hmem : child ∈ (g.chain g.top).filter (· ∉ [sr.right]) :=
    List.mem_filter.2 ⟨htop ▸ hp.child_mem, by simpa using hne⟩
  rw [ht.root_alone] at hmem
  exact (List.mem_singleton.1 hmem).symm

theorem growRoot_ends (hroot : t.root = child) :
    EndsIn 3 (.insert key id) (t, .growRoot child sr) := by
  refine .later ?_
  rw [BPlusTree.runSection, if_pos hroot]
  cases t.growRoot child sr with
  | none => exact .now (.inl rfl)
  | some t' => exact .later (.later (.now (.inr ⟨_, rfl⟩)))

/-- A full node may have been split: then the call goes on from there. -/
theorem Overflow.ends {t₁ : BPlusTree} {n : ℕ} (h : Overflow t₁ cur t' pc')
    (hnext : ∀ sr, pc' = t'.afterSplit cur sr → EndsIn n op (t', t'.afterSplit cur sr)) :
    EndsIn n op (t', pc') := by
  cases h with
  | fits => exact .now (.inr ⟨_, rfl⟩)
  | full => exact .now (.inl rfl)
  | split => exact hnext _ rfl

/-- A section allocates at most one node. -/
theorem count_runSection_le (t : BPlusTree) (op : Op) (pc : Pc) :
    (t.runSection op pc).1.count ≤ t.count + 1 := by
  cases pc with
  | descend cur out =>
    cases op with
    | insert key id =>
      rw [BPlusTree.runSection]
      split_ifs
      · cases (t.nodes cur).rightLink <;> exact Nat.le_succ _
      · unfold BPlusTree.insertSection
        dsimp only
        split_ifs
        · exact Nat.le_succ _
        · cases hs : (t.insertEntry cur key id).splitLeaf cur with
          | none => exact Nat.le_succ _
          | some r => exact (count_splitLeaf hs).le
      · exact Nat.le_succ _
    | range lo hi =>
      rw [BPlusTree.runSection]
      split_ifs
      · cases (t.nodes cur).rightLink <;> exact Nat.le_succ _
      · exact Nat.le_succ _
      · exact Nat.le_succ _
  | relocate cur child sr =>
    rw [BPlusTree.runSection]
    split_ifs
    · unfold BPlusTree.spliceSection
      dsimp only
      split_ifs
      · exact Nat.le_succ _
      · cases hs : (t.splice cur child sr).splitInternal cur with
        | none => exact Nat.le_succ _
        | some r => exact (count_splitInternal hs).le
    · cases (t.nodes cur).rightLink <;> exact Nat.le_succ _
  | growRoot child sr =>
    rw [BPlusTree.runSection]
    split_ifs
    · cases hs : t.growRoot child sr with
      | none => exact Nat.le_succ _
      | some t' => exact (growRoot_spec hs).1.le
    · exact Nat.le_succ _
  | freshHint child sr =>
    rw [BPlusTree.runSection]
    cases (t.nodes child).parentHint <;> exact Nat.le_succ _
  | lockRoot => cases op <;> exact Nat.le_succ _
  | _ => exact Nat.le_succ _

/-- Along right links the call comes to the parent of the split node. -/
theorem Alone.relocate_ends (hcap : 2 ≤ cfg.nodeCapacity) {ℓ n : ℕ} {x p : NodeId}
    {l : List NodeId}
    (hw : Spine.Walk.Visits (fun x => (t.nodes x).rightLink) (fun x => child ∈ (t.nodes x).children)
      p x l)
    (h : Alone cfg m (.insert key id) (t, .relocate x child sr) g)
    (hp : Pending t g ℓ child sr) (hpar : p ∈ g.chain (ℓ + 1))
    (hnext : ∀ t' g' sr', Alone cfg m (.insert key id) (t', t'.afterSplit p sr') g' →
      g'.top = g.top → t'.count ≤ t.count + 1 → p ∈ g'.chain (ℓ + 1) →
        EndsIn n (.insert key id) (t', t'.afterSplit p sr')) :
    EndsIn (n + (l.length + 1)) (.insert key id) (t, .relocate x child sr) := by
  induction l generalizing x with
  | nil =>
    obtain ⟨hm, rfl⟩ := hw
    refine .later ?_
    have hal := h.step hcap
    have hok := runSection_ok h.blink h.call (by rw [h.contents]; exact Multiset.le_add_right _ _)
    have hchain := hok.evolves.chain (ℓ + 1)
    have hcount := count_runSection_le t (.insert key id) (.relocate x child sr)
    dsimp only at hal hchain ⊢
    rw [BPlusTree.runSection, if_pos hm] at hal hchain hcount ⊢
    refine (spliceSection_overflow t x child sr).ends fun sr' hpc => ?_
    rw [hpc] at hal hchain
    refine hnext _ _ sr' ?_ (top_next_afterSplit g t _ x sr') hcount (hchain.subset hpar)
    rw [← hpc] at hal ⊢
    exact hal
  | cons right l ih =>
    obtain ⟨hn, hlink, hw⟩ := hw
    refine .later ?_
    have hal := h.step hcap
    dsimp only at hal hlink ⊢
    rw [BPlusTree.runSection, if_neg hn, hlink] at hal ⊢
    dsimp only at hal ⊢
    rw [next_relocate h.blink hp] at hal
    exact ih hw hal

/-- The splits of an insert climb to a node with room, or to the root. -/
theorem Alone.split_ends (hcap : 2 ≤ cfg.nodeCapacity) {N : ℕ} : ∀ (k : ℕ) {t : BPlusTree}
    {g : Shape} {ℓ : ℕ} {child : NodeId} {sr : SplitResult},
    Alone cfg m (.insert key id) (t, t.afterSplit child sr) g → child ∈ g.chain ℓ →
    g.top < ℓ + k → t.count + k ≤ N →
    EndsIn (k * N + 3) (.insert key id) (t, t.afterSplit child sr) := by
  intro k
  induction k with
  | zero =>
    intro t g ℓ child sr h hch hk
    exact absurd (h.blink.level_le_top hch) (Nat.not_le.2 hk)
  | succ k ih =>
    intro t g ℓ child sr h hch hk hN
    cases hh : (t.nodes child).parentHint with
    | none =>
      obtain ⟨ℓ', hp⟩ := exists_pending h.call
      have hsplit : t.afterSplit child sr = .growRoot child sr := by
        rw [BPlusTree.afterSplit, hh]
      rw [hsplit] at h ⊢
      exact (growRoot_ends (Tidy.root_of_no_hint (h.tidy Pc.noConfusion) h.blink hp hh)).mono
        (Nat.le_add_left _ _)
    | some x =>
      have hsplit : t.afterSplit child sr = .relocate x child sr := by
        rw [BPlusTree.afterSplit, hh]
      rw [hsplit] at h ⊢
      obtain ⟨ℓ', hp, hx, p, hpar, hw⟩ := h.call
      obtain rfl := h.blink.level_unique _ _ _ hp.child_mem hch
      obtain ⟨l, hl⟩ := hw.exists_visits
      -- the nodes on the way are distinct
      have hsub : x :: l ⊆ List.range t.count := fun y hy =>
        List.mem_range.2 (hl.mem (S := (· < t.count)) h.blink.link_lt hx y hy)
      have hlen : l.length + 1 ≤ t.count := by
        simpa using (hl.nodup.subperm hsub).length_le
      refine (h.relocate_ends (n := k * N + 3) hcap hl hp hpar
        fun t' g' sr' h' htop (hcount : t'.count ≤ t.count + 1) hp' =>
          ih h' hp' (by omega) (by omega)).mono ?_
      rw [Nat.succ_mul]
      omega

/-- As many rounds as a call alone in the tree can run. -/
def BPlusTree.rounds (t : BPlusTree) : ℕ := 2 * t.count * (t.count + 1) + 4

theorem BPlusTree.count_lt_rounds (t : BPlusTree) : t.count < t.rounds := by
  have hle : t.count ≤ t.count * (t.count + 1) := Nat.le_mul_of_pos_right _ t.count.succ_pos
  rw [rounds, Nat.mul_assoc]
  omega

/-- **Every call** on a well-formed tree comes to an end. -/
theorem Alone.endsIn (h : Alone cfg m op (t, .lockRoot) g) (hw : Formed t g)
    (hcap : 2 ≤ cfg.nodeCapacity) : EndsIn t.rounds op (t, .lockRoot) := by
  have htop := hw.blink.top_lt_count
  cases op with
  | insert key id =>
    have hroot : Alone cfg m (.insert key id) (t, .descend t.root []) g := h.step hcap
    have hleaf : ∀ leaf ∈ g.chain 0, Holds t g (Op.insert key id).target leaf →
        EndsIn ((g.top + 1) * (2 * t.count + 1) + 3 + 1) (.insert key id)
          (t, .descend leaf []) := by
      intro leaf hleaf hk
      have hl := (hw.blink.leaf leaf hleaf).1
      have hat : Alone cfg m (.insert key id) (t, .descend leaf []) g :=
        { hroot with
          call := ⟨0, hleaf, hk.1⟩
          linked := linked_of_none rfl
          full := Pc.noConfusion
          tidy := fun _ => hroot.tidy Pc.noConfusion }
      have hal := hat.step hcap
      have hcount := count_runSection_le t (.insert key id) (.descend leaf [])
      refine .later ?_
      dsimp only at hal ⊢
      rw [runSection_insert key id hk.not_exceeds hl] at hal hcount ⊢
      refine (insertSection_overflow t leaf key id).ends fun sr hpc => ?_
      rw [← Prod.mk.eta (p := t.insertSection leaf key id), hpc] at hal
      obtain ⟨ℓ, hp⟩ := exists_pending hal.call
      exact hal.split_ends hcap (g.top + 1) hp.child_mem
        (by rw [top_next_afterSplit]; omega) (by omega)
    have hdown : EndsIn ((g.top + 1) * (2 * t.count + 1) + 3 + 1 + g.top) (.insert key id)
        (t, .descend t.root []) :=
      hw.descent_ends hleaf g.top _ hw.blink.root_mem (hw.holds_root key)
    refine (EndsIn.later hdown).mono ?_
    have hlevels : (g.top + 1) * (2 * t.count + 1) ≤ t.count * (2 * t.count + 1) :=
      Nat.mul_le_mul_right _ htop
    have hrounds : t.rounds = t.count * (2 * t.count + 1) + t.count + 4 := by
      rw [BPlusTree.rounds, Nat.mul_succ, Nat.mul_succ, Nat.mul_comm (2 * t.count)]
      omega
    omega
  | range lo hi =>
    have hend : EndsIn (t.count + g.top + 1) (.range lo hi) (t, .lockRoot) := by
      refine .later ?_
      rw [BPlusTree.runSection]
      dsimp only
      split_ifs
      · exact .now (.inr ⟨_, rfl⟩)
      · refine hw.descent_ends (fun leaf hleaf _ => ?_) g.top _ hw.blink.root_mem (hw.holds_root lo)
        obtain ⟨pre, post, hd⟩ := List.append_of_mem hleaf
        have hlen := hw.blink.length_chain_le 0
        rw [hd, List.length_append, List.length_cons] at hlen
        exact (hw.blink.scan_ends post pre leaf [] hd).mono (by omega)
    have hle : 2 * t.count ≤ 2 * t.count * (t.count + 1) :=
      Nat.le_mul_of_pos_right _ t.count.succ_pos
    refine hend.mono ?_
    unfold BPlusTree.rounds
    omega

/-! ### Whole calls -/

/-- With enough rounds a call ends in a fixed way, and what it knew holds there. -/
theorem WellFormed.solo_spec (h : WellFormed t g)
    (hsize : t.size = (entriesOf t (g.chain 0)).card) (hcap : 2 ≤ t.cfg.nodeCapacity) (op : Op) :
    ∃ t' pc' g', (∀ fuel, t.rounds ≤ fuel → BPlusTree.solo op fuel (t, .lockRoot) = (t', pc')) ∧
      pc'.Ended ∧ Alone t.cfg (entriesOf t (g.chain 0)) op (t', pc') g' := by
  have halone := h.alone hsize op
  have hends := halone.endsIn h.toFormed hcap
  obtain ⟨g', hg'⟩ := halone.solo hcap t.rounds
  refine ⟨_, _, g', fun fuel hf => ?_, hends, hg'⟩
  obtain ⟨k, rfl⟩ := Nat.exists_eq_add_of_le hf
  rw [solo_add]
  exact solo_ended hends k

theorem Alone.wellFormed {out : List Entry} (h : Alone cfg m op (t, .done out) g) :
    WellFormed t g ∧ entriesOf t (g.chain 0) = m + placed op (.done out) ∧
      t.size = (entriesOf t (g.chain 0)).card := by
  refine ⟨wellFormed_iff.2 ⟨h.blink, h.tidy Pc.noConfusion⟩, h.contents, ?_⟩
  rw [h.contents, Multiset.card_add]
  exact h.size

/-- A finished query on a tree nobody else changes reports its interval. -/
theorem Alone.answer {lo hi : Key} {out : List Entry}
    (h : Alone cfg m (.range lo hi) (t, .done out) g) :
    ↑out = m.filter (InRange lo hi) ∧ out.Pairwise fun a b => a.1 ≤ b.1 := by
  have hans : Answer t g m lo hi out := h.call
  have hcont : entriesOf t (g.chain 0) = m := by
    rw [h.contents]
    exact add_zero m
  refine ⟨le_antisymm (Multiset.le_filter.2 ⟨hcont ▸ hans.sound, fun e he => ?_⟩) hans.complete,
    hans.sorted⟩
  exact hans.range e he

/-- What is asked of a tree between two calls: it stores the pairs `m`. -/
structure Stores (t : BPlusTree) (g : Shape) (m : Multiset Entry) : Prop where
  wellFormed : WellFormed t g
  contents : entriesOf t (g.chain 0) = m
  size : t.size = m.card

/-- A finished query leaves the tree as it was. -/
theorem Alone.stores {lo hi : Key} {out : List Entry}
    (h : Alone cfg m (.range lo hi) (t, .done out) g) : Stores t g m := by
  obtain ⟨hw, hcont, hsize⟩ := h.wellFormed
  rw [placed_range, add_zero] at hcont
  exact ⟨hw, hcont, hcont ▸ hsize⟩

theorem map_snd_filter (m : Multiset Entry) (key : Key) :
    (m.filter (InRange key key)).map Prod.snd = (m.filter fun e => e.1 = key).map Prod.snd := by
  congr 1
  refine Multiset.filter_congr fun e _ => ?_
  exact ⟨fun h => le_antisymm h.2 h.1, fun h => ⟨h.ge, h.le⟩⟩

/-- **One call** on a well-formed tree answers as the multiset of its pairs does, and leaves a
well-formed tree with the pairs it should; or it throws, and then the arena is full. -/
theorem Stores.perform (h : Stores t g m) (hcap : 2 ≤ t.cfg.nodeCapacity) (op : SeqOp) :
    ∃ t' r, (∀ fuel, t.rounds ≤ fuel → t.perform fuel op = some (t', r)) ∧
      (r = .lengthError ∧ t'.isFull = true ∨
        r ≠ .lengthError ∧ Legal m op r ∧ t'.cfg = t.cfg ∧ ∃ g', Stores t' g' (op.after m)) := by
  obtain ⟨hw, rfl, hsize⟩ := h
  -- a query ends with an answer
  have hquery : ∀ lo hi, ∃ t' out g', (∀ fuel, t.rounds ≤ fuel →
      BPlusTree.solo (.range lo hi) fuel (t, .lockRoot) = (t', .done out)) ∧
      Alone t.cfg (entriesOf t (g.chain 0)) (.range lo hi) (t', .done out) g' := by
    intro lo hi
    obtain ⟨t', pc', g', hn, hend, hal⟩ := hw.solo_spec hsize hcap (.range lo hi)
    rcases hend with rfl | ⟨out, rfl⟩
    · exact hal.call.elim
    · exact ⟨t', out, g', hn, hal⟩
  cases op with
  | insert key id =>
    obtain ⟨t', pc', g', hn, hend, hal⟩ := hw.solo_spec hsize hcap (.insert key id)
    rcases hend with rfl | ⟨out, rfl⟩
    · refine ⟨t', .lengthError, fun fuel hf => ?_, .inl ⟨rfl, hal.full rfl⟩⟩
      rw [BPlusTree.perform, hn fuel hf]
    · obtain ⟨hw', hcont, hsize'⟩ := hal.wellFormed
      have hcons : entriesOf t' (g'.chain 0) = (key, id) ::ₘ entriesOf t (g.chain 0) := by
        rw [hcont, add_comm]
        rfl
      rw [hcons] at hsize'
      refine ⟨t', .unit, fun fuel hf => ?_, .inr ⟨Reply.noConfusion, .insert key id, hal.cfg, g',
        hw', hcons, hsize'⟩⟩
      rw [BPlusTree.perform, hn fuel hf]
  | remove key id =>
    obtain ⟨t', g', hrem, hw', hcfg, -, hcont, hsize'⟩ := hw.remove_spec hcap key id
    refine ⟨t', _, fun fuel hf => ?_, .inr ⟨Reply.noConfusion, .remove key id, hcfg, g',
      hw', hcont, ?_⟩⟩
    · rw [BPlusTree.perform, hrem fuel (t.count_lt_rounds.trans_le hf)]
      rfl
    · rw [hsize', hsize]
      split_ifs with hm
      · exact (Multiset.card_erase_of_mem hm).symm
      · exact congrArg Multiset.card (Multiset.erase_of_notMem hm).symm
  | find key =>
    obtain ⟨t', out, g', hn, hal⟩ := hquery key key
    refine ⟨t', .ids (out.map Prod.snd), fun fuel hf => ?_,
      .inr ⟨Reply.noConfusion, .find ?_, hal.cfg, g', hal.stores⟩⟩
    · rw [BPlusTree.perform, hn fuel hf]
    · rw [← map_snd_filter, ← hal.answer.1, Multiset.map_coe]
  | range lo hi =>
    obtain ⟨t', out, g', hn, hal⟩ := hquery lo hi
    refine ⟨t', .entries out, fun fuel hf => ?_,
      .inr ⟨Reply.noConfusion, .range hal.answer.1 hal.answer.2, hal.cfg, g', hal.stores⟩⟩
    rw [BPlusTree.perform, hn fuel hf]
  | size =>
    exact ⟨t, _, fun _ _ => rfl, .inr ⟨Reply.noConfusion, hsize ▸ .size, rfl, g, hw, rfl, hsize⟩⟩

/-! ### Runs of calls -/

/-- The replies to a run of calls: all legal, or the last one a throw of an insert into a full
arena. -/
def RunOk (m : Multiset Entry) (ops : List SeqOp) (t : BPlusTree) (rs : List Reply) : Prop :=
  Answers m ops rs ∨ ∃ done op rest rs', ops = done ++ op :: rest ∧ rs = rs' ++ [.lengthError] ∧
    Answers m done rs' ∧ t.isFull = true

theorem performAll_cons {fuel : ℕ} {sop : SeqOp} {ops : List SeqOp} {r : Reply}
    (h : t.perform fuel sop = some (t', r)) (hr : r ≠ .lengthError) :
    t.performAll fuel (sop :: ops) =
      (t'.performAll fuel ops).map fun (t'', rs) => (t'', r :: rs) := by
  rw [BPlusTree.performAll]
  rw [h]
  cases r <;> first | rfl | exact absurd rfl hr

/-- **Every run of calls** on a well-formed tree comes to an end and answers as a multiset. -/
theorem Stores.performAll (h : Stores t g m) (hcap : 2 ≤ t.cfg.nodeCapacity) (ops : List SeqOp) :
    ∃ n t' rs, (∀ fuel, n ≤ fuel → t.performAll fuel ops = some (t', rs)) ∧
      RunOk m ops t' rs := by
  induction ops generalizing t g m with
  | nil => exact ⟨0, t, [], fun _ _ => rfl, .inl .nil⟩
  | cons op ops ih =>
    obtain ⟨t₁, r, hn, ⟨rfl, hfull⟩ | ⟨hr, hlegal, hcfg, g₁, h₁⟩⟩ := h.perform hcap op
    · refine ⟨t.rounds, t₁, [.lengthError], fun fuel hf => ?_,
        .inr ⟨[], op, ops, [], rfl, rfl, .nil, hfull⟩⟩
      rw [BPlusTree.performAll]
      rw [hn fuel hf]
    · obtain ⟨n', t', rs, hn', hok⟩ := ih h₁ (by rwa [hcfg])
      refine ⟨max t.rounds n', t', r :: rs, fun fuel hf => ?_, ?_⟩
      · rw [performAll_cons (hn fuel (le_of_max_le_left hf)) hr,
          hn' fuel (le_of_max_le_right hf)]
        rfl
      · rcases hok with hans | ⟨done, op', rest, rs', rfl, rfl, hans, hfull⟩
        · exact .inl (.cons hlegal hans)
        · exact .inr ⟨op :: done, op', rest, r :: rs', rfl, rfl, .cons hlegal hans, hfull⟩

/-- **The tree is a multiset of pairs.**  Every run of calls on an empty tree comes to an end, and
its replies are those of a multiset of pairs, unless the arena is exhausted: then the replies up to
the insert that throws are. -/
theorem performAll_new (cfg : BTreeConfig) (hcap : 2 ≤ cfg.nodeCapacity) (ops : List SeqOp) :
    ∃ n t rs, (∀ fuel, n ≤ fuel → (BPlusTree.new cfg).performAll fuel ops = some (t, rs)) ∧
      RunOk 0 ops t rs :=
  Stores.performAll ⟨wellFormed_new cfg, rfl, rfl⟩ hcap ops

/-- Equal keys that fill several leaves of two keys each. -/
theorem performAll_new_duplicates : ∃ n t rs,
    (∀ fuel, n ≤ fuel → (BPlusTree.new { nodeCapacity := 2 }).performAll fuel
      (List.replicate 7 (.insert 5 1) ++ [.insert 5 2, .remove 5 2, .remove 5 2, .range 0 9]) =
        some (t, rs)) ∧
    RunOk 0 (List.replicate 7 (.insert 5 1) ++
      [.insert 5 2, .remove 5 2, .remove 5 2, .range 0 9]) t rs :=
  performAll_new { nodeCapacity := 2 } (by decide) _

end BTree

end Vdb
