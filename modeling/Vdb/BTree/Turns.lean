import Vdb.BTree.Moves
import Vdb.BTree.Sequential
import Vdb.Lib.Run

/-!
# Calls that end

`System.Running` adds to the invariant of the interleavings what the calls still have to do: each
action leaves no call more, and the call that it advances less.  From it:

* `System.ends_of_advancing` : a call that has been advanced often enough has ended.
* `System.Running.ready` : unless an insert has thrown, some call can be advanced as long as not all
  have ended.
* `System.queries_correct` : what a query among concurrent inserts reports, and that it returns.
-/

namespace Vdb

namespace BTree

variable {g : Shape} {child : NodeId} {N ℓ : ℕ} {pre post : List NodeId} {lo hi : Key}

/-! ### Runs -/

/-- A turn of the `i`-th call. -/
def Action.turn (i : ℕ) : Action → Bool
  | .invoke _ => false
  | .run j => j == i

/-- The next section of the call leaves it waiting for the hint of a node. -/
def Call.waits (t : BPlusTree) (c : Call) : Bool :=
  c.pc.isWaiting && (t.runSection c.op c.pc).2.isWaiting

namespace System

/-- The action is a turn of the `i`-th call, and does not leave it waiting. -/
def advances (s : System) (i : ℕ) (a : Action) : Bool :=
  a.turn i && !s.calls[i]?.any (Call.waits s.tree)

/-- How many of the actions are turns of the `i`-th call that do not leave it waiting. -/
def advancing (i : ℕ) : System → List Action → ℕ
  | _, [] => 0
  | s, a :: acts => (s.advances i a).toNat + advancing i (s.act a) acts

/-- The invariant of a run, with what the calls still have to do. -/
structure Running (s : System) (g : Shape) : Prop where
  inv : s.Inv 0 (fun _ => 0) g
  hinted : Hinted s.tree g
  climbs : ∀ c ∈ s.calls, c.pc.Climbs g
  /-- A node waits for its hint only while a call owes it. -/
  owed : (∃ c ∈ s.calls, c.pc = .threw) ∨
    ∀ x, Unhinted s.tree g x → x = s.tree.root ∨ ∃ c ∈ s.calls, x ∈ c.pc.owes

variable {s : System} {i : ℕ} {c : Call} {a : Action} {acts : List Action}

theorem running_new (cfg : BTreeConfig) :
    (new cfg).Running ⟨0, fun ℓ => if ℓ = 0 then [0] else [], fun _ => none⟩ where
  inv := inv_new cfg
  hinted ℓ x _ h hx := by cases hx
  climbs := nofun
  owed := by
    refine .inr fun x hx => .inl ?_
    obtain ⟨⟨ℓ, hx⟩, -⟩ := hx
    dsimp only at hx
    split_ifs at hx
    · exact List.mem_singleton.1 hx
    · cases hx

/-- Starting a call changes nothing for the others. -/
theorem Running.invoke (h : s.Running g) (op : Op) : (s.act (.invoke op)).Running g where
  inv := h.inv.invoke op (Multiset.zero_le _)
  hinted := h.hinted
  climbs c hc := by
    rcases List.mem_append.1 hc with hc | hc
    · exact h.climbs c hc
    · rw [List.mem_singleton.1 hc]
      trivial
  owed := by
    refine h.owed.imp (fun ⟨c, hc, hthrew⟩ => ⟨c, List.mem_append_left _ hc, hthrew⟩) ?_
    exact fun howed x hx => (howed x hx).imp_right fun ⟨c, hc, hxc⟩ =>
      ⟨c, List.mem_append_left _ hc, hxc⟩

/-- Running a section of one call leaves the others no more to do, and that call less. -/
theorem Running.step (h : s.Running g) (hc : s.calls[i]? = some c) :
    (s.act (.run i)).Running (g.next s.tree (s.tree.runSection c.op c.pc).2) ∧
      Evolves s.tree g (s.act (.run i)).tree (g.next s.tree (s.tree.runSection c.op c.pc).2) ∧
      Moves s.tree g c.op c.pc (s.act (.run i)).tree (s.tree.runSection c.op c.pc).2
        (g.next s.tree (s.tree.runSection c.op c.pc).2) := by
  have hmem := List.mem_of_getElem? hc
  have hok := runSection_ok h.inv.blink (h.inv.call i c hc) (Multiset.zero_le _)
  have hm := runSection_moves h.inv.blink h.hinted (h.inv.call i c hc) (h.climbs c hmem)
  have hinv := h.inv.step hc
  rw [act_run hc] at hinv ⊢
  refine ⟨⟨hinv, hm.hinted, fun d hd => ?_, ?_⟩, hok.evolves, hm⟩
  · rcases List.mem_or_eq_of_mem_set hd with hd | rfl
    · exact (h.climbs d hd).evolves hok.evolves
    · exact hm.climbs
  set pc' := (s.tree.runSection c.op c.pc).2
  have hlt : i < s.calls.length := (List.getElem?_eq_some_iff.1 hc).1
  have hnew : (⟨c.op, pc'⟩ : Call) ∈ s.calls.set i ⟨c.op, pc'⟩ := List.mem_set hlt _
  -- a call other than the `i`-th stays
  have hkeep : ∀ d ∈ s.calls, d ≠ c → d ∈ s.calls.set i ⟨c.op, pc'⟩ := by
    intro d hd hne
    obtain ⟨j, hj⟩ := List.getElem?_of_mem hd
    refine List.mem_of_getElem? (i := j) ((List.getElem?_set_ne ?_).trans hj)
    rintro rfl
    rw [hc] at hj
    exact hne (Option.some.inj hj).symm
  rcases h.owed with ⟨d, hd, hthrew⟩ | howed
  · left
    by_cases hdc : d = c
    · refine ⟨_, hnew, ?_⟩
      show (s.tree.runSection c.op c.pc).2 = .threw
      rw [← hdc, hthrew]
      cases d.op <;> rfl
    · exact ⟨d, hkeep d hd hdc, hthrew⟩
  · refine hm.informs.imp (fun hthrew => ⟨_, hnew, hthrew⟩) fun hinforms x hx => ?_
    rcases hinforms x hx with hroot | howes | ⟨hold, hne, hnot⟩
    · exact .inl hroot
    · exact .inr ⟨_, hnew, howes⟩
    · obtain ⟨d, hd, hxd⟩ := (howed x hold).resolve_left hne
      exact .inr ⟨d, hkeep d hd fun hdc => hnot (hdc ▸ hxd), hxd⟩

/-- **One action** leaves no call more to do, and the call that it advances less. -/
theorem Running.act (h : s.Running g) (a : Action) : ∃ g', (s.act a).Running g' ∧
    s.tree.count ≤ (s.act a).tree.count ∧ ∀ i c, s.calls[i]? = some c → ∃ pc,
      (s.act a).calls[i]? = some ⟨c.op, pc⟩ ∧ ∀ N, (s.act a).tree.count ≤ N →
        pc.work g' N c.op ≤ c.pc.work g N c.op - (s.advances i a).toNat := by
  cases a with
  | invoke op =>
    refine ⟨g, h.invoke op, le_rfl, fun i c hc => ⟨c.pc, ?_, fun N _ => le_rfl⟩⟩
    exact (List.getElem?_append_left (List.getElem?_eq_some_iff.1 hc).1).trans hc
  | run j =>
    cases hj : s.calls[j]? with
    | none =>
      have hsame : s.act (.run j) = s := by simp [System.act, hj]
      rw [hsame]
      refine ⟨g, h, le_rfl, fun i c hc => ⟨c.pc, hc, fun N _ => ?_⟩⟩
      have hne : (j == i) = false := by
        rw [beq_eq_false_iff_ne]
        rintro rfl
        rw [hj] at hc
        cases hc
      rw [advances, Action.turn, hne]
      exact le_rfl
    | some c =>
      obtain ⟨hrun, hev, hm⟩ := h.step hj
      refine ⟨_, hrun, hev.count, fun i d hd => ?_⟩
      have hlt : j < s.calls.length := (List.getElem?_eq_some_iff.1 hj).1
      by_cases hij : j = i
      · subst hij
        obtain rfl : c = d := Option.some.inj (hj.symm.trans hd)
        refine ⟨_, by rw [act_run hj]; exact List.getElem?_set_self hlt, fun N hN => ?_⟩
        rw [advances, Action.turn, beq_self_eq_true, hj, Bool.true_and]
        exact hm.work N hN
      · refine ⟨d.pc, by rw [act_run hj]; exact (List.getElem?_set_ne hij).trans hd, fun N _ => ?_⟩
        rw [advances, Action.turn, beq_eq_false_iff_ne.2 hij]
        exact Pc.work_le hrun.inv.blink hev d.pc

/-- What is left to the `i`-th call after a run. -/
theorem Running.exec (h : s.Running g) (acts : List Action) (hN : (s.exec acts).tree.count ≤ N)
    (hc : s.calls[i]? = some c) : ∃ g' pc, (s.exec acts).Running g' ∧
      (s.exec acts).calls[i]? = some ⟨c.op, pc⟩ ∧ s.tree.count ≤ (s.exec acts).tree.count ∧
      pc.work g' N c.op ≤ c.pc.work g N c.op - advancing i s acts := by
  induction acts generalizing s g c with
  | nil => exact ⟨g, c.pc, h, hc, le_rfl, le_rfl⟩
  | cons a acts ih =>
    obtain ⟨g₁, h₁, hcount, hcalls⟩ := h.act a
    obtain ⟨pc₁, hpc₁, hwork₁⟩ := hcalls i c hc
    obtain ⟨g', pc, hrun, hpc, hcount', hwork⟩ := ih h₁ hN hpc₁
    refine ⟨g', pc, hrun, hpc, hcount.trans hcount', hwork.trans ?_⟩
    have hle := hwork₁ N (hcount'.trans hN)
    rw [advancing, Nat.sub_add_eq]
    exact Nat.sub_le_sub_right hle _

theorem Running.exec_new (cfg : BTreeConfig) (acts : List Action) :
    ∃ g, ((new cfg).exec acts).Running g :=
  Run.invariant (I := fun s : System => ∃ g, s.Running g)
    (fun _ a ⟨_, h⟩ => (h.act a).imp fun _ h => h.1) ⟨_, running_new cfg⟩ acts

/-- A call with nothing left to do has ended. -/
theorem Running.ended (h : s.Running g) (hc : s.calls[i]? = some c)
    (hwork : c.pc.work g s.tree.count c.op = 0) : c.pc.Ended := by
  have hb := h.inv.blink
  have hok := h.inv.call i c hc
  obtain ⟨op, pc⟩ := c
  have hahead : ∀ {R : ℕ → ℕ → Prop} [Std.Irrefl R] {cur}, (∃ ℓ, cur ∈ g.chain ℓ) →
      0 < g.ahead s.tree.count R cur := fun ⟨_, hcur⟩ => ahead_pos hb hcur le_rfl
  cases pc with
  | lockRoot => exact absurd hwork (by simp only [Pc.work]; omega)
  | descend cur out =>
    have hpos : 0 < g.ahead s.tree.count (· > ·) cur := hahead ?_
    · exact absurd hwork (by simp only [Pc.work]; omega)
    · cases op with
      | insert key id => exact hok.imp fun _ h => h.1
      | range lo hi =>
        rcases hok with ⟨-, ℓ, hcur, -⟩ | ⟨pre, post, hs⟩
        · exact ⟨ℓ, hcur⟩
        · exact ⟨0, hs.cut ▸ List.mem_append_right _ List.mem_cons_self⟩
  | relocate cur child sr => exact absurd hwork (Nat.succ_ne_zero _)
  | growRoot child sr =>
    cases op with
    | insert key id =>
      have hpos := hahead (R := (· < ·)) (hok.imp fun _ h => h.child_mem)
      exact absurd hwork (by simp only [Pc.work]; omega)
    | range lo hi => exact hok.elim
  | freshHint child sr =>
    cases op with
    | insert key id =>
      have hpos := hahead (R := (· < ·)) (hok.imp fun _ h => h.child_mem)
      exact absurd hwork (by simp only [Pc.work]; omega)
    | range lo hi => exact hok.elim
  | hintChild child sr newRoot => exact absurd hwork (Nat.succ_ne_zero _)
  | hintRight right newRoot => exact absurd hwork (Nat.succ_ne_zero _)
  | done out => exact .inr ⟨out, rfl⟩
  | threw => exact .inl rfl
  | targetLost => cases op <;> exact hok.elim
  | badLink => cases op <;> exact hok.elim

theorem getElem?_invoke (op : Op) :
    (s.act (.invoke op)).calls[s.calls.length]? = some ⟨op, .lockRoot⟩ := by
  rw [System.act, List.getElem?_append_right le_rfl, Nat.sub_self, List.getElem?_cons_zero]

theorem advancing_invoke (op : Op) (i : ℕ) (acts : List Action) :
    advancing i s (.invoke op :: acts) = advancing i (s.act (.invoke op)) acts :=
  Nat.zero_add _

/-- The turns that a new call needs. -/
def turnsNeeded (s : System) : Op → ℕ
  | .insert _ _ => 4 * s.tree.count + 2
  | .range _ _ => s.tree.count + 1

/-- A call that has been advanced often enough has ended. -/
theorem ends_of_advancing (cfg : BTreeConfig) (before after : List Action) (op : Op)
    (hi : ((new cfg).exec before).calls.length = i)
    (hadv : (((new cfg).exec before).exec (.invoke op :: after)).turnsNeeded op ≤
      advancing i ((new cfg).exec before) (.invoke op :: after)) :
    ∃ pc, (((new cfg).exec before).exec (.invoke op :: after)).calls[i]? = some ⟨op, pc⟩ ∧
      pc.Ended := by
  obtain ⟨g, h⟩ := Running.exec_new cfg before
  set s := (new cfg).exec before
  have hstart : (s.act (.invoke op)).calls[i]? = some ⟨op, .lockRoot⟩ := hi ▸ getElem?_invoke op
  obtain ⟨g', pc, hrun, hpc, -, hwork⟩ := (h.invoke op).exec after le_rfl hstart
  refine ⟨pc, hpc, hrun.ended hpc (Nat.le_zero.1 (hwork.trans (Nat.sub_eq_zero_of_le ?_).le))⟩
  have hneed : Pc.lockRoot.work g (s.exec (.invoke op :: after)).tree.count op =
      (s.exec (.invoke op :: after)).turnsNeeded op := by
    cases op with
    | insert key id =>
      simp only [Pc.work, climbWork, turnsNeeded]
      omega
    | range lo hi => rfl
  rw [advancing_invoke, ← hneed] at hadv
  exact hadv

/-- Every turn of a query advances it. -/
theorem Running.advancing_range (h : s.Running g) {pc : Pc}
    (hc : s.calls[i]? = some ⟨.range lo hi, pc⟩) (acts : List Action) :
    advancing i s acts = acts.countP (Action.turn i) := by
  induction acts generalizing s g pc with
  | nil => rfl
  | cons a acts ih =>
    obtain ⟨g₁, h₁, -, hcalls⟩ := h.act a
    obtain ⟨pc₁, hpc₁, -⟩ := hcalls i _ hc
    have hwaits : Call.waits s.tree ⟨.range lo hi, pc⟩ = false := by
      have hok := h.inv.call i _ hc
      cases pc with
      | growRoot child sr => exact hok.elim
      | freshHint child sr => exact hok.elim
      | _ => rfl
    rw [advancing, ih h₁ hpc₁, advances, hc, Option.any_some, hwaits, Bool.not_false, Bool.and_true,
      List.countP_cons]
    cases a.turn i <;> simp [Nat.add_comm]

/-! ### Progress -/

/-- The call has not ended, and its next turn, or else the one after, advances it. -/
def Ready (s : System) (i : ℕ) : Prop :=
  (∃ c, s.calls[i]? = some c ∧ ¬ c.pc.Ended) ∧
    (s.advances i (.run i) = true ∨ (s.act (.run i)).advances i (.run i) = true)

theorem advances_run (hc : s.calls[i]? = some c) :
    s.advances i (.run i) = !c.waits s.tree := by
  rw [advances, Action.turn, beq_self_eq_true, hc, Option.any_some, Bool.true_and]

/-- A call that does not wait is ready. -/
theorem ready_of_not_waits (hc : s.calls[i]? = some c) (hend : ¬ c.pc.Ended)
    (hw : c.waits s.tree = false) : s.Ready i :=
  ⟨⟨c, hc, hend⟩, .inl (by rw [advances_run hc, hw]; rfl)⟩

/-- Nor does one wait for long once the node is the root, or has its hint: it comes to the other
place of the loop, and finds out there. -/
theorem ready_of_waits {op : Op} {pc pc' : Pc} (hc : s.calls[i]? = some ⟨op, pc⟩)
    (hend : ¬ pc.Ended)
    (hnext : s.tree.runSection op pc = (s.tree, pc'))
    (hw : Call.waits s.tree ⟨op, pc'⟩ = false) : s.Ready i := by
  refine ⟨⟨_, hc, hend⟩, .inr ?_⟩
  have hlt : i < s.calls.length := (List.getElem?_eq_some_iff.1 hc).1
  have hact : s.act (.run i) = ⟨s.tree, s.calls.set i ⟨op, pc'⟩⟩ := by rw [act_run hc, hnext]
  rw [hact, advances_run (List.getElem?_set_self hlt)]
  show (!Call.waits s.tree ⟨op, pc'⟩) = true
  rw [hw]
  rfl

theorem waits_growRoot {t : BPlusTree} (op : Op) (sr : SplitResult) (h : t.root = child) :
    Call.waits t ⟨op, .growRoot child sr⟩ = false := by
  rw [Call.waits, BPlusTree.runSection, if_pos h]
  cases t.growRoot child sr <;> rfl

theorem waits_freshHint {t : BPlusTree} (op : Op) (sr : SplitResult)
    (h : (t.nodes child).parentHint ≠ none) :
    Call.waits t ⟨op, .freshHint child sr⟩ = false := by
  obtain ⟨p, hp⟩ := Option.ne_none_iff_exists'.1 h
  rw [Call.waits, BPlusTree.runSection, hp]
  rfl

/-- A call that waits for the hint of a node which is the root, or has its hint, is ready. -/
theorem ready_of_informed {sr : SplitResult} (hc : s.calls[i]? = some c)
    (hpc : c.pc = .growRoot child sr ∨ c.pc = .freshHint child sr)
    (hinf : s.tree.root = child ∨ (s.tree.nodes child).parentHint ≠ none) : s.Ready i := by
  obtain ⟨op, pc⟩ := c
  rcases hpc with rfl | rfl
  · by_cases hroot : s.tree.root = child
    · exact ready_of_not_waits hc (by simp [Pc.Ended]) (waits_growRoot op sr hroot)
    · refine ready_of_waits hc (by simp [Pc.Ended]) ?_
        (waits_freshHint op sr (hinf.resolve_left hroot))
      rw [BPlusTree.runSection, if_neg hroot]
  · by_cases hhint : (s.tree.nodes child).parentHint = none
    · refine ready_of_waits hc (by simp [Pc.Ended]) ?_
        (waits_growRoot op sr (hinf.resolve_right (not_not_intro hhint)))
      rw [BPlusTree.runSection, hhint]
    · exact ready_of_not_waits hc (by simp [Pc.Ended]) (waits_freshHint op sr hhint)

/-- If a call waits for the hint of a node, the call that owes the hint is not waiting itself, or it
waits for the hint of a node further left. -/
theorem Running.ready_of_waiting (h : s.Running g) (hthrew : ∀ c ∈ s.calls, c.pc ≠ .threw)
    {sr : SplitResult} (hd : g.chain ℓ = pre ++ child :: post) (hc : s.calls[i]? = some c)
    (hpc : c.pc = .growRoot child sr ∨ c.pc = .freshHint child sr) : ∃ j, s.Ready j := by
  induction hn : pre.length using Nat.strong_induction_on generalizing pre post child sr i c with
  | h n ih =>
    have hb := h.inv.blink
    have hchild : child ∈ g.chain ℓ := by
      rw [hd]
      exact List.mem_append_right _ List.mem_cons_self
    by_cases hinf : s.tree.root = child ∨ (s.tree.nodes child).parentHint ≠ none
    · exact ⟨i, ready_of_informed hc hpc hinf⟩
    rw [not_or, not_not] at hinf
    have howed := h.owed.resolve_left fun ⟨d, hd, hdt⟩ => hthrew d hd hdt
    obtain ⟨d, hdm, hdc⟩ := (howed child ⟨⟨ℓ, hchild⟩, hinf.2⟩).resolve_left (Ne.symm hinf.1)
    obtain ⟨j, hj⟩ := List.getElem?_of_mem hdm
    have hok := h.inv.call j d hj
    obtain ⟨op, pc⟩ := d
    -- the node of a call that waits is further left
    have hleft : ∀ {x sr'}, (pc = .growRoot x sr' ∨ pc = .freshHint x sr') →
        (∃ ℓ', Pending s.tree g ℓ' x sr') → child = sr'.right → ∃ j, s.Ready j := by
      rintro x sr' hpc' ⟨ℓ', hpend⟩ rfl
      obtain rfl := hb.level_unique ℓ' ℓ _ hpend.right_mem hchild
      obtain ⟨pre₁, pre₂, rfl⟩ := List.append_of_mem
        (ListEdit.cut_of_pair hpend.after hd (hb.nodup ℓ'))
      have hcut : g.chain ℓ' = pre₁ ++ x :: (pre₂ ++ sr'.right :: post) := by
        rw [hd, List.append_assoc, List.cons_append]
      refine ih pre₁.length ?_ hcut hj hpc' rfl
      rw [← hn, List.length_append, List.length_cons]
      omega
    cases pc with
    | relocate cur x sr' => exact ⟨j, ready_of_not_waits hj (by simp [Pc.Ended]) rfl⟩
    | hintChild x sr' newRoot => exact ⟨j, ready_of_not_waits hj (by simp [Pc.Ended]) rfl⟩
    | hintRight right newRoot => exact ⟨j, ready_of_not_waits hj (by simp [Pc.Ended]) rfl⟩
    | growRoot x sr' =>
      cases op with
      | insert key id => exact hleft (.inl rfl) hok (List.mem_singleton.1 hdc)
      | range lo hi => exact hok.elim
    | freshHint x sr' =>
      cases op with
      | insert key id => exact hleft (.inr rfl) hok (List.mem_singleton.1 hdc)
      | range lo hi => exact hok.elim
    | _ => cases hdc

/-- Some call is ready as long as not all have ended and none has thrown. -/
theorem Running.ready (h : s.Running g) (hthrew : ∀ c ∈ s.calls, c.pc ≠ .threw)
    (hc : c ∈ s.calls) (hend : ¬ c.pc.Ended) : ∃ j, s.Ready j := by
  obtain ⟨i, hi⟩ := List.getElem?_of_mem hc
  have hok := h.inv.call i c hi
  obtain ⟨op, pc⟩ := c
  have hwaiting : ∀ {x sr}, (pc = .growRoot x sr ∨ pc = .freshHint x sr) →
      (∃ ℓ, Pending s.tree g ℓ x sr) → ∃ j, s.Ready j := by
    rintro x sr hpc ⟨ℓ, hpend⟩
    obtain ⟨pre, post, hd⟩ := List.append_of_mem hpend.child_mem
    exact h.ready_of_waiting hthrew hd hi hpc
  cases pc with
  | growRoot x sr =>
    cases op with
    | insert key id => exact hwaiting (.inl rfl) hok
    | range lo hi => exact hok.elim
  | freshHint x sr =>
    cases op with
    | insert key id => exact hwaiting (.inr rfl) hok
    | range lo hi => exact hok.elim
  | _ => exact ⟨i, ready_of_not_waits hi hend rfl⟩

/-- **Queries among concurrent inserts.**

* In every interleaving no call loses its target or follows a missing link.
* Let a query for `[lo, hi]` start after any `acts₁`, and any `acts₂` follow.  What the query has
  emitted by then, finished or not, are pairs in its interval, each at most as often as it was
  inserted, in ascending key order.  When it has had more turns than the tree has nodes, it has
  returned; and if it has returned, it has emitted every pair in its interval whose insert had
  returned before the query started, as often as it was inserted.
* An insert may have to wait for another one, which is about to tell a node its parent; with
  `4 * count + 2` turns that do not leave it waiting it has ended.  Unless an insert has thrown,
  some call is ready for such a turn as long as not all have ended. -/
theorem queries_correct (cfg : BTreeConfig) :
    (∀ acts, ∀ c ∈ ((new cfg).exec acts).calls, c.pc ≠ .targetLost ∧ c.pc ≠ .badLink) ∧
    (∀ acts₁ lo hi acts₂, ∃ pc,
      (((new cfg).exec acts₁).exec (.invoke (.range lo hi) :: acts₂)).calls[
        ((new cfg).exec acts₁).calls.length]? = some ⟨.range lo hi, pc⟩ ∧
      ↑pc.emitted ≤ (((new cfg).exec acts₁).exec (.invoke (.range lo hi) :: acts₂)).started ∧
      (pc.emitted.Pairwise fun a b => a.1 ≤ b.1) ∧ (∀ e ∈ pc.emitted, InRange lo hi e) ∧
      (∀ out, pc = .done out →
        ((new cfg).exec acts₁).returned.filter (InRange lo hi) ≤ ↑out) ∧
      ((((new cfg).exec acts₁).exec (.invoke (.range lo hi) :: acts₂)).tree.count <
          acts₂.countP (Action.turn ((new cfg).exec acts₁).calls.length) →
        ∃ out, pc = .done out)) ∧
    (∀ acts₁ key id acts₂,
      4 * (((new cfg).exec acts₁).exec (.invoke (.insert key id) :: acts₂)).tree.count + 2 ≤
        advancing ((new cfg).exec acts₁).calls.length ((new cfg).exec acts₁)
          (.invoke (.insert key id) :: acts₂) →
      ∃ pc, (((new cfg).exec acts₁).exec (.invoke (.insert key id) :: acts₂)).calls[
        ((new cfg).exec acts₁).calls.length]? = some ⟨.insert key id, pc⟩ ∧ pc.Ended) ∧
    ∀ acts, (∀ c ∈ ((new cfg).exec acts).calls, c.pc ≠ .threw) →
      (∃ c ∈ ((new cfg).exec acts).calls, ¬ c.pc.Ended) → ∃ i, ((new cfg).exec acts).Ready i := by
  refine ⟨fun acts c hc => ?_, fun acts₁ lo hi acts₂ => ?_, fun acts₁ key id acts₂ hadv => ?_,
    fun acts hthrew ⟨c, hc, hend⟩ => ?_⟩
  · obtain ⟨g, h⟩ := Running.exec_new cfg acts
    exact h.inv.not_lost hc
  · obtain ⟨pc, hpc, hstarted, hsorted, hrange, hdone⟩ := query_reports cfg acts₁ lo hi acts₂
    refine ⟨pc, hpc, hstarted, hsorted, hrange, hdone, fun hturns => ?_⟩
    obtain ⟨g, h⟩ := Running.exec_new cfg acts₁
    have hstart : (((new cfg).exec acts₁).act (.invoke (.range lo hi))).calls[
        ((new cfg).exec acts₁).calls.length]? = some ⟨.range lo hi, .lockRoot⟩ := getElem?_invoke _
    have hadv := (h.invoke (.range lo hi)).advancing_range hstart acts₂
    obtain ⟨pc', hpc', hend⟩ := ends_of_advancing cfg acts₁ acts₂ (.range lo hi) rfl (by
      rw [advancing_invoke, hadv]
      exact hturns)
    obtain rfl : pc = pc' := by simpa using hpc.symm.trans hpc'
    refine hend.resolve_left ?_
    rintro rfl
    obtain ⟨g', h'⟩ := Running.exec_new cfg (acts₁ ++ .invoke (.range lo hi) :: acts₂)
    rw [System.exec, List.foldl_append] at h'
    exact h'.inv.call _ _ hpc
  · exact ends_of_advancing cfg acts₁ acts₂ (.insert key id) rfl hadv
  · obtain ⟨g, h⟩ := Running.exec_new cfg acts
    exact h.ready hthrew hc hend

/-- Two inserts split the same leaf; the second grows the root and returns, the first has yet to
splice its new node in. -/
def overlapping : List Action :=
  [.invoke (.insert 10 1), .run 0, .run 0, .invoke (.insert 20 2), .run 1, .run 1,
    .invoke (.insert 30 3), .run 2, .invoke (.insert 15 4), .run 3, .run 2, .run 3, .run 3, .run 3,
    .run 3]

/-- A query and the first of the two inserts take turns. -/
def alternating : List Action := (List.replicate 18 [.run 4, .run 2]).flatten

theorem queries_correct_overlapping :
    (∃ out : List Entry, (((new { nodeCapacity := 2 }).exec overlapping).exec
        (.invoke (.range 10 20) :: alternating)).calls[4]? = some ⟨.range 10 20, .done out⟩ ∧
      ({(10, 1), (15, 4), (20, 2)} : Multiset Entry) ≤ ↑out) ∧
    (∃ pc, (((new { nodeCapacity := 2 }).exec (overlapping.take 6)).exec (overlapping.drop 6 ++
        .invoke (.range 10 20) :: alternating)).calls[2]? = some ⟨.insert 30 3, pc⟩ ∧ pc.Ended) ∧
    ∃ i, ((new { nodeCapacity := 2 }).exec overlapping).Ready i := by
  obtain ⟨-, hquery, hinsert, hready⟩ := queries_correct { nodeCapacity := 2 }
  refine ⟨?_, ?_, hready overlapping (by decide +kernel) (by decide +kernel)⟩
  · obtain ⟨pc, hpc, -, -, -, hcomplete, hends⟩ := hquery overlapping 10 20 alternating
    obtain ⟨out, rfl⟩ := hends (by decide +kernel)
    have hreturned : ((new { nodeCapacity := 2 }).exec overlapping).returned.filter
        (InRange 10 20) = {(10, 1), (15, 4), (20, 2)} := by decide +kernel
    exact ⟨out, hpc, hreturned ▸ hcomplete out rfl⟩
  · exact hinsert (overlapping.take 6) 30 3 ((overlapping.drop 6).tail ++
      .invoke (.range 10 20) :: alternating) (by decide +kernel)

end System

end BTree

end Vdb
