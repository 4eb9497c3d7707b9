import Vdb.BTree.Section
import Mathlib.Algebra.Order.BigOperators.Group.List
import Mathlib.Tactic.Abel

/-!
# Concurrent inserts and queries

A `System` is a tree with the calls started on it; an `Action` starts a call or runs one section of
a call, so a list of actions is an interleaving.  The invariant `System.Inv` gives every call its
knowledge of the tree and keeps the pending nodes of different calls apart.  From it:

* `System.query_reports` : a finished query reports every pair in its interval whose insert had
  returned when the query started, and no query, finished or not, reports a pair that was not
  inserted, reports one more often than it was inserted, or emits keys out of order;
* no call follows a missing link, and no insert loses its target.
-/

namespace Vdb

namespace BTree

/-- A call, running or finished. -/
structure Call where
  op : Op
  pc : Pc
  deriving DecidableEq, Repr

/-- A tree and the calls started on it, in the order of their start. -/
structure System where
  tree : BPlusTree
  calls : List Call

inductive Action where
  /-- A thread starts a call. -/
  | invoke (op : Op)
  /-- The `i`-th call runs its next section. -/
  | run (i : ℕ)
  deriving DecidableEq, Repr

/-- The pair an insert was called with. -/
def Call.pair (c : Call) : Multiset Entry :=
  match c.op with
  | .insert key id => {(key, id)}
  | .range _ _ => 0

/-- The pair of an insert that has returned. -/
def Call.returnedPair (c : Call) : Multiset Entry :=
  match c.pc with
  | .done _ => c.pair
  | _ => 0

namespace System

/-- The empty tree, and no calls. -/
def new (cfg : BTreeConfig) : System := ⟨.new cfg, []⟩

variable (s : System)

def act : Action → System
  | .invoke op => { s with calls := s.calls ++ [⟨op, .lockRoot⟩] }
  | .run i =>
    match s.calls[i]? with
    | none => s
    | some c =>
      let (tree, pc) := s.tree.runSection c.op c.pc
      { tree, calls := s.calls.set i ⟨c.op, pc⟩ }

/-- The system after the actions in this order. -/
def exec (acts : List Action) : System := acts.foldl act s

/-- The pairs of the inserts started so far. -/
def started : Multiset Entry := (s.calls.map Call.pair).sum

/-- The pairs of the inserts that have returned. -/
def returned : Multiset Entry := (s.calls.map Call.returnedPair).sum

/-- The pairs that inserts have put into a leaf. -/
def inserted : Multiset Entry := (s.calls.map fun c => placed c.op c.pc).sum

/-- What holds of every reachable system.  `init` are the pairs of the initial tree, and
`before i` are pairs known to have been present when the `i`-th call was started. -/
structure Inv (init : Multiset Entry) (before : ℕ → Multiset Entry) (g : Shape) : Prop where
  blink : BLink s.tree g
  contents : entriesOf s.tree (g.chain 0) = init + s.inserted
  before_le : ∀ i < s.calls.length, before i ≤ entriesOf s.tree (g.chain 0)
  call : ∀ i c, s.calls[i]? = some c → CallOk s.tree g (before i) c.op c.pc
  pending : ∀ (i j : ℕ) (ci cj : Call), i ≠ j → s.calls[i]? = some ci → s.calls[j]? = some cj →
    ∀ r ∈ ci.pc.pendingRight, r ∉ cj.pc.pendingRight

variable {s} {init : Multiset Entry} {before : ℕ → Multiset Entry} {g : Shape}

theorem returned_le_inserted : s.returned ≤ s.inserted := by
  refine List.sum_le_sum fun c _ => ?_
  obtain ⟨op, pc⟩ := c
  cases op <;> cases pc <;> simp [Call.returnedPair, Call.pair, placed]

theorem inserted_le_started : s.inserted ≤ s.started := by
  refine List.sum_le_sum fun c _ => ?_
  obtain ⟨op, pc⟩ := c
  cases op <;> cases pc <;> simp [Call.pair, placed]

theorem pendingRight_mem {t : BPlusTree} {b : Multiset Entry} {op : Op} {pc : Pc}
    (h : CallOk t g b op pc) {r : NodeId} (hr : r ∈ pc.pendingRight) : ∃ ℓ, r ∈ g.chain ℓ := by
  cases op with
  | insert key id =>
    cases pc with
    | relocate cur child sr =>
      obtain ⟨ℓ, hp, -⟩ := h
      cases hr
      exact ⟨ℓ, hp.right_mem⟩
    | growRoot child sr =>
      obtain ⟨ℓ, hp⟩ := h
      cases hr
      exact ⟨ℓ, hp.right_mem⟩
    | freshHint child sr =>
      obtain ⟨ℓ, hp⟩ := h
      cases hr
      exact ⟨ℓ, hp.right_mem⟩
    | _ => cases hr
  | range lo hi =>
    cases pc with
    | relocate cur child sr => exact h.elim
    | growRoot child sr => exact h.elim
    | freshHint child sr => exact h.elim
    | _ => cases hr

/-- Starting a call changes nothing; what it knows to be present it is told. -/
theorem Inv.invoke (h : s.Inv init before g) (op : Op)
    (hb : before s.calls.length ≤ entriesOf s.tree (g.chain 0)) :
    (s.act (.invoke op)).Inv init before g where
  blink := h.blink
  contents := by
    refine h.contents.trans ?_
    cases op <;> simp [inserted, act, placed]
  before_le i hi := by
    rcases Nat.lt_succ_iff_lt_or_eq.1 (by simpa [act] using hi) with hi | rfl
    · exact h.before_le i hi
    · exact hb
  call i c hc := by
    rcases Nat.lt_or_ge i s.calls.length with hi | hi
    · rw [act, List.getElem?_append_left hi] at hc
      exact h.call i c hc
    · rw [act, List.getElem?_append_right hi, List.getElem?_singleton] at hc
      split_ifs at hc
      cases hc
      cases op <;> trivial
  pending i j ci cj hij hi hj r hr hr' := by
    have hold : ∀ {k : ℕ} {c : Call}, (s.act (.invoke op)).calls[k]? = some c →
      r ∈ c.pc.pendingRight →
        s.calls[k]? = some c := by
      intro k c hk hrc
      rcases Nat.lt_or_ge k s.calls.length with hlt | hge
      · rwa [act, List.getElem?_append_left hlt] at hk
      · rw [act, List.getElem?_append_right hge, List.getElem?_singleton] at hk
        split_ifs at hk
        cases hk
        cases hrc
    exact h.pending i j ci cj hij (hold hi hr) (hold hj hr') r hr hr'

theorem act_run {i : ℕ} {c : Call} (hc : s.calls[i]? = some c) : s.act (.run i) =
    ⟨(s.tree.runSection c.op c.pc).1,
      s.calls.set i ⟨c.op, (s.tree.runSection c.op c.pc).2⟩⟩ := by
  simp [act, hc]

theorem exists_cut {i : ℕ} {c : Call} (hc : s.calls[i]? = some c) :
    ∃ A B, s.calls = A ++ c :: B ∧ A.length = i := by
  obtain ⟨hlt, hget⟩ := List.getElem?_eq_some_iff.1 hc
  refine ⟨s.calls.take i, s.calls.drop (i + 1), ?_, List.length_take_of_le hlt.le⟩
  rw [← hget, List.cons_getElem_drop_succ, List.take_append_drop]

/-- Running a section of one call. -/
theorem Inv.step (h : s.Inv init before g) {i : ℕ} {c : Call} (hc : s.calls[i]? = some c) :
    (s.act (.run i)).Inv init before (g.next s.tree (s.tree.runSection c.op c.pc).2) := by
  have hlt : i < s.calls.length := (List.getElem?_eq_some_iff.1 hc).1
  have hs := runSection_ok h.blink (h.call i c hc) (h.before_le i hlt)
  rw [act_run hc]
  set t' := (s.tree.runSection c.op c.pc).1
  set pc' := (s.tree.runSection c.op c.pc).2
  have hget : ∀ j cj, (s.calls.set i ⟨c.op, pc'⟩)[j]? = some cj →
      i = j ∧ cj = ⟨c.op, pc'⟩ ∨ i ≠ j ∧ s.calls[j]? = some cj := by
    intro j cj hj
    by_cases hij : i = j
    · subst hij
      rw [List.getElem?_set_self hlt] at hj
      cases hj
      exact .inl ⟨rfl, rfl⟩
    · rw [List.getElem?_set_ne hij] at hj
      exact .inr ⟨hij, hj⟩
  have hle := hs.evolves.entriesOf_le h.blink
  refine ⟨hs.blink, ?_, ?_, ?_, ?_⟩
  · obtain ⟨A, B, hAB, hA⟩ := exists_cut hc
    have hcont := h.contents
    have hsec := hs.contents
    rw [inserted, hAB] at hcont
    rw [hcont] at hsec
    rw [inserted, hAB, ← hA, List.set_append_right _ _ le_rfl, Nat.sub_self, List.set_cons_zero]
    simp only [List.map_append, List.map_cons, List.sum_append, List.sum_cons] at hsec ⊢
    refine add_right_cancel (b := placed c.op c.pc) (hsec.trans ?_)
    abel
  · intro j hj
    rw [List.length_set] at hj
    exact (h.before_le j hj).trans hle
  · intro j cj hj
    rcases hget j cj hj with ⟨rfl, rfl⟩ | ⟨hij, hj⟩
    · exact hs.call
    · refine (h.call j cj hj).evolves h.blink hs.evolves fun r hr ℓ hrℓ ⟨v, hv⟩ hsp => ?_
      rcases hs.spliced ℓ r hrℓ hsp with h' | h' | h'
      · exact h'
      · exact absurd hr (h.pending i j c cj hij hc hj r h')
      · rw [hv] at h'
        cases h'
  · -- a call's new pending node is fresh, and every other pending node is in the tree
    have hnew : ∀ j cj, i ≠ j → s.calls[j]? = some cj → ∀ r ∈ pc'.pendingRight,
        r ∉ cj.pc.pendingRight := by
      intro j cj hij hj r hr hr'
      rcases hs.pending r hr with hold | hfresh
      · exact h.pending i j c cj hij hc hj r hold hr'
      · obtain ⟨ℓ, hmem⟩ := pendingRight_mem (h.call j cj hj) hr'
        exact absurd (h.blink.lt_count ℓ r hmem) (Nat.not_lt.2 hfresh)
    intro j k cj ck hjk hj hk r hr hr'
    rcases hget j cj hj with ⟨rfl, rfl⟩ | ⟨hij, hj⟩ <;>
      rcases hget k ck hk with ⟨rfl, rfl⟩ | ⟨hik, hk⟩
    · exact hjk rfl
    · exact hnew k ck hik hk r hr hr'
    · exact hnew j cj hij hj r hr' hr
    · exact h.pending j k cj ck hjk hj hk r hr hr'

theorem Inv.run (h : s.Inv init before g) (i : ℕ) : ∃ g', (s.act (.run i)).Inv init before g' := by
  cases hc : s.calls[i]? with
  | none => exact ⟨g, by simpa [act, hc] using h⟩
  | some c => exact ⟨_, h.step hc⟩

theorem length_act_le (s : System) (a : Action) : s.calls.length ≤ (s.act a).calls.length := by
  cases a with
  | invoke op => simp [act]
  | run i =>
    cases hc : s.calls[i]? with
    | none => simp [act, hc]
    | some c => simp [act, hc]

/-- The invariant holds after every interleaving. -/
theorem Inv.exec (h : s.Inv init before g) (hz : ∀ i, s.calls.length ≤ i → before i = 0)
    (acts : List Action) : ∃ g', (s.exec acts).Inv init before g' := by
  induction acts generalizing s g with
  | nil => exact ⟨g, h⟩
  | cons a acts ih =>
    have hz' : ∀ i, (s.act a).calls.length ≤ i → before i = 0 :=
      fun i hi => hz i ((length_act_le s a).trans hi)
    cases a with
    | invoke op =>
      exact ih (h.invoke op (by rw [hz _ le_rfl]; exact Multiset.zero_le _)) hz'
    | run i =>
      obtain ⟨g', h'⟩ := h.run i
      exact ih h' hz'

theorem inv_new (cfg : BTreeConfig) :
    (new cfg).Inv 0 (fun _ => 0) ⟨0, fun ℓ => if ℓ = 0 then [0] else [], fun _ => none⟩ where
  blink := BLink.new cfg
  contents := rfl
  before_le i hi := by cases hi
  call i c hc := by cases hc
  pending i j ci cj _ hi := by cases hi

/-- What is known to be present may be chosen anew before a call starts. -/
theorem Inv.retell (h : s.Inv init before g) {before' : ℕ → Multiset Entry}
    (hb : ∀ i < s.calls.length, before' i = before i) : s.Inv init before' g where
  blink := h.blink
  contents := h.contents
  before_le i hi := by rw [hb i hi]; exact h.before_le i hi
  call i c hc := by
    rw [hb i (List.getElem?_eq_some_iff.1 hc).1]
    exact h.call i c hc
  pending := h.pending

/-- What a query has emitted so far is sound and in order. -/
theorem emitted_ok (h : s.Inv init before g) {i : ℕ} {lo hi : Key} {pc : Pc}
    (hc : s.calls[i]? = some ⟨.range lo hi, pc⟩) :
    ↑pc.emitted ≤ init + s.inserted ∧ (pc.emitted.Pairwise fun a b => a.1 ≤ b.1) ∧
      ∀ e ∈ pc.emitted, InRange lo hi e := by
  have hok := h.call i _ hc
  cases pc with
  | descend cur out =>
    rcases hok with ⟨rfl, -⟩ | ⟨pre, post, hs⟩
    · exact ⟨Multiset.zero_le _, List.Pairwise.nil, by simp [Pc.emitted]⟩
    · refine ⟨?_, hs.sorted, hs.range⟩
      rw [← h.contents, hs.cut, entriesOf_append]
      exact hs.behind.trans (Multiset.le_add_right _ _)
  | done out =>
    have hans : Answer s.tree g (before i) lo hi out := hok
    exact ⟨h.contents ▸ hans.sound, hans.sorted, hans.range⟩
  | _ => exact ⟨Multiset.zero_le _, List.Pairwise.nil, by simp [Pc.emitted]⟩

theorem getElem?_act {i : ℕ} {op : Op} {pc : Pc} (h : s.calls[i]? = some ⟨op, pc⟩) (a : Action) :
    ∃ pc', (s.act a).calls[i]? = some ⟨op, pc'⟩ := by
  cases a with
  | invoke op' =>
    refine ⟨pc, ?_⟩
    rw [act, List.getElem?_append_left (List.getElem?_eq_some_iff.1 h).1, h]
  | run j =>
    cases hc : s.calls[j]? with
    | none => exact ⟨pc, by simpa [act, hc] using h⟩
    | some c =>
      by_cases hij : j = i
      · subst hij
        obtain rfl : c = ⟨op, pc⟩ := by rw [h] at hc; exact (Option.some.inj hc).symm
        refine ⟨(s.tree.runSection op pc).2, ?_⟩
        simp [act, h, List.getElem?_set_self (List.getElem?_eq_some_iff.1 h).1]
      · exact ⟨pc, by simpa [act, hc, List.getElem?_set_ne hij] using h⟩

/-- A call stays in its place. -/
theorem getElem?_exec {i : ℕ} {op : Op} {pc : Pc} (h : s.calls[i]? = some ⟨op, pc⟩)
    (acts : List Action) : ∃ pc', (s.exec acts).calls[i]? = some ⟨op, pc'⟩ := by
  induction acts generalizing s pc with
  | nil => exact ⟨pc, h⟩
  | cons a acts ih =>
    obtain ⟨pc', h'⟩ := getElem?_act h a
    exact ih h'

theorem Inv.not_lost (h : s.Inv init before g) {c : Call} (hc : c ∈ s.calls) :
    c.pc ≠ .targetLost ∧ c.pc ≠ .badLink := by
  obtain ⟨i, hi⟩ := List.getElem?_of_mem hc
  have hok := h.call i c hi
  obtain ⟨op, pc⟩ := c
  constructor <;> (rintro rfl; cases op <;> exact hok.elim)

/-- Let a query for `[lo, hi]` start after any `acts₁`, and any `acts₂` follow.  What it has emitted
by then is sound and in order; if it has returned, it is complete. -/
theorem query_reports (cfg : BTreeConfig) (acts₁ : List Action) (lo hi : Key)
    (acts₂ : List Action) : ∃ pc,
      (((new cfg).exec acts₁).exec (.invoke (.range lo hi) :: acts₂)).calls[
        ((new cfg).exec acts₁).calls.length]? = some ⟨.range lo hi, pc⟩ ∧
      ↑pc.emitted ≤ (((new cfg).exec acts₁).exec (.invoke (.range lo hi) :: acts₂)).started ∧
      (pc.emitted.Pairwise fun a b => a.1 ≤ b.1) ∧ (∀ e ∈ pc.emitted, InRange lo hi e) ∧
      ∀ out, pc = .done out →
        ((new cfg).exec acts₁).returned.filter (InRange lo hi) ≤ ↑out := by
  set s₁ := (new cfg).exec acts₁
  set n := s₁.calls.length
  obtain ⟨g₁, h₁⟩ := (inv_new cfg).exec (fun _ _ => rfl) acts₁
  -- from here on, the query is told what had been inserted when it started
  let before : ℕ → Multiset Entry := fun i => if i = n then s₁.returned else 0
  have h₁' : s₁.Inv 0 before g₁ := h₁.retell fun i hi => if_neg hi.ne
  have hle : before n ≤ entriesOf s₁.tree (g₁.chain 0) := by
    have hc : entriesOf s₁.tree (g₁.chain 0) = 0 + s₁.inserted := h₁.contents
    rw [hc, zero_add]
    exact (if_pos rfl).trans_le returned_le_inserted
  have hz : ∀ i, (s₁.act (.invoke (.range lo hi))).calls.length ≤ i → before i = 0 := by
    intro i hle
    refine if_neg ?_
    rintro rfl
    rw [act, List.length_append, List.length_singleton] at hle
    exact Nat.not_succ_le_self n hle
  obtain ⟨g₂, h₂⟩ := (h₁'.invoke (.range lo hi) hle).exec hz acts₂
  have hstart : (s₁.act (.invoke (.range lo hi))).calls[n]? =
      some ⟨.range lo hi, .lockRoot⟩ := by
    rw [act, List.getElem?_append_right le_rfl, Nat.sub_self, List.getElem?_cons_zero]
  obtain ⟨pc, hpc⟩ := getElem?_exec hstart acts₂
  obtain ⟨hsound, hsorted, hrange⟩ := emitted_ok h₂ hpc
  rw [zero_add] at hsound
  refine ⟨pc, hpc, hsound.trans inserted_le_started, hsorted, hrange, ?_⟩
  rintro out rfl
  have hans : Answer _ g₂ (before n) lo hi out := h₂.call n _ hpc
  simpa [before] using hans.complete

end System

end BTree

end Vdb
