import Vdb.Durable.Unopenable

/-!
# Calls one at a time

A caller that waits for every call to end before it makes the next one.

* `System.Solo` : at most one call has not ended; it is the only one that has a task.
* `System.InTurn` : what is asked of an action of such a caller.
* `Chronicle.goesOn_of_returned` : if no call throws to the end of the run, this is what is asked of
  the actions of concurrent callers.
-/

namespace Vdb

namespace Durable

open Metadata Database

variable {ι δ : Type}

theorem mem_set_of_ne {α : Type} {l : List α} {i : ℕ} {a c : α} (b : α) (hi : l[i]? = some a)
    (hc : c ∈ l) (hne : c ≠ a) : c ∈ l.set i b := by
  obtain ⟨j, hj⟩ := List.getElem?_of_mem hc
  refine List.mem_of_getElem? ((List.getElem?_set_ne ?_).trans hj)
  rintro rfl
  exact hne (Option.some.inj (hj.symm.trans hi))

/-- The elements that a function picks are of a kind of which there is one at most. -/
theorem filterMap_set_of_countP_le_one {α β : Type} {l : List α} {p : α → Bool} {f : α → Option β}
    (hf : ∀ a b, f a = some b → p a = true) (h : l.countP p ≤ 1) {i : ℕ} {a : α}
    (hi : l[i]? = some a) (ha : p a = true) (b : α) : (l.set i b).filterMap f = (f b).toList := by
  obtain ⟨hlt, rfl⟩ := List.getElem?_eq_some_iff.1 hi
  have hsplit : l = l.take i ++ l[i] :: l.drop (i + 1) := by simp
  rw [hsplit, List.countP_append, List.countP_cons_of_pos ha] at h
  have hnone : ∀ l : List α, l.countP p = 0 → l.filterMap f = [] := by
    intro l hl
    refine List.filterMap_eq_nil_iff.2 fun b hb => ?_
    cases hfb : f b with
    | none => rfl
    | some c => exact absurd (hf b c hfb) (List.countP_eq_zero.1 hl b hb)
  rw [List.set_eq_take_append_cons_drop, if_pos hlt, List.filterMap_append, hnone _ (by omega),
    List.nil_append]
  cases hfb : f b with
  | none => rw [List.filterMap_cons_none hfb, hnone _ (by omega)]; rfl
  | some c => rw [List.filterMap_cons_some hfb, hnone _ (by omega)]; rfl

/-- The call has ended without an exception. -/
def Pc.hasReturned : Pc δ → Bool
  | .returned _ => true
  | _ => false

namespace System

variable {s s' : System ι δ} {a : Action} {i : ℕ} {pc : Pc δ}

/-- The caller starts a call when all the others have ended. -/
def Alone (s : System ι δ) : Action → Prop
  | .run _ _ => True
  | _ => ∀ pc ∈ s.calls, ¬ pc.InProgress

instance decidableAlone (s : System ι δ) : DecidablePred s.Alone
  | .run _ _ => .isTrue trivial
  | .invoke _ | .checkpoint | .sync =>
    inferInstanceAs (Decidable (∀ pc ∈ s.calls, ¬ pc.InProgress))

/-- At most one call has not ended. -/
def Solo (s : System ι δ) : Prop := s.calls.countP (fun pc => pc.InProgress) ≤ 1

/-- Some call has thrown. -/
def Thrown (s : System ι δ) : Prop := ∃ e, .threw e ∈ s.calls

/-- What only a call that has not ended can have, the one of them has. -/
theorem Solo.filterMap_set {β : Type} {f : Pc δ → Option β} (h : s.Solo)
    (hf : ∀ pc b, f pc = some b → pc.InProgress) (hi : s.calls[i]? = some pc)
    (hpc : pc.InProgress) (pc' : Pc δ) : (s.calls.set i pc').filterMap f = (f pc').toList :=
  filterMap_set_of_countP_le_one (fun a b hab => decide_eq_true (hf a b hab)) h hi
    (decide_eq_true hpc) pc'

theorem Solo.filterMap {β : Type} {f : Pc δ → Option β} (h : s.Solo)
    (hf : ∀ pc b, f pc = some b → pc.InProgress) (hi : s.calls[i]? = some pc)
    (hpc : pc.InProgress) : s.calls.filterMap f = (f pc).toList := by
  have hset := h.filterMap_set hf hi hpc pc
  obtain ⟨hlt, rfl⟩ := List.getElem?_eq_some_iff.1 hi
  rwa [List.set_getElem_self hlt] at hset

theorem inProgress_of_task {pc : Pc δ} {t : Task δ} (h : pc.task = some t) : pc.InProgress := by
  cases pc with
  | returned | threw => cases h
  | _ => trivial

theorem Solo.tasks (h : s.Solo) (hi : s.calls[i]? = some pc) (hpc : pc.InProgress) :
    s.tasks = pc.task.toList :=
  h.filterMap (fun _ _ => inProgress_of_task) hi hpc

variable [ColumnIndex ι] [Distance δ] {K : Kernels δ}

/-- A call that has ended does nothing any more. -/
theorem ended_of_moves {d d' : DurableVDB ι} {w : Bool} {env : Env} {pc pc' : Pc δ}
    {r : Option WalRecord} (hm : d.Moves K w env pc pc' d' r) (hpc : ¬ pc.InProgress) :
    pc' = pc ∧ d' = d ∧ r = none := by
  cases hm with
  | stays => exact ⟨rfl, rfl, rfl⟩
  | _ => exact absurd trivial hpc

/-- A section of the `i`-th call: there is none, it returns or it throws. -/
inductive Ran (K : Kernels δ) (s : System ι δ) (i : ℕ) (env : Env) :
    System ι δ → Option WalRecord → Prop
  | idles : Ran K s i env s none
  | moves (pc pc' d' r) : s.calls[i]? = some pc → s.durable.Moves K s.writing env pc pc' d' r →
    Ran K s i env ⟨d', s.calls.set i pc'⟩ r
  | throws (pc e d') : s.calls[i]? = some pc → s.durable.Throws K s.writing env pc e d' →
    Ran K s i env ⟨d', s.calls.set i (.threw e)⟩ none

theorem act_ran (K : Kernels δ) (s : System ι δ) (i : ℕ) (env : Env) :
    s.Ran K i env (s.act K (.run i env)) (s.logged (.run i env)) := by
  dsimp only [System.act, logged]
  cases hi : s.calls[i]? with
  | none => exact .idles
  | some pc =>
    dsimp only [runCall, Option.bind_some]
    cases hrun : s.durable.runSection K s.writing pc env with
    | ok pc' d' => exact .moves pc pc' d' _ hi (DurableVDB.moves_of_ok hrun)
    | error e d' =>
      rw [DurableVDB.logged_of_error hrun]
      exact .throws pc e d' hi (DurableVDB.throws_of_error hrun)

/-- **One action** of such a caller. -/
theorem Solo.act (h : s.Solo) (ha : s.Alone a) : (s.act K a).Solo := by
  have hstarts : (∀ pc ∈ s.calls, ¬ pc.InProgress) → ∀ pc : Pc δ,
      ({ s with calls := s.calls ++ [pc] } : System ι δ).Solo := by
    intro hnone pc
    have hzero : s.calls.countP (fun pc => pc.InProgress) = 0 :=
      List.countP_eq_zero.2 fun q hq hprogress => hnone q hq (of_decide_eq_true hprogress)
    unfold Solo
    dsimp only
    rw [List.countP_append, hzero, Nat.zero_add]
    exact List.countP_le_length
  cases a with
  | invoke req => exact hstarts ha _
  | checkpoint => exact hstarts ha _
  | sync => exact hstarts ha _
  | run i env =>
    -- a call that has ended does not start again
    have hset : ∀ pc pc' : Pc δ, s.calls[i]? = some pc → (pc'.InProgress → pc.InProgress) →
        ∀ d, ({ durable := d, calls := s.calls.set i pc' } : System ι δ).Solo := by
      intro pc pc' hi hback d
      have hcount := countP_set_toNat (fun pc : Pc δ => decide pc.InProgress) pc' hi
      have hle : (decide pc'.InProgress).toNat ≤ (decide pc.InProgress).toNat :=
        Bool.toNat_le_toNat fun hdec => decide_eq_true (hback (of_decide_eq_true hdec))
      unfold Solo at h ⊢
      dsimp only
      omega
    have hran := s.act_ran K i env
    generalize s.act K (.run i env) = s', s.logged (.run i env) = r at hran
    cases hran with
    | idles => exact h
    | moves pc pc' d' r hi hm =>
      refine hset pc pc' hi (fun hpc' => ?_) d'
      by_contra hpc
      exact hpc ((ended_of_moves hm hpc).1 ▸ hpc')
    | throws pc e d' hi ht => exact hset pc _ hi False.elim d'

/-- No other mutation is in flight when one is logged. -/
theorem Solo.apart (K : Kernels δ) (h : s.Solo) :
    ∀ r ∈ s.logged a, ∀ t ∈ s.tasks, r.key ≠ some t.ext := by
  cases a with
  | run i env =>
    have hran := s.act_ran K i env
    generalize s.act K (.run i env) = s', s.logged (.run i env) = r at hran ⊢
    cases hran with
    | moves pc pc' d' r hi hm =>
      intro rec hrec t ht
      cases hm with
      | logs req job wal ops hw hmut hlsn happ =>
        rw [h.tasks hi trivial] at ht
        cases ht
      | logsCheckpoint reply lsn wal happ =>
        cases hrec
        exact nofun
      | _ => cases hrec
    | _ => exact nofun
  | _ => exact nofun

/-- What is thrown is thrown. -/
theorem Thrown.act (h : s.Thrown) : (s.act K a).Thrown := by
  obtain ⟨e, he⟩ := h
  cases a with
  | run i env =>
    have hran := s.act_ran K i env
    generalize s.act K (.run i env) = s', s.logged (.run i env) = r at hran
    cases hran with
    | idles => exact ⟨e, he⟩
    | moves pc pc' d' r hi hm =>
      by_cases hpc : pc.InProgress
      · refine ⟨e, mem_set_of_ne pc' hi he ?_⟩
        rintro rfl
        exact hpc
      · obtain ⟨rfl, -, -⟩ := ended_of_moves hm hpc
        obtain ⟨hlt, rfl⟩ := List.getElem?_eq_some_iff.1 hi
        rw [List.set_getElem_self hlt]
        exact ⟨e, he⟩
    | throws pc e' d' hi ht =>
      exact ⟨e', List.mem_set (List.getElem?_eq_some_iff.1 hi).1 _⟩
  | _ => exact ⟨e, List.mem_append_left _ he⟩

/-- A call that throws behind its prefix has thrown. -/
theorem thrown_of_strands (h : s.Strands K a) : (s.act K a).Thrown := by
  cases a with
  | run i env =>
    obtain ⟨pc, hi, hfails⟩ := h
    have hi : s.calls[i]? = some pc := hi
    have hthrows := mt (returns_iff (fails_counted hfails)).1 (not_not_intro hfails)
    dsimp only [System.act]
    rw [hi]
    dsimp only [runCall]
    cases hrun : s.durable.runSection K s.writing pc env with
    | ok pc' d' => exact absurd (by rw [hrun]; trivial) hthrows
    | error e d' => exact ⟨e, List.mem_set (List.getElem?_eq_some_iff.1 hi).1 _⟩
  | _ => exact h.elim

/-- What is asked of an action of such a caller: no append fails, its Bools are 0 or 1, and there is
room for ids, dictionary codes and what is written. -/
structure InTurn (K : Kernels δ) (s : System ι δ) (a : Action) : Prop where
  alone : s.Alone a
  bools : ∀ r ∈ s.logged a, r.metadata.BoolsOk
  counts : s.durable.db.nextExtId + 1 < 2 ^ 64
  fits : (s.act K a).durable.db.Fits
  writable : s.Writable a

instance decidableInTurn (K : Kernels δ) (s : System ι δ) (a : Action) : Decidable (s.InTurn K a) :=
  decidable_of_iff (s.Alone a ∧ (∀ r ∈ s.logged a, r.metadata.BoolsOk) ∧
      s.durable.db.nextExtId + 1 < 2 ^ 64 ∧ (s.act K a).durable.db.Fits ∧ s.Writable a)
    ⟨fun ⟨h1, h2, h3, h4, h5⟩ => ⟨h1, h2, h3, h4, h5⟩,
      fun ⟨h1, h2, h3, h4, h5⟩ => ⟨h1, h2, h3, h4, h5⟩⟩

/-- What is known of an action of a run in which no call throws. -/
structure GoesOn (K : Kernels δ) (s : System ι δ) (a : Action) : Prop where
  turn : s.InTurn K a
  careful : s.Careful K a
  returns : ¬ (s.act K a).Thrown

end System

namespace Chronicle

variable [ColumnIndex ι] [Distance δ] {K : Kernels δ} {config : VDBConfig} {c : Chronicle ι δ}
  {a : Action}

/-- **One after the other** and with no exception to the end, the calls are what is asked of
concurrent ones. -/
theorem goesOn_of_returned {as : List Action} (hsolo : c.system.Solo)
    (hend : ¬ (as.foldl (act K) c).system.Thrown)
    (h : Run.Along (act K) (fun c a => c.system.InTurn K a) c as) :
    Run.Along (act K) (fun c a => c.system.GoesOn K a) c as := by
  induction as generalizing c with
  | nil => trivial
  | cons a as ih =>
    obtain ⟨hturn, h⟩ := h
    have hreturns : ¬ (c.system.act K a).Thrown := fun hthrown =>
      hend (Run.invariant (I := fun c : Chronicle ι δ => c.system.Thrown) (fun c a hc => hc.act)
        (s := c.act K a) hthrown as)
    have hstays : ¬ c.system.Strands K a := fun hstrands =>
      hreturns (System.thrown_of_strands hstrands)
    have hcareful : c.system.Careful K a :=
      ⟨hstays, hsolo.apart K, hturn.bools, hturn.counts, hturn.fits⟩
    exact ⟨⟨hturn, hcareful, hreturns⟩, ih (hsolo.act hturn.alone) hend h⟩

theorem backed_goesOn (h : Backed config c) (ha : c.system.GoesOn K a) :
    Backed config (c.act K a) :=
  h.act ha.careful ha.turn.writable

theorem backed_run {as : List Action} (h : Backed config c)
    (hrun : Run.Along (act K) (fun c a => c.system.GoesOn K a) c as) :
    Backed config (as.foldl (act K) c) :=
  Run.Along.invariant (I := Backed config) (fun _ _ hc ha => backed_goesOn hc ha) h hrun

end Chronicle

end Durable

end Vdb
