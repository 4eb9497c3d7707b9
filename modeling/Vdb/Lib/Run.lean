import Mathlib.Data.List.Infix
import Mathlib.Order.Nat

/-!
# Runs of a deterministic system

A system is a type of states and a function `act` that says what an action does; a run is a list of
actions, and where it leads is a fold.  `Along` asks a condition of every action of a run where it
happens, `Meets` finds an action of a kind on the way.

* `Along.invariant` : what every action keeps under the condition holds at the end of the run.
* `Along.refines` : a run refines another system if each of its actions does.
* `Along.coarse` : a run is one of a system with larger actions.
* `Along.keeps_or_meets` : what every action but those of a kind keeps holds at the end, or an
  action of that kind is on the way.
* `Along.countdown`, `Along.length_le` : a measure that some actions bring down and none raises is
  used up after so many of them, and a run of such actions alone is no longer.
* `exists_front` : a front of a log that only grows is the log of a front of the run.
-/

namespace Vdb

namespace Run

variable {σ α τ β γ ρ : Type*} {act : σ → α → σ} {P E : σ → α → Prop} {I K : σ → Prop}
  {out : σ → α → β} {Step : τ → α → β → τ → Prop} {R : σ → τ → Prop}

/-- Every action of the run meets `P` where it happens. -/
def Along (act : σ → α → σ) (P : σ → α → Prop) : σ → List α → Prop
  | _, [] => True
  | s, a :: as => P s a ∧ Along act P (act s a) as

/-- Some action of the run is an `E` where it happens. -/
def Meets (act : σ → α → σ) (E : σ → α → Prop) : σ → List α → Prop
  | _, [] => False
  | s, a :: as => E s a ∨ Meets act E (act s a) as

/-- Every action of the run is a step of another system with the same answer; `R` is between the
states of the two all along. -/
def Refines (act : σ → α → σ) (out : σ → α → β) (Step : τ → α → β → τ → Prop) (R : σ → τ → Prop) :
    σ → τ → List α → Prop
  | s, t, [] => R s t
  | s, t, a :: as => R s t ∧ ∃ t', Step t a (out s a) t' ∧ Refines act out Step R (act s a) t' as

instance decidableAlong [∀ s a, Decidable (P s a)] : (s : σ) → (as : List α) →
    Decidable (Along act P s as)
  | _, [] => .isTrue trivial
  | s, a :: as =>
    have := decidableAlong (act s a) as
    inferInstanceAs (Decidable (P s a ∧ Along act P (act s a) as))

instance decidableMeets [∀ s a, Decidable (E s a)] : (s : σ) → (as : List α) →
    Decidable (Meets act E s as)
  | _, [] => .isFalse id
  | s, a :: as =>
    have := decidableMeets (act s a) as
    inferInstanceAs (Decidable (E s a ∨ Meets act E (act s a) as))

theorem Along.append {as bs : List α} {s : σ} : Along act P s (as ++ bs) ↔
    Along act P s as ∧ Along act P (as.foldl act s) bs := by
  induction as generalizing s with
  | nil => exact ⟨fun h => ⟨trivial, h⟩, fun h => h.2⟩
  | cons a as ih =>
    rw [List.cons_append, Along, ih, Along, List.foldl_cons, and_assoc]

theorem Along.invariant (hstep : ∀ s a, I s → P s a → I (act s a)) {as : List α} {s : σ}
    (hs : I s) (h : Along act P s as) : I (as.foldl act s) := by
  induction as generalizing s with
  | nil => exact hs
  | cons a as ih => exact ih (hstep s a hs h.1) h.2

/-- A weaker condition. -/
theorem Along.mono {Q : σ → α → Prop} (hPQ : ∀ s a, P s a → Q s a) {as : List α} {s : σ}
    (h : Along act P s as) : Along act Q s as := by
  induction as generalizing s with
  | nil => trivial
  | cons a as ih => exact ⟨hPQ s a h.1, ih h.2⟩

/-- A condition that is met anywhere. -/
theorem along_of_forall (h : ∀ s a, P s a) (as : List α) (s : σ) : Along act P s as := by
  induction as generalizing s with
  | nil => trivial
  | cons a as ih => exact ⟨h s a, ih (act s a)⟩

/-- A condition on the actions alone. -/
theorem Along.and_forall {Q : α → Prop} {as : List α} {s : σ} (h : Along act P s as)
    (hQ : ∀ a ∈ as, Q a) : Along act (fun s a => P s a ∧ Q a) s as := by
  induction as generalizing s with
  | nil => trivial
  | cons a as ih =>
    exact ⟨⟨h.1, hQ a List.mem_cons_self⟩, ih h.2 fun b hb => hQ b (List.mem_cons_of_mem a hb)⟩

/-- What the invariant and the condition give at every action of a run. -/
theorem Along.always {Q : σ → α → Prop} (hstep : ∀ s a, I s → P s a → I (act s a))
    (hQ : ∀ s a, I s → P s a → Q s a) {as : List α} {s : σ} (hs : I s) (h : Along act P s as) :
    Along act Q s as := by
  induction as generalizing s with
  | nil => trivial
  | cons a as ih => exact ⟨hQ s a hs h.1, ih (hstep s a hs h.1) h.2⟩

/-- Two conditions that say the same of every action, as long as the invariant lasts. -/
theorem Along.congr {Q T : σ → α → Prop} (hstep : ∀ s a, I s → T s a → P s a → I (act s a))
    (hPQ : ∀ s a, I s → T s a → (P s a ↔ Q s a)) {as : List α} {s : σ} (hs : I s)
    (h : Along act T s as) : Along act P s as ↔ Along act Q s as := by
  induction as generalizing s with
  | nil => exact Iff.rfl
  | cons a as ih =>
    have hone := hPQ s a hs h.1
    exact ⟨fun ⟨hP, hrest⟩ => ⟨hone.1 hP, (ih (hstep s a hs h.1 hP) h.2).1 hrest⟩,
      fun ⟨hQ, hrest⟩ => ⟨hone.2 hQ, (ih (hstep s a hs h.1 (hone.2 hQ)) h.2).2 hrest⟩⟩

/-- Without a condition, what every action keeps holds at the end. -/
theorem invariant (hstep : ∀ s a, I s → I (act s a)) {s : σ} (hs : I s) (as : List α) :
    I (as.foldl act s) := by
  induction as generalizing s with
  | nil => exact hs
  | cons a as ih => exact ih (hstep s a hs)

theorem Along.keeps_or_meets (hstep : ∀ s a, P s a → K s → K (act s a) ∨ E s a) {as : List α}
    {s : σ} (hs : K s) (h : Along act P s as) : K (as.foldl act s) ∨ Meets act E s as := by
  induction as generalizing s with
  | nil => exact .inl hs
  | cons a as ih =>
    rcases hstep s a h.1 hs with hk | he
    · exact (ih hk h.2).imp_right .inr
    · exact .inr (.inl he)

/-- What holds after an action only if it did before holds all along if it does at the end. -/
theorem along_of_end (hback : ∀ s a, K (act s a) → K s) {as : List α} {s : σ}
    (h : K (as.foldl act s)) : K s ∧ Along act (fun s a => K (act s a)) s as := by
  induction as generalizing s with
  | nil => exact ⟨h, trivial⟩
  | cons a as ih =>
    obtain ⟨hs, halong⟩ := ih h
    exact ⟨hback s a hs, hs, halong⟩

/-- A measure that no action raises, and that the actions of a kind bring down as long as it can. -/
theorem Along.countdown {μ : σ → ℕ} {kind : α → Bool} (hstep : ∀ s a, I s → P s a → I (act s a))
    (hdown : ∀ s a, I s → P s a → μ (act s a) ≤ μ s - (kind a).toNat) {as : List α} {s : σ}
    (hs : I s) (h : Along act P s as) : μ (as.foldl act s) ≤ μ s - as.countP kind := by
  induction as generalizing s with
  | nil => exact le_rfl
  | cons a as ih =>
    have hle := hdown s a hs h.1
    have hrest := ih (hstep s a hs h.1) h.2
    rw [List.countP_cons, List.foldl_cons]
    cases hk : kind a with
    | false =>
      rw [hk] at hle
      rw [if_neg Bool.false_ne_true]
      exact hrest.trans (Nat.sub_le_sub_right hle _)
    | true =>
      rw [hk] at hle
      have hone : true.toNat = 1 := rfl
      rw [if_pos rfl]
      omega

/-- A run of actions that all bring a measure down. -/
theorem Along.length_le {μ : σ → ℕ} (hstep : ∀ s a, I s → P s a → I (act s a))
    (hdown : ∀ s a, I s → P s a → μ (act s a) < μ s) {as : List α} {s : σ} (hs : I s)
    (h : Along act P s as) : as.length ≤ μ s := by
  induction as generalizing s with
  | nil => exact Nat.zero_le _
  | cons a as ih => exact (ih (hstep s a hs h.1) h.2).trans_lt (hdown s a hs h.1)

/-- A run refines another system if each of its actions does, from states that `I` relates. -/
theorem Along.refines {I : σ → τ → Prop} (hR : ∀ s t, I s t → R s t)
    (hstep : ∀ s t a, I s t → P s a → ∃ t', Step t a (out s a) t' ∧ I (act s a) t') {as : List α}
    {s : σ} {t : τ} (hI : I s t) (h : Along act P s as) : Refines act out Step R s t as := by
  induction as generalizing s t with
  | nil => exact hR s t hI
  | cons a as ih =>
    obtain ⟨t', hst, hI'⟩ := hstep s t a hI h.1
    exact ⟨hR s t hI, t', hst, ih hI' h.2⟩

/-- **Granularity.**  A run is one of a system with larger actions if each of its actions is some of
them, or none. -/
theorem Along.coarse {act' : τ → γ → τ} {P' : τ → γ → Prop} {view : σ → τ}
    (hstep : ∀ s a, I s → P s a → I (act s a) ∧
      ∃ bs, Along act' P' (view s) bs ∧ bs.foldl act' (view s) = view (act s a))
    {as : List α} {s : σ} (hs : I s) (h : Along act P s as) : I (as.foldl act s) ∧
      ∃ bs, Along act' P' (view s) bs ∧ bs.foldl act' (view s) = view (as.foldl act s) := by
  induction as generalizing s with
  | nil => exact ⟨hs, [], trivial, rfl⟩
  | cons a as ih =>
    obtain ⟨hI, bs, hbs, hfold⟩ := hstep s a hs h.1
    obtain ⟨hend, cs, hcs, hfold'⟩ := ih hI h.2
    refine ⟨hend, bs ++ cs, Along.append.2 ⟨hbs, ?_⟩, ?_⟩
    · rw [hfold]
      exact hcs
    · rw [List.foldl_append, hfold]
      exact hfold'

/-- A log only grows. -/
theorem log_front {f : σ → List ρ}
    (hstep : ∀ s a, f (act s a) = f s ∨ ∃ r, f (act s a) = f s ++ [r])
    (as : List α) (s : σ) : f s <+: f (as.foldl act s) := by
  induction as generalizing s with
  | nil => exact List.prefix_rfl
  | cons a as ih =>
    refine List.IsPrefix.trans ?_ (ih (act s a))
    rcases hstep s a with hsame | ⟨r, hnew⟩
    · rw [hsame]
    · rw [hnew]
      exact List.prefix_append ..

/-- **A front of the log** is the log of a front of the run, and of none that is longer. -/
theorem exists_front {f : σ → List ρ}
    (hstep : ∀ s a, f (act s a) = f s ∨ ∃ r, f (act s a) = f s ++ [r])
    (as : List α) (s : σ) {front : List ρ} (hs : f s <+: front)
    (hfront : front <+: f (as.foldl act s)) :
    ∃ before, before <+: as ∧ f (before.foldl act s) = front ∧
      ∀ run, run <+: as → f (run.foldl act s) <+: front → run <+: before := by
  induction as generalizing s with
  | nil =>
    exact ⟨[], List.prefix_rfl, hs.eq_of_length_le hfront.length_le, fun run hrun _ => hrun⟩
  | cons a as ih =>
    by_cases hnext : f (act s a) <+: front
    · obtain ⟨before, hbefore, hlog, hlongest⟩ := ih (act s a) hnext hfront
      refine ⟨a :: before, (List.prefix_cons_inj a).2 hbefore, hlog, fun run hrun hle => ?_⟩
      rcases List.prefix_cons_iff.1 hrun with rfl | ⟨run, rfl, hrest⟩
      · exact List.nil_prefix
      · exact (List.prefix_cons_inj a).2 (hlongest run hrest hle)
    · -- the next entry is not in the front any more
      refine ⟨[], List.nil_prefix, ?_, fun run hrun hle => ?_⟩
      · rcases hstep s a with hsame | ⟨r, hnew⟩
        · exact absurd (hsame ▸ hs) hnext
        · have hle : front <+: f (act s a) :=
            (List.prefix_or_prefix_of_prefix hfront (log_front hstep as (act s a))).resolve_right
              hnext
          rw [hnew] at hle hnext
          rcases List.prefix_concat_iff.1 hle with rfl | hle
          · exact absurd List.prefix_rfl hnext
          · exact hs.eq_of_length_le hle.length_le
      · rcases List.prefix_cons_iff.1 hrun with rfl | ⟨run, rfl, -⟩
        · exact List.prefix_rfl
        · exact absurd ((log_front hstep run (act s a)).trans hle) hnext

end Run

end Vdb
