import Mathlib.Logic.Function.Basic
import Mathlib.Data.List.Basic

/-!
# Updates that are logged first and applied later

Updates of a map from keys to values are appended to a log in one order, and applied to the map in
another.  On every key at most one update is pending, which is logged and not applied.

* `Deferred` : a key without a pending update has the value that the log gives it; the others have
  the one that the log in front of the pending update gives.
* `Deferred.append`, `Deferred.apply` : what logging and applying an update keep of this.
* `Deferred.settled` : with nothing pending the map is what the log says, in the order of the log.
-/

namespace Vdb

variable {ρ κ α : Type*} (key : ρ → Option κ) (effect : ρ → α → α)

/-- What the updates make of the value under one key. -/
def replayed [DecidableEq κ] (base : κ → α) (log : List ρ) (x : κ) : α :=
  log.foldl (fun a r => if key r = some x then effect r a else a) (base x)

/-- The map `state` lags behind the log by the updates that are `pending`. -/
structure Deferred [DecidableEq κ] (base state : κ → α) (log : List ρ) (pending : κ → ρ → Prop) :
    Prop where
  settled : ∀ x, (∀ r, ¬ pending x r) → state x = replayed key effect base log x
  pending : ∀ x r, pending x r → key r = some x ∧ ∃ older newer, log = older ++ r :: newer ∧
    (∀ s ∈ newer, key s ≠ some x) ∧ state x = replayed key effect base older x

variable {key effect} [DecidableEq κ] {base state state' : κ → α} {log : List ρ}
  {pending pending' : κ → ρ → Prop} {r : ρ} {x : κ}

theorem replayed_append (base : κ → α) (older newer : List ρ) (x : κ) :
    replayed key effect base (older ++ newer) x =
      replayed key effect (replayed key effect base older) newer x :=
  List.foldl_append

/-- Updates of other keys. -/
theorem replayed_of_ne {newer : List ρ} (h : ∀ s ∈ newer, key s ≠ some x) (base : κ → α) :
    replayed key effect base newer x = base x := by
  unfold replayed
  generalize base x = a
  induction newer with
  | nil => rfl
  | cons s newer ih =>
    rw [List.foldl_cons, if_neg (h s List.mem_cons_self)]
    exact ih fun s hs => h s (List.mem_cons_of_mem _ hs)

theorem replayed_concat (base : κ → α) (log : List ρ) (r : ρ) (x : κ) :
    replayed key effect base (log ++ [r]) x =
      if key r = some x then effect r (replayed key effect base log x)
      else replayed key effect base log x := by
  rw [replayed_append]
  rfl

/-- One update of the value under a key. -/
theorem replayed_single (hr : key r = some x) (base : κ → α) :
    replayed key effect base [r] = Function.update base x (effect r (base x)) := by
  funext y
  change (if key r = some y then effect r (base y) else base y) = _
  rw [hr, Function.update_apply]
  by_cases hy : y = x
  · rw [if_pos hy, if_pos (hy ▸ rfl), hy]
  · rw [if_neg hy, if_neg fun heq => hy (Option.some.inj heq).symm]

/-- An entry that is no update. -/
theorem replayed_none (hr : key r = none) (base : κ → α) :
    replayed key effect base [r] = base := by
  funext y
  exact if_neg (by rw [hr]; exact nofun)

/-- Entries that are kept in another form. -/
theorem replayed_map {f : ρ → ρ} (hkey : ∀ r, key (f r) = key r)
    (heffect : ∀ r, effect (f r) = effect r) (base : κ → α) (log : List ρ) :
    replayed key effect base (log.map f) = replayed key effect base log := by
  funext x
  unfold replayed
  rw [List.foldl_map]
  simp only [hkey, heffect]

/-- A log in the order of its numbers falls apart at every number. -/
theorem filter_append_filter_lt {f : ρ → ℕ} {log : List ρ} (h : (log.map f).Pairwise (· < ·))
    (n : ℕ) : log.filter (f · ≤ n) ++ log.filter (n < f ·) = log := by
  induction log with
  | nil => rfl
  | cons r log ih =>
    obtain ⟨hr, hlog⟩ := List.pairwise_cons.1 h
    by_cases hn : f r ≤ n
    · rw [List.filter_cons_of_pos (by simpa using hn), List.filter_cons_of_neg (by simpa using hn),
        List.cons_append, ih hlog]
    · have hall : ∀ s ∈ log, n < f s := fun s hs =>
        Nat.lt_trans (Nat.lt_of_not_le hn) (hr _ (List.mem_map_of_mem hs))
      rw [List.filter_cons_of_neg (by simpa using hn), List.filter_cons_of_pos (by simpa using hn),
        List.filter_eq_nil_iff.2 fun s hs => by simpa using hall s hs,
        List.filter_eq_self.2 fun s hs => by simpa using hall s hs, List.nil_append]

namespace Deferred

/-- Nothing is pending yet. -/
theorem start (h : state = replayed key effect base log) :
    Deferred key effect base state log fun _ _ => False where
  settled x _ := congrFun h x
  pending _ _ h := h.elim

theorem congr (h : Deferred key effect base state log pending)
    (hp : ∀ x r, pending' x r ↔ pending x r) : Deferred key effect base state log pending' where
  settled x hx := h.settled x fun r hr => hx r ((hp x r).2 hr)
  pending x r hr := h.pending x r ((hp x r).1 hr)

/-- An entry of the log that is no update. -/
theorem note (h : Deferred key effect base state log pending) (hr : key r = none) :
    Deferred key effect base state (log ++ [r]) pending where
  settled x hx := by
    rw [replayed_concat, if_neg (by simp [hr])]
    exact h.settled x hx
  pending x s hs := by
    obtain ⟨hkey, older, newer, rfl, hnewer, hstate⟩ := h.pending x s hs
    refine ⟨hkey, older, newer ++ [r], by simp, fun t ht => ?_, hstate⟩
    rcases List.mem_append.1 ht with ht | ht
    · exact hnewer t ht
    · rw [List.mem_singleton.1 ht, hr]
      exact nofun

/-- **An update is logged** on a key on which none is pending. -/
theorem append (h : Deferred key effect base state log pending) (hr : key r = some x)
    (hfree : ∀ s, ¬ pending x s) (hp : ∀ y s, pending' y s ↔ pending y s ∨ y = x ∧ s = r) :
    Deferred key effect base state (log ++ [r]) pending' where
  settled y hy := by
    have hyx : y ≠ x := by
      rintro rfl
      exact hy r ((hp y r).2 (.inr ⟨rfl, rfl⟩))
    rw [replayed_concat, if_neg (by rw [hr]; exact fun heq => hyx (Option.some.inj heq).symm)]
    exact h.settled y fun s hs => hy s ((hp y s).2 (.inl hs))
  pending y s hs := by
    rcases (hp y s).1 hs with hs | ⟨rfl, rfl⟩
    · obtain ⟨hkey, older, newer, rfl, hnewer, hstate⟩ := h.pending y s hs
      have hyx : y ≠ x := by
        rintro rfl
        exact hfree s hs
      refine ⟨hkey, older, newer ++ [r], by simp, fun t ht => ?_, hstate⟩
      rcases List.mem_append.1 ht with ht | ht
      · exact hnewer t ht
      · rw [List.mem_singleton.1 ht, hr]
        exact fun heq => hyx (Option.some.inj heq).symm
    · exact ⟨hr, log, [], rfl, nofun, h.settled y hfree⟩

/-- **A pending update is applied**, which changes nothing but its key. -/
theorem apply (h : Deferred key effect base state log pending) (hr : pending x r)
    (hself : state' x = effect r (state x)) (hother : ∀ y, y ≠ x → state' y = state y)
    (hp : ∀ y s, pending' y s ↔ pending y s ∧ y ≠ x) :
    Deferred key effect base state' log pending' where
  settled y hy := by
    by_cases hyx : y = x
    · subst hyx
      obtain ⟨hkey, older, newer, rfl, hnewer, hstate⟩ := h.pending y r hr
      rw [List.append_cons, replayed_append, replayed_of_ne hnewer, replayed_concat, if_pos hkey,
        ← hstate, hself]
    · rw [hother y hyx]
      exact h.settled y fun s hs => hy s ((hp y s).2 ⟨hs, hyx⟩)
  pending y s hs := by
    obtain ⟨hs, hyx⟩ := (hp y s).1 hs
    obtain ⟨hkey, older, newer, hlog, hnewer, hstate⟩ := h.pending y s hs
    exact ⟨hkey, older, newer, hlog, hnewer, (hother y hyx).trans hstate⟩

end Deferred

end Vdb
