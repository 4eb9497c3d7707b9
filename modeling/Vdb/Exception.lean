import Vdb.Lib.Bytes

/-!
# Exceptions

A call that may throw gives an `Outcome`: its result or the exception, and in both cases the state
it leaves behind.
-/

namespace Vdb

/-- The bytes of an ASCII text. -/
def ascii (s : String) : Bytes := s.toList.map fun c => UInt8.ofNat c.toNat

/-- The standard exceptions the library throws, with their texts, and a failed `assert`. -/
inductive Exn where
  | invalidArgument (what : Bytes)
  | runtimeError (what : Bytes)
  | lengthError (what : Bytes)
  | assertionFailed
  deriving DecidableEq

/-- There is no room: `std::length_error`, or an `assert` on a number. -/
def Exn.OutOfRoom : Exn → Prop
  | .lengthError _ | .assertionFailed => True
  | _ => False

instance Exn.decidableOutOfRoom : (e : Exn) → Decidable e.OutOfRoom
  | .lengthError _ | .assertionFailed => .isTrue trivial
  | .invalidArgument _ | .runtimeError _ => .isFalse id

theorem toOption_eq_some {ε α : Type} {x : Except ε α} {a : α} :
    x.toOption = some a ↔ x = .ok a := by
  cases x with
  | error e => exact ⟨nofun, nofun⟩
  | ok b => exact ⟨fun h => congrArg _ (Option.some.inj h), fun h => congrArg _ (Except.ok.inj h)⟩

/-- The result of a call, or the exception it throws, and the state it leaves. -/
abbrev Outcome (σ α : Type) := EStateM.Result Exn σ α

namespace Outcome

variable {σ τ α β : Type} {P : Exn → Prop}

/-- The state the call leaves. -/
def state : Outcome σ α → σ
  | .ok _ s => s
  | .error _ s => s

/-- The call returns. -/
def Returns : Outcome σ α → Prop
  | .ok _ _ => True
  | .error _ _ => False

instance : (o : Outcome σ α) → Decidable o.Returns
  | .ok _ _ => .isTrue trivial
  | .error _ _ => .isFalse id

theorem Returns.exists_ok {o : Outcome σ α} (h : o.Returns) : ∃ a, o = .ok a o.state := by
  cases o with
  | ok a s => exact ⟨a, rfl⟩
  | error e s => exact h.elim

/-- The call has failed an `assert`, and with it the program. -/
def Aborted : Outcome σ α → Prop
  | .error e _ => e = .assertionFailed
  | .ok _ _ => False

instance : (o : Outcome σ α) → Decidable o.Aborted
  | .error e _ => inferInstanceAs (Decidable (e = .assertionFailed))
  | .ok _ _ => .isFalse id

/-- Whatever the call throws is a `P`. -/
def ThrowsOnly (P : Exn → Prop) : Outcome σ α → Prop
  | .ok _ _ => True
  | .error e _ => P e

instance decidableThrowsOnly [DecidablePred P] : (o : Outcome σ α) → Decidable (o.ThrowsOnly P)
  | .ok _ _ => .isTrue trivial
  | .error e _ => inferInstanceAs (Decidable (P e))

/-- Go on with `f` unless the call has thrown. -/
def andThen (o : Outcome σ α) (f : α → σ → Outcome σ β) : Outcome σ β :=
  match o with
  | .ok a s => f a s
  | .error e s => .error e s

/-- The same outcome seen as one of a larger state. -/
def mapState (f : σ → τ) : Outcome σ α → Outcome τ α
  | .ok a s => .ok a (f s)
  | .error e s => .error e (f s)

/-- What both calls of a sequence leave true, whichever throws. -/
theorem andThen_state {P : σ → Prop} {o : Outcome σ α} {f : α → σ → Outcome σ β} (h : P o.state)
    (hf : ∀ a s, P s → P (f a s).state) : P (o.andThen f).state := by
  cases o with
  | ok a s => exact hf a s h
  | error e s => exact h

/-- A call that has failed an `assert` does not go on. -/
theorem Aborted.andThen {o : Outcome σ α} {f : α → σ → Outcome σ β} (h : o.Aborted) :
    (o.andThen f).Aborted := by
  cases o with
  | ok a s => exact h.elim
  | error e s => exact h

theorem state_mapState (o : Outcome σ α) (f : σ → τ) : (o.mapState f).state = f o.state := by
  cases o <;> rfl

/-- A sequence that returns has returned twice. -/
theorem andThen_ok {o : Outcome σ α} {f : α → σ → Outcome σ β} {b : β} {t : σ}
    (h : o.andThen f = .ok b t) : ∃ a s, o = .ok a s ∧ f a s = .ok b t := by
  cases o with
  | ok a s => exact ⟨a, s, rfl, h⟩
  | error e s => cases h

theorem mapState_ok {o : Outcome σ α} {f : σ → τ} {a : α} {t : τ} (h : o.mapState f = .ok a t) :
    ∃ s, o = .ok a s ∧ t = f s := by
  cases o with
  | ok b s =>
    cases h
    exact ⟨s, rfl, rfl⟩
  | error e s => cases h

/-- A sequence that throws has thrown in its first call or in its second one. -/
theorem andThen_error {o : Outcome σ α} {f : α → σ → Outcome σ β} {e : Exn} {t : σ}
    (h : o.andThen f = .error e t) : o = .error e t ∨ ∃ a s, o = .ok a s ∧ f a s = .error e t := by
  cases o with
  | ok a s => exact .inr ⟨a, s, rfl, h⟩
  | error e' s =>
    cases h
    exact .inl rfl

theorem mapState_error {o : Outcome σ α} {f : σ → τ} {e : Exn} {t : τ}
    (h : o.mapState f = .error e t) : ∃ s, o = .error e s ∧ t = f s := by
  cases o with
  | ok b s => cases h
  | error e' s =>
    cases h
    exact ⟨s, rfl, rfl⟩

theorem ThrowsOnly.andThen {o : Outcome σ α} {f : α → σ → Outcome σ β} (h : o.ThrowsOnly P)
    (hf : ∀ a s, o = .ok a s → (f a s).ThrowsOnly P) : (o.andThen f).ThrowsOnly P := by
  cases o with
  | ok a s => exact hf a s rfl
  | error e s => exact h

theorem ThrowsOnly.mapState {o : Outcome σ α} (h : o.ThrowsOnly P) (f : σ → τ) :
    (o.mapState f).ThrowsOnly P := by
  cases o with
  | ok a s => trivial
  | error e s => exact h

theorem returns_mapState {o : Outcome σ α} {f : σ → τ} : (o.mapState f).Returns ↔ o.Returns := by
  cases o <;> rfl

/-- Another result for the same state. -/
theorem state_andThen_ok (o : Outcome σ α) (f : α → β) :
    (o.andThen fun a s => .ok (f a) s).state = o.state := by
  cases o <;> rfl

/-- A call that goes on with what cannot throw. -/
theorem returns_andThen {o : Outcome σ α} {f : α → σ → Outcome σ β} (hf : ∀ a s, (f a s).Returns) :
    (o.andThen f).Returns ↔ o.Returns := by
  cases o with
  | ok a s => exact ⟨fun _ => trivial, fun _ => hf a s⟩
  | error e s => rfl

theorem andThen_state_of_throws {o : Outcome σ α} {f : α → σ → Outcome σ β} (h : ¬ o.Returns) :
    (o.andThen f).state = o.state := by
  cases o with
  | ok a s => exact absurd trivial h
  | error e s => rfl

/-- A call that throws nothing returns. -/
theorem ThrowsOnly.returns {o : Outcome σ α} (h : o.ThrowsOnly fun _ => False) :
    ∃ a s, o = .ok a s := by
  cases o with
  | ok a s => exact ⟨a, s, rfl⟩
  | error e s => exact h.elim

end Outcome

end Vdb
