import DistributedLog.Trace
import Mathlib.Data.Fintype.Defs
import Mathlib.Data.List.ReduceOption
import Mathlib.Logic.Function.Basic

/-!
# Shared objects and linearizability

Threads call the operations of a shared object and get replies; whatever
else happens is internal. A run is labelled accordingly, with an `Action`
for what a client sees and with nothing for an internal step.

`Atomic.Step spec` is the object on which every operation takes effect in
one internal step, at some time between its call and its reply. A system is
`Linearizable` when its clients cannot tell it from that object: every run
shows the actions of a run of the atomic one, in the same order. Calls and
replies keep their order, so the order in which the operations take effect
respects real time. `linearizable_of_simulation` is the proof rule.

`Hold`, `Grants` and `Exclusion` are what is needed of a reader–writer
lock: who may take it, and what follows about those that hold it.
-/

namespace DistributedLog

/-! ## Silent steps -/

namespace Trace

variable {σ υ ε : Type} {s₀ : σ}

/-- A simulation in which a step may be matched by any run that looks the
same from outside. -/
theorem weak_simulation {step : σ → Option ε → σ → Prop} {step' : υ → Option ε → υ → Prop}
    {t₀ : υ} {R : σ → υ → Prop} (h₀ : R s₀ t₀)
    (hstep : ∀ s t e s', R s t → step s e s' →
      ∃ es t', Trace step' t es t' ∧ es.reduceOption = e.toList ∧ R s' t')
    {es : List (Option ε)} {s : σ} (ht : Trace step s₀ es s) :
    ∃ es' t, Trace step' t₀ es' t ∧ es'.reduceOption = es.reduceOption ∧ R s t := by
  induction ht with
  | init => exact ⟨[], t₀, .init, rfl, h₀⟩
  | @snoc es e s s' _ hs ih =>
      obtain ⟨es₁, t, htr, hvis, hR⟩ := ih
      obtain ⟨es₂, t', htr', hvis', hR'⟩ := hstep _ _ _ _ hR hs
      refine ⟨es₁ ++ es₂, t', htr.append htr', ?_, hR'⟩
      have he : e.toList = [e].reduceOption := by cases e <;> rfl
      rw [List.reduceOption_append, List.reduceOption_append, hvis, hvis', he]

end Trace

/-! ## The atomic object -/

/-- What a client sees of a shared object. -/
inductive Action (τ ω ρ : Type) where
  | call (t : τ) (op : ω)
  | reply (t : τ) (res : ρ)

namespace Atomic

/-- How far the operation of a thread is. -/
inductive Status (ω ρ : Type) where
  | idle
  | pending (op : ω)
  | done (res : ρ)

structure State (τ α ω ρ : Type) where
  object : α
  status : τ → Status ω ρ

variable {τ α ω ρ : Type} [DecidableEq τ]

/-- The object whose operations take effect in one step each. -/
inductive Step (spec : α → ω → ρ → α → Prop) :
    State τ α ω ρ → Option (Action τ ω ρ) → State τ α ω ρ → Prop where
  | call {a : α} {status : τ → Status ω ρ} {t : τ} (op : ω) : status t = .idle →
      Step spec ⟨a, status⟩ (some (.call t op)) ⟨a, Function.update status t (.pending op)⟩
  | perform {a a' : α} {status : τ → Status ω ρ} {t : τ} {op : ω} {res : ρ} :
      status t = .pending op → spec a op res a' →
      Step spec ⟨a, status⟩ none ⟨a', Function.update status t (.done res)⟩
  | reply {a : α} {status : τ → Status ω ρ} {t : τ} {res : ρ} : status t = .done res →
      Step spec ⟨a, status⟩ (some (.reply t res)) ⟨a, Function.update status t .idle⟩

def start (a : α) : State τ α ω ρ := ⟨a, fun _ => .idle⟩

end Atomic

section linearizable

variable {σ τ α ω ρ : Type} [DecidableEq τ]

/-- Every run from `s₀` shows its clients the actions of a run of the atomic
object, and its last state is related to that of the object. -/
def Linearizable (step : σ → Option (Action τ ω ρ) → σ → Prop) (s₀ : σ)
    (spec : α → ω → ρ → α → Prop) (a₀ : α) (R : σ → Atomic.State τ α ω ρ → Prop) : Prop :=
  ∀ es s, Trace step s₀ es s → ∃ es' x, Trace (Atomic.Step spec) (Atomic.start a₀) es' x ∧
    es'.reduceOption = es.reduceOption ∧ R s x

theorem linearizable_of_simulation {step : σ → Option (Action τ ω ρ) → σ → Prop} {s₀ : σ}
    {spec : α → ω → ρ → α → Prop} {a₀ : α} {R R' : σ → Atomic.State τ α ω ρ → Prop}
    (h₀ : R s₀ (Atomic.start a₀))
    (hstep : ∀ s x e s', R s x → step s e s' → ∃ es x', Trace (Atomic.Step spec) x es x' ∧
      es.reduceOption = e.toList ∧ R s' x')
    (hR : ∀ s x, R s x → R' s x) : Linearizable step s₀ spec a₀ R' := by
  intro es s htr
  obtain ⟨es', x, htr', hvis, hx⟩ := htr.weak_simulation h₀ hstep
  exact ⟨es', x, htr', hvis, hR s x hx⟩

end linearizable

/-! ## Reader–writer locks -/

/-- What a thread holds of a reader–writer lock. -/
inductive Hold where
  | nothing
  | shared
  | exclusive
deriving DecidableEq, Repr

section lock

variable {τ : Type} [DecidableEq τ]

/-- The lock lets `t` in: nobody else may hold it exclusively, nor hold it
at all if `t` wants it for itself. -/
def Grants (hold : τ → Hold) (t : τ) : Hold → Prop
  | .nothing => True
  | .shared => ∀ u, hold u ≠ .exclusive
  | .exclusive => ∀ u, u ≠ t → hold u = .nothing

instance [Fintype τ] (hold : τ → Hold) (t : τ) : (k : Hold) → Decidable (Grants hold t k)
  | .nothing => .isTrue trivial
  | .shared => inferInstanceAs (Decidable (∀ u, hold u ≠ .exclusive))
  | .exclusive => inferInstanceAs (Decidable (∀ u, u ≠ t → hold u = .nothing))

/-- Whoever holds the lock exclusively is alone. -/
def Exclusion (hold : τ → Hold) : Prop :=
  ∀ t, hold t = .exclusive → ∀ u, u ≠ t → hold u = .nothing

/-- The lock has been given, kept or released. -/
theorem Exclusion.update {hold : τ → Hold} (h : Exclusion hold) {t : τ} {k : Hold}
    (hk : Grants hold t k ∨ k = hold t) : Exclusion (Function.update hold t k) := by
  rcases hk with hk | rfl
  · intro v hv u hu
    by_cases hvt : v = t
    · subst hvt
      rw [Function.update_self] at hv
      subst hv
      rw [Function.update_of_ne hu]
      exact hk u hu
    · rw [Function.update_of_ne hvt] at hv
      by_cases hut : u = t
      · subst hut
        rw [Function.update_self]
        cases k with
        | nothing => rfl
        | shared => exact absurd hv (hk v)
        | exclusive => rw [hk v hvt] at hv; cases hv
      · rw [Function.update_of_ne hut]
        exact h v hv u hu
  · rw [Function.update_eq_self]
    exact h

end lock

end DistributedLog
