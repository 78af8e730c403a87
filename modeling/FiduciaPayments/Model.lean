import FiduciaPayments.Event
import FiduciaPayments.Lib.Run
import Mathlib.Logic.Function.Basic

/-!
# The provider verification model

`formal/provider_verification.qnt`: five gates between the receipt of a
webhook and a verdict, and a caller that consumes an accepted value once. The
repository checks `authentication_safety` on bounded runs; `run_safe` is the
same invariant on every run.

A verifier refines the model (`Refines`) when, in every state that records
which of a request's gates hold, it accepts exactly where the model can
`verify` and rejects exactly where the model can `reject`; such a state is
reached for every request (`exists_represents`).
-/

namespace Fiducia.Model

open Lib.Run

inductive Phase where
  | received
  | verified
  | rejected
  | consumed
  | closed
  deriving DecidableEq

inductive Gate where
  | configuration
  | envelope
  | provenance
  | signature
  | event
  deriving DecidableEq

/-- Every gate. -/
def gates : List Gate := [.configuration, .envelope, .provenance, .signature, .event]

theorem mem_gates (g : Gate) : g ∈ gates := by cases g <;> decide

structure State where
  phase : Phase
  provider : Provider
  valid : Gate → Bool
  outputs : Nat
  consumes : Nat

/-- `verification_inputs_valid`. -/
def State.inputsValid (s : State) : Bool := gates.all s.valid

/-- `init_with_provider`. -/
def init (provider : Provider) : State :=
  { phase := .received, provider, valid := fun _ => true, outputs := 0, consumes := 0 }

inductive Action where
  | invalidate (gate : Gate)
  | verify
  | reject
  | consume
  | retry
  | close
  | idle

/-- What an action does, where its guard allows it. -/
def act (s : State) : Action → Option State
  | .invalidate gate =>
    if s.phase = .received then some { s with valid := Function.update s.valid gate false }
    else none
  | .verify =>
    if s.phase = .received ∧ s.inputsValid then some { s with phase := .verified, outputs := 1 }
    else none
  | .reject =>
    if s.phase = .received ∧ ¬ s.inputsValid then some { s with phase := .rejected } else none
  | .consume =>
    if s.phase = .verified ∧ s.outputs = 1 ∧ s.consumes = 0 then
      some { s with phase := .consumed, consumes := 1 }
    else none
  | .retry =>
    if s.phase = .verified ∨ s.phase = .rejected ∨ s.phase = .consumed then some s else none
  | .close => if s.phase ≠ .closed then some { s with phase := .closed } else none
  | .idle => some s

/-! ## Safety -/

/-- `authentication_safety`. -/
structure AuthenticationSafety (s : State) : Prop where
  outputs_le : s.outputs ≤ 1
  consumes_le : s.consumes ≤ s.outputs
  verified : s.outputs = 1 →
    s.inputsValid ∧ (s.phase = .verified ∨ s.phase = .consumed ∨ s.phase = .closed)
  consumed : s.consumes = 1 → s.phase = .consumed ∨ s.phase = .closed
  received : s.phase = .received → s.outputs = 0 ∧ s.consumes = 0
  rejected : s.phase = .rejected → s.outputs = 0 ∧ s.consumes = 0

theorem init_safe (provider : Provider) : AuthenticationSafety (init provider) :=
  ⟨by simp [init], by simp [init], by simp [init], by simp [init], by simp [init], by simp [init]⟩

/-- Every action keeps the invariant. -/
theorem act_safe {s s' : State} {a : Action} (h : AuthenticationSafety s) (ha : act s a = some s') :
    AuthenticationSafety s' := by
  obtain ⟨ho, hc, hv, hd, hr, hj⟩ := h
  cases a <;> simp only [act, Option.ite_none_right_eq_some, Option.some.injEq] at ha
  case invalidate gate =>
    obtain ⟨hp, rfl⟩ := ha
    have := hr hp
    exact ⟨ho, hc, by simp [this.1], by simp [this.2], hr, by simp [hp]⟩
  case verify =>
    obtain ⟨⟨hp, hi⟩, rfl⟩ := ha
    have := hr hp
    exact ⟨Nat.le_refl 1, by simp [this.2], fun _ => ⟨hi, .inl rfl⟩, by simp [this.2], nofun, nofun⟩
  case reject =>
    obtain ⟨⟨hp, -⟩, rfl⟩ := ha
    have := hr hp
    exact ⟨ho, hc, by simp [this.1], by simp [this.2], nofun, fun _ => this⟩
  case consume =>
    obtain ⟨⟨hp, h1, -⟩, rfl⟩ := ha
    exact ⟨ho, Nat.le_of_eq h1.symm, fun _ => ⟨(hv h1).1, .inr (.inl rfl)⟩, fun _ => .inl rfl,
      nofun, nofun⟩
  case retry => exact ha.2 ▸ ⟨ho, hc, hv, hd, hr, hj⟩
  case close =>
    obtain ⟨-, rfl⟩ := ha
    exact ⟨ho, hc, fun h1 => ⟨(hv h1).1, .inr (.inr rfl)⟩, fun _ => .inr rfl, nofun, nofun⟩
  case idle => exact ha ▸ ⟨ho, hc, hv, hd, hr, hj⟩

/-- The invariant holds after every run. -/
theorem run_safe {provider : Provider} {as : List Action} {s : State}
    (h : run act (init provider) as = some s) : AuthenticationSafety s :=
  run_invariant act_safe (init_safe provider) h

/-! ## Refinement -/

/-- The state has received a request of which exactly the gates `holds` hold. -/
def Represents (s : State) (provider : Provider) (holds : Gate → Prop) : Prop :=
  s.phase = .received ∧ s.provider = provider ∧ ∀ g, s.valid g = true ↔ holds g

/-- The verifier's result on a request agrees with the model: it is an event
where the model can `verify`, and an error where it can `reject`. -/
def Refines (provider : Provider) (holds : Gate → Prop)
    (result : Except VerifyError VerifiedEvent) : Prop :=
  ∀ s, Represents s provider holds →
    ((∃ e, result = .ok e) ↔ (act s .verify).isSome) ∧
      ((∃ err, result = .error err) ↔ (act s .reject).isSome)

theorem inputsValid_iff {s : State} {provider : Provider} {holds : Gate → Prop}
    (h : Represents s provider holds) : s.inputsValid = true ↔ ∀ g, holds g := by
  unfold State.inputsValid
  rw [List.all_eq_true]
  exact ⟨fun hv g => (h.2.2 g).mp (hv g (mem_gates g)), fun hg g _ => (h.2.2 g).mpr (hg g)⟩

/-- A verifier that accepts exactly when every gate holds refines the model. -/
theorem refines_of_ok_iff {provider : Provider} {holds : Gate → Prop}
    {result : Except VerifyError VerifiedEvent} (h : (∃ e, result = .ok e) ↔ ∀ g, holds g) :
    Refines provider holds result := by
  intro s hs
  have hv := inputsValid_iff hs
  refine ⟨?_, ?_⟩
  · rw [h, ← hv]
    simp [act, hs.1]
  · rw [← Lib.Result.not_exists_ok_iff, h, ← hv]
    simp [act, hs.1]

/-- Whatever gates hold, a run reaches a state that says so. -/
theorem exists_represents (provider : Provider) (holds : Gate → Prop) :
    ∃ as s, run act (init provider) as = some s ∧ Represents s provider holds := by
  classical
  have key : ∀ gs : List Gate, ∃ as s, run act (init provider) as = some s ∧ s.phase = .received ∧
      s.provider = provider ∧ ∀ g, s.valid g = true ↔ (g ∈ gs → holds g) := by
    intro gs
    induction gs with
    | nil => exact ⟨[], init provider, rfl, rfl, rfl, by simp [init]⟩
    | cons g gs ih =>
      obtain ⟨as, s, hr, hp, hq, hv⟩ := ih
      by_cases hg : holds g
      · refine ⟨as, s, hr, hp, hq, fun g' => (hv g').trans ?_⟩
        by_cases e : g' = g
        · subst e; simp [hg]
        · simp [e]
      · refine ⟨as ++ [.invalidate g], { s with valid := Function.update s.valid g false }, ?_, hp,
          hq, fun g' => ?_⟩
        · rw [run_append, hr]
          simp [run, act, hp]
        · by_cases e : g' = g
          · subst e; simp [hg]
          · simp [hv, e]
  obtain ⟨as, s, hr, hp, hq, hv⟩ := key gates
  exact ⟨as, s, hr, hp, hq, fun g => by simp [hv, mem_gates]⟩

end Fiducia.Model
