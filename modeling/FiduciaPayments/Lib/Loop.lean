import Mathlib.Data.List.Basic
import Mathlib.Logic.Function.Basic

/-!
# Loops under `set -e`

`for a in …; do body; done`, of a body that changes a state and succeeds or
fails. The loop stops at the first round that fails; what the rounds before it
did, and what it did itself, stays.

* `forEach_split`: what the rounds before the one that fails have kept;
* `forEach_same`: rounds that change nothing leave nothing changed.
-/

namespace Lib.Loop

variable {σ A : Type*}

/-- The state that a loop leaves, and the round at which it stopped. -/
def forEach (body : A → σ → σ × Bool) : List A → σ → σ × Option A
  | [], s => (s, none)
  | a :: as, s =>
    match body a s with
    | (s', true) => forEach body as s'
    | (s', false) => (s', some a)

variable {body : A → σ → σ × Bool} {s s' : σ} {a : A} {as : List A}

theorem forEach_ok (h : body a s = (s', true)) :
    forEach body (a :: as) s = forEach body as s' := by
  rw [forEach, h]

theorem forEach_failed (h : body a s = (s', false)) :
    forEach body (a :: as) s = (s', some a) := by
  rw [forEach, h]

/-- What holds at first, and is kept by the rounds that succeed, holds of the
rounds before the one that fails, or of all. -/
theorem forEach_split {P : List A → σ → Prop} :
    ∀ {as : List A} (before : List A) {s : σ}, P before s →
    (∀ {done a s s'}, a ∈ as → P done s → body a s = (s', true) → P (done ++ [a]) s') →
    ∃ done rest s₁, as = done ++ rest ∧ P (before ++ done) s₁ ∧
      (forEach body as s).2 = rest.head? ∧
      (rest.head? = none ∧ (forEach body as s).1 = s₁ ∨
        ∃ a ∈ rest.head?, body a s₁ = ((forEach body as s).1, false))
  | [], _, s, h, _ =>
    ⟨[], [], s, rfl, by rwa [List.append_nil], rfl, .inl ⟨rfl, rfl⟩⟩
  | a :: as, _, s, h, hstep => by
    rcases hb : body a s with ⟨s', _ | _⟩
    · rw [forEach_failed hb]
      exact ⟨[], a :: as, s, rfl, by rwa [List.append_nil], rfl, .inr ⟨a, rfl, hb⟩⟩
    · rw [forEach_ok hb]
      obtain ⟨done, rest, s₁, rfl, hP, hrest⟩ := forEach_split _
        (hstep List.mem_cons_self h hb) fun ha => hstep (List.mem_cons_of_mem a ha)
      refine ⟨a :: done, rest, s₁, rfl, ?_, hrest⟩
      rwa [List.append_assoc, List.singleton_append] at hP

/-- Rounds that change nothing, wherever the loop stops. -/
theorem forEach_same : ∀ {as : List A}, (∀ a ∈ as, (body a s).1 = s) → (forEach body as s).1 = s
  | [], _ => rfl
  | a :: as, h => by
    have ha := h a List.mem_cons_self
    rcases hb : body a s with ⟨s', _ | _⟩
    · rw [forEach_failed hb]
      rwa [hb] at ha
    · rw [hb] at ha
      have hs : s' = s := ha
      rw [forEach_ok hb, hs]
      exact forEach_same fun b hb => h b (List.mem_cons_of_mem a hb)

end Lib.Loop
