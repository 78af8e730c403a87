import Mathlib.Tactic.Common

/-!
# Runs

A system takes one action after another, where it can. `Throughout P` says
that every state of a run satisfies `P`, `Along Q` that every step taken
satisfies `Q` of the state before it and the action.

* `run_invariant`: what every step keeps, every run keeps;
* `throughout_iff_along`: when `Q` is exactly what a step needs to keep `P`,
  it is exactly what a run needs.
-/

namespace Lib.Run

variable {S A : Type*} (step : S → A → Option S)

/-- The state after a run whose actions are all possible. -/
def run (s : S) : List A → Option S
  | [] => some s
  | a :: as => (step s a).bind fun s' => run s' as

/-- Every state of the run satisfies `P`. -/
def Throughout (P : S → Prop) (s : S) : List A → Prop
  | [] => P s
  | a :: as => P s ∧ ∀ s', step s a = some s' → Throughout P s' as

/-- Every step taken satisfies `Q`. -/
def Along (Q : S → A → Prop) (s : S) : List A → Prop
  | [] => True
  | a :: as => ∀ s', step s a = some s' → Q s a ∧ Along Q s' as

variable {step}

theorem run_append (as as' : List A) (s : S) :
    run step s (as ++ as') = (run step s as).bind fun s' => run step s' as' := by
  induction as generalizing s with
  | nil => rfl
  | cons a as ih => simp only [List.cons_append, run, ih, Option.bind_assoc]

theorem run_singleton (s : S) (a : A) : run step s [a] = step s a := by
  simp [run]

/-- What every step keeps, every run keeps. -/
theorem run_invariant {P : S → Prop} (hP : ∀ {s s' a}, P s → step s a = some s' → P s') :
    ∀ {as : List A} {s s' : S}, P s → run step s as = some s' → P s'
  | [], s, s', h, hr => by cases hr; exact h
  | a :: as, s, s', h, hr => by
    obtain ⟨s₁, h₁, hr⟩ := Option.bind_eq_some_iff.mp hr
    exact run_invariant hP (hP h h₁) hr

/-- What a step needs to keep `P`, a run needs at each of its steps. -/
theorem throughout_iff_along {P : S → Prop} {Q : S → A → Prop}
    (hP : ∀ {s s' a}, P s → step s a = some s' → (P s' ↔ Q s a)) :
    ∀ {as : List A} {s : S}, P s → (Throughout step P s as ↔ Along step Q s as)
  | [], s, h => iff_of_true h trivial
  | a :: as, s, h => by
    refine ⟨fun ⟨_, ht⟩ s' hs => ?_, fun ha => ⟨h, fun s' hs => ?_⟩⟩
    · have h' : P s' := by
        have := ht s' hs
        cases as with
        | nil => exact this
        | cons => exact this.1
      exact ⟨(hP h hs).mp h', (throughout_iff_along hP h').mp (ht s' hs)⟩
    · obtain ⟨hq, ha⟩ := ha s' hs
      exact (throughout_iff_along hP ((hP h hs).mpr hq)).mpr ha

/-- What holds of every action holds along every run of them. -/
theorem along_of_forall {Q : S → A → Prop} :
    ∀ {as : List A} {s : S}, (∀ a ∈ as, ∀ s, Q s a) → Along step Q s as
  | [], _, _ => trivial
  | a :: _, s, h => fun _ _ => ⟨h a List.mem_cons_self s,
      along_of_forall fun a' ha' => h a' (List.mem_cons_of_mem a ha')⟩

/-- A property of every state is one of the last. -/
theorem Throughout.last {P : S → Prop} :
    ∀ {as : List A} {s s' : S}, Throughout step P s as → run step s as = some s' → P s'
  | [], s, s', h, hr => by cases hr; exact h
  | a :: as, s, s', h, hr => by
    obtain ⟨s₁, h₁, hr⟩ := Option.bind_eq_some_iff.mp hr
    exact (h.2 s₁ h₁).last hr

/-- What no step restores holds throughout a run exactly when it holds at the end. -/
theorem throughout_iff_last {P : S → Prop} (hP : ∀ {s s' a}, step s a = some s' → P s' → P s) :
    ∀ {as : List A} {s s' : S}, run step s as = some s' → (Throughout step P s as ↔ P s')
  | [], s, s', hr => by
    obtain rfl := Option.some.inj hr
    exact Iff.rfl
  | a :: as, s, s', hr => by
    obtain ⟨s₁, h₁, hr⟩ := Option.bind_eq_some_iff.mp hr
    have ih := throughout_iff_last hP hr
    refine ⟨fun h => ih.mp (h.2 s₁ h₁), fun h => ?_⟩
    have hs₁ := ih.mpr h
    have hp : P s₁ := by
      cases as with
      | nil => exact hs₁
      | cons => exact hs₁.1
    refine ⟨hP h₁ hp, fun s₂ h₂ => ?_⟩
    rw [h₁, Option.some.injEq] at h₂
    rwa [← h₂]

/-- What a run leaves of a part of the state, where other actions leave that part
alone, the run of the actions about it leaves. -/
theorem run_filter {V : Type*} {view : S → V} {about : A → Bool}
    (frame : ∀ {s s' a}, about a = false → step s a = some s' → view s' = view s)
    (own : ∀ {s s' t a}, about a = true → view s = view t → step s a = some s' →
      ∃ t', step t a = some t' ∧ view s' = view t') :
    ∀ {as : List A} {s s' t : S}, view s = view t → run step s as = some s' →
      ∃ t', run step t (as.filter about) = some t' ∧ view s' = view t'
  | [], s, s', t, hv, hr => by
    obtain rfl := Option.some.inj hr
    exact ⟨t, rfl, hv⟩
  | a :: as, s, s', t, hv, hr => by
    obtain ⟨s₁, h₁, hr⟩ := Option.bind_eq_some_iff.mp hr
    rcases ha : about a with _ | _
    · rw [List.filter_cons_of_neg (by simp [ha])]
      exact run_filter frame own ((frame ha h₁).trans hv) hr
    · obtain ⟨t₁, ht₁, hv₁⟩ := own ha hv h₁
      obtain ⟨t', ht', hv'⟩ := run_filter frame own hv₁ hr
      refine ⟨t', ?_, hv'⟩
      rw [List.filter_cons_of_pos ha, run, ht₁]
      exact ht'

end Lib.Run
