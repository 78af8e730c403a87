import FiduciaPayments.Model

/-!
# The runs of the provider verification model

Which sequences of actions `formal/provider_verification.qnt` allows
(`runs_iff`): gates are invalidated first; then there is one decision at most,
to verify if no gate was invalidated and to reject otherwise; a verified value is
consumed once at most; retries come after a decision, and nothing after the
model is closed. The actions that idle may stand anywhere.
-/

namespace Fiducia.Model

open Lib.Run

def Action.isIdle : Action → Bool
  | .idle => true
  | _ => false

/-- The actions that do not idle. -/
def moves (as : List Action) : List Action := as.filter fun a => !a.isIdle

/-- Nothing, or `close`. -/
def Closing (as : List Action) : Prop := as = [] ∨ as = [.close]

/-- Retries, and then the rest. -/
def Retries (rest : List Action → Prop) (as : List Action) : Prop :=
  ∃ k as', as = List.replicate k .retry ++ as' ∧ rest as'

/-- What can follow after `verify`. -/
def AfterVerify : List Action → Prop :=
  Retries fun as => Closing as ∨ ∃ as', as = .consume :: as' ∧ Retries Closing as'

/-- What can follow from the receipt, if the inputs are valid or not. -/
def AfterReceipt (valid : Bool) (as : List Action) : Prop :=
  ∃ (invalidated : List Gate) (as' : List Action), as = invalidated.map .invalidate ++ as' ∧
    (Closing as' ∨
      (∃ as'', as' = .verify :: as'' ∧ (invalidated = [] ∧ valid = true) ∧ AfterVerify as'') ∨
      ∃ as'', as' = .reject :: as'' ∧ ¬ (invalidated = [] ∧ valid = true) ∧
        Retries Closing as'')

section
variable {s : State} {a : Action} {as : List Action} {rest : List Action → Prop}

theorem isIdle_iff : a.isIdle = true ↔ a = .idle := by
  cases a <;> simp [Action.isIdle]

theorem run_moves : ∀ {as : List Action} {s : State}, run act s (moves as) = run act s as
  | [], _ => rfl
  | a :: as, s => by
    rcases ha : a.isIdle with _ | _
    · rw [moves, List.filter_cons_of_pos (by rw [ha]; rfl), run, run]
      exact congrArg _ (funext fun _ => run_moves)
    · obtain rfl := isIdle_iff.mp ha
      rw [moves, List.filter_cons_of_neg (by rw [ha]; decide)]
      exact run_moves

theorem retries_nil : Retries rest [] ↔ rest [] := by
  refine ⟨fun ⟨k, as', h, hr⟩ => ?_, fun h => ⟨0, [], rfl, h⟩⟩
  obtain ⟨-, rfl⟩ := List.append_eq_nil_iff.mp h.symm
  exact hr

theorem retries_cons :
    Retries rest (a :: as) ↔ (a = .retry ∧ Retries rest as) ∨ rest (a :: as) := by
  constructor
  · intro ⟨k, as', h, hr⟩
    cases k with
    | zero => exact .inr (h ▸ hr)
    | succ k =>
      obtain ⟨rfl, rfl⟩ := List.cons.inj h
      exact .inl ⟨rfl, k, as', rfl, hr⟩
  · intro h
    rcases h with ⟨rfl, k, as', rfl, hr⟩ | h
    · exact ⟨k + 1, as', rfl, hr⟩
    · exact ⟨0, a :: as, rfl, h⟩

theorem closing_cons : Closing (a :: as) ↔ a = .close ∧ as = [] := by
  simp [Closing]

theorem isSome_run_cons : (run act s (a :: as)).isSome ↔ ∃ s', act s a = some s' ∧
    (run act s' as).isSome := by
  rw [run, Option.isSome_bind]
  cases act s a <;> simp

/-! ## From each phase -/

/-- A list without `idle`. -/
def Moving (as : List Action) : Prop := ∀ a ∈ as, a.isIdle = false

theorem run_of_closed (hp : s.phase = .closed) (h : Moving as) :
    (run act s as).isSome ↔ as = [] := by
  cases as with
  | nil => exact iff_of_true rfl rfl
  | cons a as =>
    refine iff_of_false (fun hr => ?_) (List.cons_ne_nil a as)
    obtain ⟨s', ha, -⟩ := isSome_run_cons.mp hr
    have hidle := h a List.mem_cons_self
    cases a <;> simp [act, hp, Action.isIdle] at ha hidle

theorem run_close (h : Moving as) :
    (run act { s with phase := .closed } as).isSome ↔ as = [] :=
  run_of_closed rfl h

theorem act_of_decided {s' : State} (hp : s.phase = .rejected ∨ s.phase = .consumed)
    (hidle : a.isIdle = false) : act s a = some s' ↔
      a = .retry ∧ s = s' ∨ a = .close ∧ { s with phase := .closed } = s' := by
  rcases hp with hp | hp <;> cases a <;> simp [act, hp, Action.isIdle] at hidle ⊢

/-- After `reject` or `consume`. -/
theorem run_of_decided (hp : s.phase = .rejected ∨ s.phase = .consumed) : ∀ {as : List Action},
    Moving as → ((run act s as).isSome ↔ Retries Closing as)
  | [], _ => iff_of_true rfl (retries_nil.mpr (.inl rfl))
  | a :: as, h => by
    obtain ⟨ha, has⟩ := List.forall_mem_cons.mp h
    rw [isSome_run_cons, retries_cons, closing_cons, ← run_of_decided hp has,
      ← run_close (s := s) has]
    simp only [act_of_decided hp ha]
    constructor
    · intro ⟨s', hs', hr⟩
      rcases hs' with ⟨rfl, rfl⟩ | ⟨rfl, rfl⟩
      · exact .inl ⟨rfl, hr⟩
      · exact .inr ⟨rfl, hr⟩
    · intro hr
      rcases hr with ⟨rfl, hr⟩ | ⟨rfl, hr⟩
      · exact ⟨s, .inl ⟨rfl, rfl⟩, hr⟩
      · exact ⟨_, .inr ⟨rfl, rfl⟩, hr⟩

theorem act_of_verified {s' : State} (hp : s.phase = .verified) (ho : s.outputs = 1)
    (hc : s.consumes = 0) (hidle : a.isIdle = false) : act s a = some s' ↔
      a = .retry ∧ s = s' ∨ a = .close ∧ { s with phase := .closed } = s' ∨
        a = .consume ∧ { s with phase := .consumed, consumes := 1 } = s' := by
  cases a <;> simp [act, hp, ho, hc, Action.isIdle] at hidle ⊢

theorem run_of_verified (hp : s.phase = .verified) (ho : s.outputs = 1) (hc : s.consumes = 0) :
    ∀ {as : List Action}, Moving as → ((run act s as).isSome ↔ AfterVerify as)
  | [], _ => iff_of_true rfl (retries_nil.mpr (.inl (.inl rfl)))
  | a :: as, h => by
    obtain ⟨ha, has⟩ := List.forall_mem_cons.mp h
    have hconsume : (run act { s with phase := .consumed, consumes := 1 } as).isSome ↔
        Retries Closing as := run_of_decided (.inr rfl) has
    rw [isSome_run_cons, AfterVerify, retries_cons, closing_cons, ← run_close (s := s) has]
    have ih : Retries _ as ↔ _ := (run_of_verified hp ho hc has).symm
    rw [ih]
    simp only [act_of_verified hp ho hc ha]
    constructor
    · intro ⟨s', hs', hr⟩
      rcases hs' with ⟨rfl, rfl⟩ | ⟨rfl, rfl⟩ | ⟨rfl, rfl⟩
      · exact .inl ⟨rfl, hr⟩
      · exact .inr (.inl ⟨rfl, hr⟩)
      · exact .inr (.inr ⟨as, rfl, hconsume.mp hr⟩)
    · intro hr
      rcases hr with ⟨rfl, hr⟩ | ⟨rfl, hr⟩ | ⟨as', he, hr⟩
      · exact ⟨s, .inl ⟨rfl, rfl⟩, hr⟩
      · exact ⟨_, .inr (.inl ⟨rfl, rfl⟩), hr⟩
      · obtain ⟨rfl, rfl⟩ := List.cons.inj he
        exact ⟨_, .inr (.inr ⟨rfl, rfl⟩), hconsume.mpr hr⟩

theorem act_of_received {s' : State} (hp : s.phase = .received) (hidle : a.isIdle = false) :
    act s a = some s' ↔
      (∃ g, a = .invalidate g ∧ { s with valid := Function.update s.valid g false } = s') ∨
      a = .verify ∧ s.inputsValid = true ∧ { s with phase := .verified, outputs := 1 } = s' ∨
      a = .reject ∧ s.inputsValid = false ∧ { s with phase := .rejected } = s' ∨
      a = .close ∧ { s with phase := .closed } = s' := by
  cases a <;> simp [act, hp, Action.isIdle] at hidle ⊢

/-- A gate that was invalidated fails. -/
theorem inputsValid_update (s : State) (g : Gate) :
    ({ s with valid := Function.update s.valid g false } : State).inputsValid = false := by
  refine List.all_eq_false.mpr ⟨g, mem_gates g, ?_⟩
  show ¬ Function.update s.valid g false g = true
  rw [Function.update_self]
  decide

theorem afterReceipt_nil (valid : Bool) : AfterReceipt valid [] := ⟨[], [], rfl, .inl (.inl rfl)⟩

/-- The first action after the receipt. -/
theorem afterReceipt_cons {valid : Bool} : AfterReceipt valid (a :: as) ↔
    (∃ g, a = .invalidate g ∧ AfterReceipt false as) ∨
      a = .verify ∧ valid = true ∧ AfterVerify as ∨
      a = .reject ∧ valid = false ∧ Retries Closing as ∨ a = .close ∧ as = [] := by
  constructor
  · intro ⟨gs, as', he, hr⟩
    cases gs with
    | nil =>
      rw [List.map_nil, List.nil_append] at he
      subst he
      rcases hr with hr | ⟨as'', he, ⟨-, hv⟩, hr⟩ | ⟨as'', he, hv, hr⟩
      · exact .inr (.inr (.inr (closing_cons.mp hr)))
      · obtain ⟨rfl, rfl⟩ := List.cons.inj he
        exact .inr (.inl ⟨rfl, hv, hr⟩)
      · obtain ⟨rfl, rfl⟩ := List.cons.inj he
        exact .inr (.inr (.inl ⟨rfl, Bool.not_eq_true _ ▸ fun h => hv ⟨rfl, h⟩, hr⟩))
    | cons g gs =>
      obtain ⟨rfl, rfl⟩ := List.cons.inj he
      refine .inl ⟨g, rfl, gs, as', rfl, ?_⟩
      rcases hr with hr | ⟨as'', rfl, ⟨hgs, -⟩, -⟩ | ⟨as'', rfl, -, hr⟩
      · exact .inl hr
      · exact nomatch hgs
      · exact .inr (.inr ⟨as'', rfl, (fun h => nomatch h.2), hr⟩)
  · intro h
    rcases h with ⟨g, rfl, gs, as', rfl, hr⟩ | ⟨rfl, hv, hr⟩ | ⟨rfl, hv, hr⟩ | ⟨rfl, rfl⟩
    · refine ⟨g :: gs, as', rfl, ?_⟩
      rcases hr with hr | ⟨as'', rfl, ⟨-, hv⟩, -⟩ | ⟨as'', rfl, -, hr⟩
      · exact .inl hr
      · exact nomatch hv
      · exact .inr (.inr ⟨as'', rfl, (fun h => nomatch h.1), hr⟩)
    · exact ⟨[], _, rfl, .inr (.inl ⟨as, rfl, ⟨rfl, hv⟩, hr⟩)⟩
    · exact ⟨[], _, rfl, .inr (.inr ⟨as, rfl, fun h => absurd (hv.symm.trans h.2) (by decide), hr⟩)⟩
    · exact ⟨[], _, rfl, .inl (.inr rfl)⟩

theorem run_of_received : ∀ {as : List Action} {s : State}, s.phase = .received →
    s.consumes = 0 → Moving as → ((run act s as).isSome ↔ AfterReceipt s.inputsValid as)
  | [], s, _, _, _ => iff_of_true rfl (afterReceipt_nil _)
  | a :: as, s, hp, hc, h => by
    obtain ⟨ha, has⟩ := List.forall_mem_cons.mp h
    have hinvalid (g : Gate) :
        (run act { s with valid := Function.update s.valid g false } as).isSome ↔
          AfterReceipt false as := by
      have ih {s : State} (hp : s.phase = .received) (hc : s.consumes = 0) :
          (run act s as).isSome ↔ AfterReceipt s.inputsValid as := run_of_received hp hc has
      have h := ih (s := { s with valid := Function.update s.valid g false }) hp hc
      rwa [inputsValid_update] at h
    have hverify : (run act { s with phase := .verified, outputs := 1 } as).isSome ↔
        AfterVerify as :=
      run_of_verified (s := { s with phase := .verified, outputs := 1 }) rfl rfl hc has
    have hreject : (run act { s with phase := .rejected } as).isSome ↔ Retries Closing as :=
      run_of_decided (s := { s with phase := .rejected }) (.inl rfl) has
    rw [isSome_run_cons, afterReceipt_cons, ← run_close (s := s) has, ← hverify, ← hreject]
    simp only [act_of_received hp ha]
    constructor
    · intro ⟨s', hs', hr⟩
      rcases hs' with ⟨g, rfl, rfl⟩ | ⟨rfl, hv, rfl⟩ | ⟨rfl, hv, rfl⟩ | ⟨rfl, rfl⟩
      · exact .inl ⟨g, rfl, (hinvalid g).mp hr⟩
      · exact .inr (.inl ⟨rfl, hv, hr⟩)
      · exact .inr (.inr (.inl ⟨rfl, hv, hr⟩))
      · exact .inr (.inr (.inr ⟨rfl, hr⟩))
    · intro hr
      rcases hr with ⟨g, rfl, hr⟩ | ⟨rfl, hv, hr⟩ | ⟨rfl, hv, hr⟩ | ⟨rfl, hr⟩
      · exact ⟨_, .inl ⟨g, rfl, rfl⟩, (hinvalid g).mpr hr⟩
      · exact ⟨_, .inr (.inl ⟨rfl, hv, rfl⟩), hr⟩
      · exact ⟨_, .inr (.inr (.inl ⟨rfl, hv, rfl⟩)), hr⟩
      · exact ⟨_, .inr (.inr (.inr ⟨rfl, rfl⟩)), hr⟩

end

/-- The actions that the model allows, from its initial state for a provider. -/
theorem runs_iff (provider : Provider) (as : List Action) :
    (run act (init provider) as).isSome ↔ AfterReceipt true (moves as) := by
  have hmoving : Moving (moves as) := fun a ha => by
    simpa using (List.mem_filter.mp ha).2
  rw [← run_moves]
  exact run_of_received rfl rfl hmoving

end Fiducia.Model
