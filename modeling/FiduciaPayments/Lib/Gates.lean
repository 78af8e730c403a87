import FiduciaPayments.Lib.Result

/-!
# Ordered gates

A verdict decided by gates tried in order: the first gate that does not hold
answers with an error, and a request passing them all is accepted. `Decides`
is this reading of a result, built one gate at a time; `Decides.ok_iff` and
`Decides.rejected` are what it says about acceptance and about the error of a
request with several faults.
-/

namespace Lib.Gates

variable {G ε α : Type*}

/-- `result` is the verdict of the gates `order`, of which `holds` says
whether they hold and `answers` with which error they may answer. -/
inductive Decides (holds : G → Prop) (answers : G → ε → Prop) (result : Except ε α) :
    List G → Prop
  /-- No gate is left. -/
  | accept {a : α} : result = .ok a → Decides holds answers result []
  /-- The next gate does not hold, and answers. -/
  | reject {g : G} {order : List G} {e : ε} :
    ¬ holds g → answers g e → result = .error e → Decides holds answers result (g :: order)
  /-- The next gate holds, and leaves the verdict to those after it. -/
  | pass {g : G} {order : List G} :
    holds g → Decides holds answers result order → Decides holds answers result (g :: order)

variable {holds : G → Prop} {answers : G → ε → Prop} {result : Except ε α} {order : List G}

/-- A request is accepted exactly when every gate holds. -/
theorem Decides.ok_iff (h : Decides holds answers result order) :
    (∃ a, result = .ok a) ↔ ∀ g ∈ order, holds g := by
  induction h with
  | accept h => simp [h]
  | reject hg _ h => simp [h, hg]
  | pass hg _ ih => simp [ih, hg]

/-- The first failing gate answers. -/
theorem Decides.rejected (h : Decides holds answers result order) {before after : List G} {g : G}
    (ho : order = before ++ g :: after) (hb : ∀ g' ∈ before, holds g') (hg : ¬ holds g) :
    ∃ e, answers g e ∧ result = .error e := by
  induction h generalizing before with
  | accept => simp at ho
  | reject hg' ha hr =>
    cases before with
    | nil =>
      obtain ⟨rfl, -⟩ := List.cons.inj ho
      exact ⟨_, ha, hr⟩
    | cons b before =>
      obtain ⟨rfl, -⟩ := List.cons.inj ho
      exact absurd (hb _ List.mem_cons_self) hg'
  | pass hg' _ ih =>
    cases before with
    | nil => exact absurd ((List.cons.inj ho).1 ▸ hg') hg
    | cons b before => exact ih (List.cons.inj ho).2 fun g' h' => hb g' (List.mem_cons_of_mem _ h')

end Lib.Gates
