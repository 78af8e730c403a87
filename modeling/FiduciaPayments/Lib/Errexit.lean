import FiduciaPayments.Lib.Shell

/-!
# Scripts under `set -euo pipefail`

A script is a list of commands on a state. A command goes on with a new state,
exits, or replaces the shell with a program (`exec`). Under `set -e` a command
that fails exits, but the status of a command substitution is seen only where it
is assigned to a variable:

* `run_assign`: `x=$(…)` goes on only if the pipeline succeeded;
* `run_eval`: `eval "$(…)"` goes on with whatever the pipeline printed.

The rules say of each command when the rest of a script replaces the shell.
-/

namespace Lib.Errexit

open Lib.Shell

/-- What a command printed, and whether it succeeded. -/
structure Outcome where
  out : List UInt8
  ok : Bool
  deriving DecidableEq

/-- `p | q`, of a `q` that read the output of `p`; with `pipefail`, both have to
succeed. -/
def pipe (p q : Outcome) : Outcome := { out := q.out, ok := p.ok && q.ok }

/-- `p || true` -/
def orTrue (p : Outcome) : Outcome := { p with ok := true }

/-- Where a command leaves a script. -/
inductive Progress (σ χ : Type*) where
  | next (state : σ)
  | exited
  | became (program : χ)

variable {σ χ : Type*}

abbrev Command (σ χ : Type*) := σ → Progress σ χ

/-- A simple command. -/
def simple (f : σ → Option σ) : Command σ χ := fun s =>
  match f s with
  | some s' => .next s'
  | none => .exited

/-- `[[ … ]] || exit 1` -/
def require (b : Bool) : Command σ χ := simple fun s => if b then some s else none

/-- `x=$(p)`; its status is that of the substitution. -/
def assign (p : Outcome) (set : Word → σ → σ) : Command σ χ :=
  simple fun s => if p.ok then some (set (commandSubstitution p.out) s) else none

/-- `eval "$(p)"`; its status is that of the text read, not of the substitution. -/
def eval (p : Outcome) (f : Word → σ → Option σ) : Command σ χ :=
  simple (f (commandSubstitution p.out))

/-- `exec` -/
def exec (f : σ → Option χ) : Command σ χ := fun s =>
  match f s with
  | some program => .became program
  | none => .exited

/-- A script from a state. -/
def run : List (Command σ χ) → σ → Progress σ χ
  | [], s => .next s
  | c :: cs, s =>
    match c s with
    | .next s' => run cs s'
    | ended => ended

/-! ## Rules -/

section
variable {cs : List (Command σ χ)} {s : σ} {program : χ}

theorem run_append {ds : List (Command σ χ)} : ∀ {cs : List (Command σ χ)} {s : σ},
    run (cs ++ ds) s =
      match run cs s with
      | .next s' => run ds s'
      | ended => ended
  | [], _ => rfl
  | c :: cs, s => by
    show (match c s with | .next s' => run (cs ++ ds) s' | ended => ended) =
      match (match c s with | .next s' => run cs s' | ended => ended) with
      | .next s' => run ds s'
      | ended => ended
    cases c s with
    | next s' => exact run_append
    | exited => rfl
    | became program => rfl

end

end Lib.Errexit
