import FiduciaPayments.Lib.Errexit
import Mathlib.Data.List.DropRight

/-!
# The name of the Kubernetes Secret

`env-k8s-secret` names the Secret after the git remote and the environment,
unless it is told a name. The remote is read by a pipeline whose status ends the
script, so that the directory's name, which is there for a repository without a
remote, is not used for one (`run_nameScript`). What is no letter, digit or `-`
is replaced or left out of the name, and environments whose names differ in
nothing else share a Secret (`secret_name_iff`).
-/

namespace Fiducia.Dotenv.SecretName

open Lib.Errexit Lib.Shell

/-- `[a-zA-Z0-9-]` -/
def isNameByte (c : UInt8) : Bool :=
  (0x61 ≤ c && c ≤ 0x7A) || (0x41 ≤ c && c ≤ 0x5A) || (0x30 ≤ c && c ≤ 0x39) || c == 0x2D

/-- `tr '._' '--'` of a byte. -/
def dash (c : UInt8) : UInt8 := if c = 0x2E ∨ c = 0x5F then 0x2D else c

/-- `tr '._' '--' | tr -cd 'a-zA-Z0-9-'` -/
def normalise (s : Word) : Word := (s.map dash).filter isNameByte

/-- `s#.*[/:]##` of a line: what is after the last `/` or `:`. -/
def afterLast (line : Word) : Word := line.rtakeWhile fun c => !(c == 0x2F || c == 0x3A)

/-- `s#\.git$##` of a line. -/
def withoutGit (line : Word) : Word :=
  if [0x2E, 0x67, 0x69, 0x74].isSuffixOf line then line.dropLast.dropLast.dropLast.dropLast
  else line

/-- `sed` of what `git config` printed, which is one line or nothing. -/
def sed (out : Word) : Outcome :=
  match out.getLast? with
  | none => { out := [], ok := true }
  | some _ =>
    { out := withoutGit (afterLast (out.rdropWhile (· = newline))) ++ [newline], ok := true }

/-- `git config --get remote.origin.url` prints the URL, or fails. -/
def gitConfig (remote : Option Word) : Outcome :=
  match remote with
  | some url => { out := url ++ [newline], ok := true }
  | none => { out := [], ok := false }

/-- The variables of the script. -/
structure Vars where
  sname : Word
  repo : Word
  deriving DecidableEq

/-- The script up to the name; `base` is `basename "$PWD"`. -/
def nameScript (remote : Option Word) (base name : Word) (s : Vars) : List (Command Vars Unit) :=
  if s.sname ≠ [] then []
  else
    [assign (pipe (gitConfig remote) (sed (gitConfig remote).out)) fun out s =>
        { s with repo := out },
      simple fun s => some (if s.repo ≠ [] then s else { s with repo := base }),
      simple fun s => some { s with sname := normalise (s.repo ++ [0x2D] ++ name) }]

/-- The name that the Secret gets; `none` where the script has ended before. -/
def secretName (secret : Word) (remote : Option Word) (base name : Word) : Option Word :=
  match run (nameScript remote base name ⟨secret, []⟩) ⟨secret, []⟩ with
  | .next s => some s.sname
  | _ => none

/-- The repository of a URL. -/
def repoOf (url base : Word) : Word :=
  if withoutGit (afterLast url) = [] then base else withoutGit (afterLast url)

section
variable {secret base name url : Word} {remote : Option Word}

theorem sed_gitConfig (hurl : newline ∉ url) :
    pipe (gitConfig (some url)) (sed (gitConfig (some url)).out) =
      { out := withoutGit (afterLast url) ++ [newline], ok := true } := by
  have hline : (url ++ [newline]).rdropWhile (· = newline) = url := by
    rw [List.rdropWhile_concat_pos _ _ _ (by decide), List.rdropWhile_eq_self_iff]
    intro h e
    exact hurl (of_decide_eq_true e ▸ List.getLast_mem h)
  simp only [pipe, gitConfig, sed, List.getLast?_concat, hline, Bool.and_self]

theorem mem_of_mem_withoutGit {c : UInt8} {line : Word} (h : c ∈ withoutGit line) : c ∈ line := by
  unfold withoutGit at h
  split at h
  · exact List.dropLast_subset _ (List.dropLast_subset _ (List.dropLast_subset _
      (List.dropLast_subset _ h)))
  · exact h

theorem mem_of_mem_repo {c : UInt8} (h : c ∈ withoutGit (afterLast url)) : c ∈ url :=
  (List.rtakeWhile_suffix _ url).subset (mem_of_mem_withoutGit h)

/-- A line of which `$(…)` takes the newline away. -/
theorem commandSubstitution_line {x : Word} (h0 : (0 : UInt8) ∉ x) (hn : newline ∉ x) :
    commandSubstitution (x ++ [newline]) = x :=
  commandSubstitution_concat h0 fun h e => hn (e ▸ List.getLast_mem h)

/-- The script gets a name from a remote, and ends without one. -/
theorem run_nameScript (hurl : ∀ url ∈ remote, newline ∉ url ∧ (0 : UInt8) ∉ url) :
    secretName [] remote base name =
      remote.map fun url => normalise (repoOf url base ++ [0x2D] ++ name) := by
  unfold secretName nameScript
  rw [if_neg (by simp)]
  cases remote with
  | none => rfl
  | some url =>
    obtain ⟨hn, h0⟩ := hurl url rfl
    rw [sed_gitConfig hn]
    simp only [run, assign, simple, if_true, Option.map_some,
      commandSubstitution_line (fun h => h0 (mem_of_mem_repo h)) fun h => hn (mem_of_mem_repo h)]
    unfold repoOf
    split <;> simp_all

/-! ## The name -/

theorem normalise_append (s t : Word) : normalise (s ++ t) = normalise s ++ normalise t := by
  rw [normalise, List.map_append, List.filter_append]
  rfl

theorem isNameByte_of_mem {s : Word} {c : UInt8} (h : c ∈ normalise s) : isNameByte c = true :=
  (List.mem_filter.mp h).2

/-- Of an environment that exists, and without a name that it is told,
`env-k8s-secret` ends before it renders anything exactly if there is no remote,
whatever the directory is called. The name it finds has letters, digits and `-` only, and two environments of a
repository share it exactly if their names are the same after the replacement. -/
theorem secret_name_iff (hurl : ∀ url ∈ remote, newline ∉ url ∧ (0 : UInt8) ∉ url) :
    (secretName [] remote base name = none ↔ remote = none) ∧
      (∀ n ∈ secretName [] remote base name, ∀ c ∈ n, isNameByte c = true) ∧
      ∀ name', remote ≠ none →
        (secretName [] remote base name = secretName [] remote base name' ↔
          normalise name = normalise name') := by
  simp only [run_nameScript hurl]
  cases remote with
  | none => exact ⟨iff_of_true rfl rfl, nofun, fun _ h => absurd rfl h⟩
  | some url =>
    refine ⟨iff_of_false nofun nofun, fun n hn c hc => ?_, fun name' _ => ?_⟩
    · rw [← Option.some.inj hn] at hc
      exact isNameByte_of_mem hc
    · rw [Option.map_some, Option.map_some, Option.some.injEq, normalise_append _ name,
        normalise_append _ name', List.append_right_inj]

end

/-- `p.e` and `p_e`, in a repository with the remote `g:a/b.git`. -/
theorem secret_name_shared :
    secretName [] (some [0x67, 0x3A, 0x61, 0x2F, 0x62, 0x2E, 0x67, 0x69, 0x74]) [0x77]
        [0x70, 0x2E, 0x65] =
      secretName [] (some [0x67, 0x3A, 0x61, 0x2F, 0x62, 0x2E, 0x67, 0x69, 0x74]) [0x77]
        [0x70, 0x5F, 0x65] :=
  ((secret_name_iff (by decide)).2.2 [0x70, 0x5F, 0x65] (by decide)).mpr (by decide)

end Fiducia.Dotenv.SecretName
