import FiduciaPayments.Dotenv.Recipes
import FiduciaPayments.Lib.Loop

/-!
# The environment files

The recipes of `.just/env.just` that write under `env/`: ciphertexts in
`env/enc`, plaintexts and temporary files in `env/dec`. Each is a loop of
rounds, one for each environment that it is given (`recipe`), and a round is
one call of sops, or of sops and `dotenv.py`, between operations on files.
What the calls leave is a parameter of the round (`Calls`). A round that fails
leaves what it wrote. `round_change` lists what a round can do.
-/

namespace Fiducia.Dotenv.Store

open Lib.Errexit Lib.Loop Lib.Python Lib.Shell
open Recipes (SopsDecrypt DotenvPy)

abbrev Name := List UInt8

abbrev Text := List UInt8

structure Files where
  /-- `env/enc/<name>.env.enc` -/
  enc : Name → Option Text
  /-- `env/dec/<name>.env` -/
  dec : Name → Option Text
  /-- `env/dec/.<name>.XXXXXX`, the newest first. -/
  temps : List (Name × Text)

def Files.setEnc (s : Files) (n : Name) (t : Text) : Files :=
  { s with enc := Function.update s.enc n (some t) }

def Files.setDec (s : Files) (n : Name) (t : Text) : Files :=
  { s with dec := Function.update s.dec n (some t) }

/-- How `sops edit` ends: with another file (0), with the file as it was (200),
or otherwise. -/
inductive Edited where
  | changed (file : Text)
  | unchanged
  | failed

/-- What the programs that a round calls leave. -/
structure Calls where
  /-- `sops decrypt` of a file. -/
  decrypt : Text → Outcome
  /-- `sops encrypt` of a plaintext. -/
  encrypt : Text → Outcome
  /-- `sops edit` of a file, if there is one, where the editor leaves a text. -/
  edit : Option Text → Text → Edited
  /-- `sops updatekeys` of a file; `none` where it fails. -/
  updatekeys : Text → Option Text
  /-- `dotenv.py envfile` of its input. -/
  dotenv : Text → Outcome

/-! ## Rounds -/

/-- `tmp=$(mktemp …)`, `… > "$tmp"` and `mv -f "$tmp" "$out"`. -/
def materialise (n : Name) (o : Outcome) (s : Files) : Files × Bool :=
  let s := { s with temps := (n, o.out) :: s.temps }
  if o.ok then ({ s with temps := s.temps.tail }.setDec n o.out, true) else (s, false)

/-- `sops encrypt … > "$dst"`; the shell makes the file before sops is called. -/
def encryptTo (n : Name) (t : Text) (calls : Calls) (s : Files) : Files × Bool :=
  let o := calls.encrypt t
  (s.setEnc n o.out, o.ok)

/-- `sops edit` of `env/enc/<name>.env.enc`. -/
def edited (n : Name) (e : Edited) (s : Files) : Files × Bool :=
  match e with
  | .changed file => (s.setEnc n file, true)
  | .unchanged => (s, true)
  | .failed => (s, false)

def envDecrypt (n : Name) (calls : Calls) (s : Files) : Files × Bool :=
  match s.enc n with
  | none => (s, false)
  | some src => materialise n (calls.decrypt src) s

def envEncrypt (n : Name) (calls : Calls) (s : Files) : Files × Bool :=
  match s.dec n with
  | none => (s, false)
  | some src =>
    match s.enc n with
    | some dst => edited n (calls.edit (some dst) src) s
    | none => encryptTo n src calls s

/-- `env-edit`, where the editor leaves a text; the recipe fails where sops
exits with 200. -/
def envEdit (text : Text) (n : Name) (calls : Calls) (s : Files) : Files × Bool :=
  match calls.edit (s.enc n) text with
  | .changed file => edited n (.changed file) s
  | .unchanged => (s, false)
  | .failed => (s, false)

/-- The line that `env-new` encrypts. -/
def newText (n : Name) : Text :=
  bytes (lit "# ") ++ n ++
    bytes (lit " environment for this repo. Values are encrypted; names are not.\n")

def envNew (n : Name) (calls : Calls) (s : Files) : Files × Bool :=
  match s.enc n with
  | some _ => (s, false)
  | none => encryptTo n (newText n) calls s

def envDockerEnvFile (n : Name) (calls : Calls) (s : Files) : Files × Bool :=
  match s.enc n with
  | none => (s, false)
  | some src =>
    let sops := calls.decrypt src
    materialise n (pipe sops (calls.dotenv sops.out)) s

def envRekey (n : Name) (calls : Calls) (s : Files) : Files × Bool :=
  match (s.enc n).bind calls.updatekeys with
  | none => (s, false)
  | some file => (s.setEnc n file, true)

/-- The recipes that write under `env/`, but for `env-clean`. -/
inductive Recipe where
  | envDecrypt
  | envEncrypt
  | envEdit (text : Text)
  | envNew
  | envDockerEnvFile
  | envRekey

def Recipe.round : Recipe → Name → Calls → Files → Files × Bool
  | .envDecrypt => Store.envDecrypt
  | .envEncrypt => Store.envEncrypt
  | .envEdit text => Store.envEdit text
  | .envNew => Store.envNew
  | .envDockerEnvFile => Store.envDockerEnvFile
  | .envRekey => Store.envRekey

/-- A recipe, of the environments that it is given or has found, up to the one
at which it exits. -/
def Recipe.run (r : Recipe) (rounds : List (Name × Calls)) (s : Files) :
    Files × Option (Name × Calls) :=
  forEach (fun c => r.round c.1 c.2) rounds s

theorem Recipe.run_ok {r : Recipe} {n : Name} {calls : Calls} {rounds : List (Name × Calls)}
    {s s' : Files} (h : r.round n calls s = (s', true)) :
    r.run ((n, calls) :: rounds) s = r.run rounds s' := forEach_ok h

theorem Recipe.run_failed {r : Recipe} {n : Name} {calls : Calls} {rounds : List (Name × Calls)}
    {s s' : Files} (h : r.round n calls s = (s', false)) :
    r.run ((n, calls) :: rounds) s = (s', some (n, calls)) := forEach_failed h

/-- What the rounds before the one at which a recipe exits have kept. -/
theorem Recipe.run_split {r : Recipe} {P : List (Name × Calls) → Files → Prop}
    {rounds : List (Name × Calls)} {s : Files} (h : P [] s)
    (hstep : ∀ {done c s s'}, c ∈ rounds → P done s → r.round c.1 c.2 s = (s', true) →
      P (done ++ [c]) s') :
    ∃ done rest s₁, rounds = done ++ rest ∧ P done s₁ ∧ (r.run rounds s).2 = rest.head? ∧
      (rest.head? = none ∧ (r.run rounds s).1 = s₁ ∨
        ∃ c ∈ rest.head?, r.round c.1 c.2 s₁ = ((r.run rounds s).1, false)) :=
  forEach_split [] h hstep

/-- `*.env` finds a file; what begins with a dot is hidden. -/
def isVisible : Name → Bool
  | [] => false
  | c :: _ => c != 0x2E

def envClean (s : Files) : Files :=
  { s with dec := fun n => if isVisible n then none else s.dec n }

/-! ## Calls

What is documented of sops and of `dotenv.py`. `plain` is the plaintext of a
file, for a holder of one of its keys; `sops encrypt` and `sops updatekeys` write
files for keys that this host need not hold. `canon` is what sops makes of a
plaintext. -/

section
variable (plain canon : Text → Option Text) (calls : Calls)

structure Calls.Decrypts : Prop where
  decrypt {c p : Text} : plain c = some p → SopsDecrypt p (calls.decrypt c)
  decrypt_none {c : Text} : plain c = none → (calls.decrypt c).ok = false

/-- A file is printed when it is whole. -/
structure Calls.Encrypts : Prop where
  encrypt {t : Text} : (calls.encrypt t).ok = true →
    ∃ p, canon t = some p ∧ plain (calls.encrypt t).out = some p
  encrypt_failed {t : Text} : (calls.encrypt t).ok = false → (calls.encrypt t).out = []

/-- `sops edit` decrypts a file that there is. -/
structure Calls.Edits : Prop where
  changed {c : Option Text} {t file : Text} : calls.edit c t = .changed file →
    ∃ p, canon t = some p ∧ plain file = some p
  changed_some {c t file : Text} : calls.edit (some c) t = .changed file →
    ∃ p, plain c = some p ∧ p ≠ t
  unchanged {c t : Text} : calls.edit (some c) t = .unchanged → plain c = some t

/-- `sops updatekeys` encrypts the data key again, and leaves the values as they
are; it passes a file whose keys are up to date without a look at them. A file
without metadata is no file of sops. -/
structure Calls.Rekeys : Prop where
  updatekeys {c file : Text} : calls.updatekeys c = some file → plain file = plain c
  updatekeys_nil : calls.updatekeys [] = none

end

/-- `dotenv.py envfile`, on streams with an error handler. -/
def Calls.Renders (errors : Errors) (names : List UInt8 → Option CodePoint) (calls : Calls) :
    Prop :=
  ∀ t, DotenvPy errors names .envfile t (calls.dotenv t)

/-- A plaintext, or all of its env-file. -/
def Whole (errors : Errors) (names : List UInt8 → Option CodePoint) (p t : Text) : Prop :=
  t = p ∨ ∃ text, errors.decode p = some text ∧
    mainWith names errors .envfile (lit "app-env") text = some t

section
variable {errors : Errors} {names : List UInt8 → Option CodePoint}
  {plain canon : Text → Option Text} {calls : Calls} {c : Text}

theorem Calls.Decrypts.out_eq (h : calls.Decrypts plain) (hok : (calls.decrypt c).ok = true) :
    plain c = some (calls.decrypt c).out := by
  match hp : plain c with
  | none => exact absurd hok (Bool.eq_false_iff.mp (h.decrypt_none hp))
  | some p => rw [(h.decrypt hp).out_of_ok hok]

theorem Calls.Renders.whole (h : calls.Renders errors names) {p : Text}
    (hok : (calls.dotenv p).ok = true) : Whole errors names p (calls.dotenv p).out := by
  have hd := h p
  generalize calls.dotenv p = d at hd hok ⊢
  cases hd with
  | done ht hm => exact .inr ⟨_, ht, hm⟩
  | silent => exact absurd hok Bool.false_ne_true
  | failed => exact absurd hok Bool.false_ne_true

end

/-! ## What a round does -/

/-- `env-decrypt` and `env-docker-env-file`, which write a plaintext. -/
def Recipe.materialises : Recipe → Bool
  | .envDecrypt | .envDockerEnvFile => true
  | _ => false

/-- What a round of a recipe can do to the files of its environment, and whether
it succeeds. -/
inductive Change (calls : Calls) (r : Recipe) (n : Name) (s : Files) : Files → Bool → Prop where
  /-- It fails and writes nothing. -/
  | refused : (r.materialises = true → s.enc n = none) → Change calls r n s s false
  /-- `sops edit` leaves the ciphertext as it is. -/
  | unchanged {c t : Text} : r.materialises = false → s.enc n = some c →
      calls.edit (some c) t = .unchanged → Change calls r n s s true
  | edited {t file : Text} : r.materialises = false → calls.edit (s.enc n) t = .changed file →
      Change calls r n s (s.setEnc n file) true
  | rekeyed {c file : Text} : r = .envRekey → s.enc n = some c →
      calls.updatekeys c = some file → Change calls r n s (s.setEnc n file) true
  /-- There was no ciphertext, and there is a file whether or not sops fails. -/
  | encrypted {t : Text} : r.materialises = false → s.enc n = none →
      Change calls r n s (s.setEnc n (calls.encrypt t).out) (calls.encrypt t).ok
  | decrypted {c : Text} : r.materialises = true → s.enc n = some c →
      (calls.decrypt c).ok = true → Change calls r n s (s.setDec n (calls.decrypt c).out) true
  | rendered {c : Text} : r.materialises = true → s.enc n = some c →
      (calls.decrypt c).ok = true → (calls.dotenv (calls.decrypt c).out).ok = true →
      Change calls r n s (s.setDec n (calls.dotenv (calls.decrypt c).out).out) true
  /-- A temporary file is left. -/
  | stranded {c t : Text} : r.materialises = true → s.enc n = some c →
      Change calls r n s { s with temps := (n, t) :: s.temps } false

section
variable {calls : Calls} {r : Recipe} {n : Name} {s : Files} {t c : Text} {o : Outcome}

theorem materialise_ok (h : o.ok = true) : materialise n o s = (s.setDec n o.out, true) := by
  rw [materialise, if_pos h]
  rfl

theorem materialise_failed (h : o.ok = false) :
    materialise n o s = ({ s with temps := (n, o.out) :: s.temps }, false) := by
  rw [materialise, if_neg (Bool.eq_false_iff.mp h)]

theorem change_materialise (hr : r.materialises = true) (hc : s.enc n = some c)
    (h : o.ok = true → Change calls r n s (s.setDec n o.out) true) :
    Change calls r n s (materialise n o s).1 (materialise n o s).2 := by
  rcases ho : o.ok with _ | _
  · rw [materialise_failed ho]
    exact .stranded hr hc
  · rw [materialise_ok ho]
    exact h ho

/-- `sops edit` of a file that there is. -/
theorem change_edited (hr : r.materialises = false) (hc : s.enc n = some c) :
    Change calls r n s (edited n (calls.edit (some c) t) s).1
      (edited n (calls.edit (some c) t) s).2 := by
  match he : calls.edit (some c) t with
  | .failed => exact .refused fun h => absurd (hr.symm.trans h) Bool.false_ne_true
  | .unchanged => exact .unchanged hr hc he
  | .changed file => exact .edited (t := t) hr (by rw [hc, he])

/-- Every round does one of these. -/
theorem round_change : Change calls r n s (r.round n calls s).1 (r.round n calls s).2 := by
  cases r with
  | envDecrypt =>
    show Change _ _ _ _ (envDecrypt n calls s).1 (envDecrypt n calls s).2
    unfold envDecrypt
    match hc : s.enc n with
    | none => exact .refused fun _ => hc
    | some c => exact change_materialise rfl hc fun ho => .decrypted rfl hc ho
  | envEncrypt =>
    show Change _ _ _ _ (envEncrypt n calls s).1 (envEncrypt n calls s).2
    unfold envEncrypt
    match s.dec n with
    | none => exact .refused nofun
    | some src =>
      match hc : s.enc n with
      | none => exact .encrypted rfl hc
      | some c => exact change_edited rfl hc
  | envEdit text =>
    show Change _ _ _ _ (envEdit text n calls s).1 (envEdit text n calls s).2
    unfold envEdit
    match he : calls.edit (s.enc n) text with
    | .failed => exact .refused nofun
    | .unchanged => exact .refused nofun
    | .changed file => exact .edited rfl he
  | envNew =>
    show Change _ _ _ _ (envNew n calls s).1 (envNew n calls s).2
    unfold envNew
    match hc : s.enc n with
    | none => exact .encrypted rfl hc
    | some c => exact .refused nofun
  | envDockerEnvFile =>
    show Change _ _ _ _ (envDockerEnvFile n calls s).1 (envDockerEnvFile n calls s).2
    unfold envDockerEnvFile
    match hc : s.enc n with
    | none => exact .refused fun _ => hc
    | some c =>
      refine change_materialise rfl hc fun ho => ?_
      obtain ⟨hsops, hpy⟩ := Bool.and_eq_true_iff.mp ho
      exact .rendered rfl hc hsops hpy
  | envRekey =>
    show Change _ _ _ _ (envRekey n calls s).1 (envRekey n calls s).2
    unfold envRekey
    match hu : (s.enc n).bind calls.updatekeys with
    | none => exact .refused nofun
    | some file =>
      obtain ⟨c, hc, hu⟩ := Option.bind_eq_some_iff.mp hu
      exact .rekeyed rfl hc hu

end

/-! ## A sops -/

/-- The file of a plaintext is the plaintext after a row of sops'. -/
def header : Text := ascii "sops_mac=ENC[AES256_GCM]\n"

def samplePlain (c : Text) : Option Text :=
  if header.isPrefixOf c then some (c.drop header.length) else none

theorem samplePlain_header (t : Text) : samplePlain (header ++ t) = some t := by
  rw [samplePlain, if_pos (by simp), List.drop_left]

theorem samplePlain_nil : samplePlain [] = none := by decide

/-- Calls that succeed where they can, but for `sops encrypt`, which fails if
it is told to; `dotenv.py` is interrupted. -/
def sampleCalls (encrypts : Bool) : Calls where
  decrypt c :=
    match samplePlain c with
    | some p => { out := p, ok := true }
    | none => { out := [], ok := false }
  encrypt t :=
    if encrypts then { out := header ++ t, ok := true } else { out := [], ok := false }
  edit c t :=
    match c with
    | none => .changed (header ++ t)
    | some c =>
      match samplePlain c with
      | none => .failed
      | some p => if p = t then .unchanged else .changed (header ++ t)
  updatekeys c := if (samplePlain c).isSome then some c else none
  dotenv _ := { out := [], ok := false }

theorem sampleCalls_edit {encrypts : Bool} {c t : Text} :
    (sampleCalls encrypts).edit (some c) t = match samplePlain c with
      | none => .failed
      | some p => if p = t then .unchanged else .changed (header ++ t) := rfl

theorem sampleCalls_decrypts (encrypts : Bool) : (sampleCalls encrypts).Decrypts samplePlain where
  decrypt {c p} h := by
    show SopsDecrypt p (match samplePlain c with | some p => _ | none => _)
    rw [h]
    exact .done
  decrypt_none {c} h := by
    show (match samplePlain c with | some p => (⟨p, true⟩ : Outcome) | none => _).ok = false
    rw [h]

theorem sampleCalls_encrypts (encrypts : Bool) :
    (sampleCalls encrypts).Encrypts samplePlain some where
  encrypt {t} h := by
    cases encrypts with
    | false => exact absurd h Bool.false_ne_true
    | true => exact ⟨t, rfl, samplePlain_header t⟩
  encrypt_failed {t} h := by
    cases encrypts with
    | false => rfl
    | true => exact absurd h.symm Bool.false_ne_true

theorem sampleCalls_edits (encrypts : Bool) : (sampleCalls encrypts).Edits samplePlain some where
  changed {c t file} h := by
    refine ⟨t, rfl, ?_⟩
    suffices header ++ t = file by rw [← this, samplePlain_header]
    cases c with
    | none => exact Edited.changed.inj h
    | some c =>
      rw [sampleCalls_edit] at h
      split at h
      · exact nomatch h
      · split at h
        · exact nomatch h
        · exact Edited.changed.inj h
  changed_some {c t file} h := by
    rw [sampleCalls_edit] at h
    split at h
    · exact nomatch h
    · rename_i p hp
      split at h
      · exact nomatch h
      · rename_i hne
        exact ⟨p, hp, hne⟩
  unchanged {c t} h := by
    rw [sampleCalls_edit] at h
    split at h
    · exact nomatch h
    · rename_i p hp
      split at h
      · rename_i he
        rw [hp, he]
      · exact nomatch h

theorem sampleCalls_rekeys (encrypts : Bool) : (sampleCalls encrypts).Rekeys samplePlain where
  updatekeys {c file} h := by
    have h : (if (samplePlain c).isSome then some c else none) = some file := h
    split at h
    · rw [Option.some.inj h]
    · exact nomatch h
  updatekeys_nil := rfl

theorem sampleCalls_renders (errors : Errors) (names : List UInt8 → Option CodePoint)
    (encrypts : Bool) : (sampleCalls encrypts).Renders errors names := fun _ => .silent

def prod : Name := bytes (lit "prod")

def dev : Name := bytes (lit "dev")

/-- A plaintext. -/
def line : Text := ascii "A=1\n"

def noFiles : Files := { enc := fun _ => none, dec := fun _ => none, temps := [] }

end Fiducia.Dotenv.Store
