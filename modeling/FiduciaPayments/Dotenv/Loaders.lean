import FiduciaPayments.Dotenv.Render
import FiduciaPayments.Lib.Shell

/-!
# The loaders of an environment

What each consumer of `.just/dotenv.py` makes of its output: `env-run` evaluates
the `export` lines in a shell, `env-docker-run` has docker read the `K=V` lines,
and Kubernetes decodes the data of the Secret. Each ends with a mapping of names
to values, in which a later line replaces an earlier one.

The shell and docker get the pairs as parsed (`exports_shell`, `readEnvFile_envfile`),
Kubernetes gets them sorted (`secretData_k8s`), so that under a repeated key it
keeps the greatest value and they keep the last. `loaders_agree_iff` is the
condition for all three to have one mapping.

The consumers are those of the formats: a shell that sets any variable, without
the ones that have a meaning to it, and a reader of the Secret that takes a key
for text, where YAML has types for some plain scalars (`N`, `null`). What bash
does with its own variables is in `Recipes`.
-/

namespace Fiducia.Dotenv

open Lib.LastWins Lib.Python Lib.Shell Lib.Text

abbrev hash : UInt8 := 0x23
abbrev colon : UInt8 := 0x3A
abbrev returnByte : UInt8 := 0x0D

/-! ## Consumers -/

/-- A line of an env-file; blank lines and comments set nothing. -/
def readEnvFileLine (line : Word) : Option (List (Word × Word)) :=
  -- The scanner takes a `\r` before the line end for a part of it.
  let line := if line.getLast? = some returnByte then line.dropLast else line
  if line = [] ∨ line.head? = some hash then some []
  else (splitOnce Lib.Shell.equals line).map fun kv => [kv]

/-- `docker --env-file` -/
def readEnvFile (file : List UInt8) : Option (List (Word × Word)) :=
  ((file.splitOn Lib.Shell.newline).mapM readEnvFileLine).map List.flatten

/-- `data:` -/
def dataKey : Word := [0x64, 0x61, 0x74, 0x61, colon]

/-- A line `  K: V` of the data, with the value in Base64. -/
def dataLine (line : Word) : Option (Word × Word) :=
  match line with
  | i :: j :: rest =>
    if i = space ∧ j = space then
      (splitOnce colon rest).bind fun kv =>
        match kv.2 with
        | [] => none
        | b :: b64 =>
          if b = space then
            (Lib.Base64.decode (b64.map fun b => Char.ofNat b.toNat)).map fun v => (kv.1, v)
          else none
    else none
  | _ => none

/-- The decoded data of a Secret: the entries after its last `data:` line, each
scalar taken as its text. -/
def secretData (secret : List UInt8) : Option (List (Word × Word)) :=
  let lines := secret.splitOn Lib.Shell.newline
  if dataKey ∈ lines then
    ((lines.rtakeWhile (· ≠ dataKey)).filter (· ≠ [])).mapM dataLine
  else none

/-- `eval "$(… shell)"` -/
def envRun (out : List UInt8) : Option (Word → Option Word) :=
  (exports (commandSubstitution out)).map lastWins

/-- `envdata=$(… envfile)`, then `docker run --env-file <(printf '%s\n' "$envdata")`. -/
def envDockerRun (out : List UInt8) : Option (Word → Option Word) :=
  (readEnvFile (commandSubstitution out ++ [Lib.Shell.newline])).map lastWins

/-- The environment from a printed Secret. -/
def envK8sSecret (out : List UInt8) : Option (Word → Option Word) :=
  (secretData out).map lastWins

/-! ## Keys and values as bytes -/

def keyBytes (k : Key) : Word := bytes k.val

/-- A pair as the consumers see it. -/
def pairBytes : Key × PyStr → Word × Word := Prod.map keyBytes bytes

theorem isKeyChar_of_mem {k : Key} : ∀ c ∈ k.val, isKeyChar c := by
  obtain ⟨k, hk⟩ := k
  cases k with
  | nil => cases hk
  | cons c s =>
    obtain ⟨hc, hs⟩ := Bool.and_eq_true_iff.mp hk
    exact List.forall_mem_cons.mpr ⟨by rw [isKeyChar, hc, Bool.true_or], List.all_eq_true.mp hs⟩

theorem lt_of_isKeyChar {c : CodePoint} (h : isKeyChar c) : c.val < 0x80 := by
  simp only [isKeyChar, isKeyStart, Bool.or_eq_true, Bool.and_eq_true, decide_eq_true_eq,
    beq_iff_eq] at h
  omega

theorem keyBytes_eq (k : Key) : keyBytes k = k.val.map fun c => UInt8.ofNat c.val :=
  bytes_of_ascii fun c hc => lt_of_isKeyChar (isKeyChar_of_mem c hc)

theorem keyBytes_injective : Function.Injective keyBytes := by
  intro k k' h
  have scalar : ∀ k : Key, ∀ c ∈ k.val, isScalar c := by
    intro k c hc
    have := lt_of_isKeyChar (isKeyChar_of_mem c hc)
    simp only [isScalar, Bool.or_eq_true, decide_eq_true_eq]
    omega
  exact Subtype.ext (bytes_injOn (scalar k) (scalar k') h)

theorem isNameStart_ofNat : ∀ n < 0x80,
    isNameStart (UInt8.ofNat n) = isKeyStart (Fin.ofNat 0x110000 n) ∧
      isNameByte (UInt8.ofNat n) = isKeyChar (Fin.ofNat 0x110000 n) := by
  decide

/-- A key is the name of a shell variable. -/
theorem isName_keyBytes (k : Key) : isName (keyBytes k) := by
  have same : ∀ c : CodePoint, c.val < 0x80 →
      isNameStart (UInt8.ofNat c.val) = isKeyStart c ∧
        isNameByte (UInt8.ofNat c.val) = isKeyChar c := fun c hc => by
    have h := isNameStart_ofNat c.val hc
    rwa [show Fin.ofNat 0x110000 c.val = c from Fin.ext (Nat.mod_eq_of_lt c.isLt)] at h
  have hchars := isKeyChar_of_mem (k := k)
  rw [keyBytes_eq]
  obtain ⟨k, hk⟩ := k
  cases k with
  | nil => cases hk
  | cons c s =>
    obtain ⟨hc, hs⟩ := Bool.and_eq_true_iff.mp hk
    obtain ⟨hc', hs'⟩ := List.forall_mem_cons.mp hchars
    refine Bool.and_eq_true_iff.mpr ⟨?_, List.all_eq_true.mpr fun b hb => ?_⟩
    · rw [(same c (lt_of_isKeyChar hc')).1, hc]
    · obtain ⟨d, hd, rfl⟩ := List.mem_map.mp hb
      rw [(same d (lt_of_isKeyChar (hs' d hd))).2, hs' d hd]

end Fiducia.Dotenv
