import FiduciaPayments.Dotenv.Lines
import FiduciaPayments.Dotenv.Secret

/-!
# One stream, three loaders

The modes of `.just/dotenv.py` print the same pairs, but k8s mode sorts them
(`envK8sSecret_main`) where the other two keep the order of the stream
(`envRun_main`, `envDockerRun_main`). The three loaders give the mapping of
`parse` when no value of a repeated key is greater than its last, and only then
(`loaders_agree_iff`).
-/

namespace Fiducia.Dotenv

open Lib.LastWins Lib.Python Lib.Shell Lib.Text

/-! ## Output -/

section
variable {names : List UInt8 → Option CodePoint} {name stdin : PyStr} {pairs : List (Key × PyStr)}

/-- The output of a mode is the encoding of what it renders. -/
theorem main_eq_some_iff (hp : parse names (lines stdin) = some pairs) {mode : Mode}
    {out : List UInt8} :
    main names mode name stdin = some out ↔
      ∃ text, render mode name pairs = some text ∧ (∀ c ∈ text, isScalar c) ∧ bytes text = out := by
  unfold main mainWith
  rw [hp, Option.bind_some, Option.bind_eq_some_iff]
  simp only [Errors.encode_eq_some_iff]
  rfl

end

/-- The mapping of the parsed pairs, as the consumers see it. -/
def environment (pairs : List (Key × PyStr)) : Word → Option Word := lastWins (pairs.map pairBytes)

section
variable {names : List UInt8 → Option CodePoint} {name stdin : PyStr} {pairs : List (Key × PyStr)}
  {out : List UInt8}

/-- Values that have an encoding and no NUL have no NUL byte. -/
theorem zero_notMem_bytes (hs : ∀ p ∈ pairs, ∀ c ∈ p.2, isScalar c)
    (hz : ∀ p ∈ pairs, (0 : CodePoint) ∉ p.2) : ∀ p ∈ pairs, (0 : UInt8) ∉ bytes p.2 :=
  fun p hp h => hz p hp (zero_mem_of_mem_bytes (hs p hp) h)

/-- The shell gets the mapping of the pairs. -/
theorem envRun_main (hp : parse names (lines stdin) = some pairs)
    (hz : ∀ p ∈ pairs, (0 : CodePoint) ∉ p.2) (h : main names .shell name stdin = some out) :
    envRun out = some (environment pairs) := by
  obtain ⟨text, ht, hs, rfl⟩ := (main_eq_some_iff hp).mp h
  cases ht
  have hs : ∀ p ∈ pairs, ∀ c ∈ p.2, isScalar c := by
    intro p hp c hc
    refine hs c (List.mem_flatMap.mpr ⟨p, hp, ?_⟩)
    exact List.mem_append_left _ (List.mem_append_right _ (mem_quote hc))
  unfold envRun
  rw [exports_shell (zero_notMem_bytes hs hz), Option.map_some, environment]

/-- So does docker. -/
theorem envDockerRun_main (hp : parse names (lines stdin) = some pairs)
    (hz : ∀ p ∈ pairs, (0 : CodePoint) ∉ p.2) (h : main names .envfile name stdin = some out) :
    envDockerRun out = some (environment pairs) := by
  obtain ⟨text, ht, hs, rfl⟩ := (main_eq_some_iff hp).mp h
  obtain ⟨hbad, rfl⟩ := render_envfile_eq_some_iff.mp ht
  have hs : ∀ p ∈ pairs, ∀ c ∈ p.2, isScalar c := by
    intro p hp c hc
    refine hs c (List.mem_flatMap.mpr ⟨p, hp, ?_⟩)
    exact List.mem_append_left _ (List.mem_append_right _ hc)
  unfold envDockerRun
  rw [readEnvFile_envfile (zero_notMem_bytes hs hz) hbad, Option.map_some, environment]

/-- Kubernetes gets the mapping of the sorted pairs. -/
theorem envK8sSecret_main (hp : parse names (lines stdin) = some pairs)
    (h : main names .k8s name stdin = some out) :
    envK8sSecret out = some (environment (sorted pairs)) := by
  obtain ⟨text, ht, -, rfl⟩ := (main_eq_some_iff hp).mp h
  unfold envK8sSecret
  rw [secretData_k8s ht, Option.map_some, environment]

/-- k8s mode encodes every value. -/
theorem isScalar_of_k8s (hp : parse names (lines stdin) = some pairs)
    (h : main names .k8s name stdin = some out) : ∀ p ∈ pairs, ∀ c ∈ p.2, isScalar c := by
  obtain ⟨text, ht, -, -⟩ := (main_eq_some_iff hp).mp h
  obtain ⟨ls, hls, -⟩ := Option.map_eq_some_iff.mp ht
  exact fun p hp => (mapM_secretLine hls).1 p ((sorted_perm pairs).mem_iff.mpr hp)

end

/-- Sorting the pairs keeps their mapping exactly when no value of a repeated
key is greater than the last. -/
theorem environment_sorted_iff {pairs : List (Key × PyStr)}
    (hs : ∀ p ∈ pairs, ∀ c ∈ p.2, isScalar c) :
    environment (sorted pairs) = environment pairs ↔ LastIsGreatest pairs := by
  rw [environment, environment, ← lastWins_sorted_iff]
  refine lastWins_map_eq_iff keyBytes_injective (fun p hp q hq h => ?_) (sorted_perm pairs)
  exact bytes_injOn (hs p hp) (hs q hq) h

/-- When every mode succeeds, the three loaders give the mapping of the parsed
pairs, in which the last pair of a key wins, exactly when no value of a key is
greater than its last. -/
theorem loaders_agree_iff {names : List UInt8 → Option CodePoint} {name stdin : PyStr}
    {pairs : List (Key × PyStr)} {shellOut envfileOut k8sOut : List UInt8}
    (hp : parse names (lines stdin) = some pairs) (hz : ∀ p ∈ pairs, (0 : CodePoint) ∉ p.2)
    (hshell : main names .shell name stdin = some shellOut)
    (henvfile : main names .envfile name stdin = some envfileOut)
    (hk8s : main names .k8s name stdin = some k8sOut) :
    (envRun shellOut = some (environment pairs) ∧
      envDockerRun envfileOut = some (environment pairs) ∧
      envK8sSecret k8sOut = some (environment pairs)) ↔ LastIsGreatest pairs := by
  rw [← environment_sorted_iff (isScalar_of_k8s hp hk8s), envK8sSecret_main hp hk8s,
    Option.some.injEq]
  exact ⟨fun h => h.2.2, fun h => ⟨envRun_main hp hz hshell, envDockerRun_main hp hz henvfile, h⟩⟩

/-! ## Streams with a repeated key -/

/-- A table of no names; the streams below have no `\N` escape. -/
def noNames (_ : List UInt8) : Option CodePoint := none

def keyA : Key := ⟨lit "A", by decide⟩

def keyB : Key := ⟨lit "B", by decide⟩

/-- The repeated key rises. -/
def rising : PyStr := lit "A=1\nexport B='x y'\nA=2\n"

def risingPairs : List (Key × PyStr) := [(keyA, lit "1"), (keyB, lit "x y"), (keyA, lit "2")]

/-- The repeated key falls. -/
def falling : PyStr := lit "A=2\nA=1\n"

def fallingPairs : List (Key × PyStr) := [(keyA, lit "2"), (keyA, lit "1")]

theorem rising_loaders_agree :
    envRun (bytes (lit "export A='1'\nexport B='x y'\nexport A='2'\n")) =
        some (environment risingPairs) ∧
      envDockerRun (bytes (lit "A=1\nB=x y\nA=2\n")) = some (environment risingPairs) ∧
      envK8sSecret (bytes (secretHeader (lit "s") ++ lit "  A: MQ==\n  A: Mg==\n  B: eCB5\n")) =
        some (environment risingPairs) := by
  have hp : parse noNames (lines rising) = some risingPairs := by decide +kernel
  have hshell : main noNames .shell (lit "s") rising =
      some (bytes (lit "export A='1'\nexport B='x y'\nexport A='2'\n")) := by decide +kernel
  have henvfile : main noNames .envfile (lit "s") rising =
      some (bytes (lit "A=1\nB=x y\nA=2\n")) := by decide +kernel
  have hk8s : main noNames .k8s (lit "s") rising =
      some (bytes (secretHeader (lit "s") ++ lit "  A: MQ==\n  A: Mg==\n  B: eCB5\n")) := by
    decide +kernel
  exact (loaders_agree_iff hp (by decide +kernel) hshell henvfile hk8s).mpr (by decide +kernel)

/-- The stream is well formed, but Kubernetes gets another value than the shell
and docker, which get that of the last line. -/
theorem falling_loaders_differ :
    (parse noNames (lines falling) = some fallingPairs ∧
      ∀ p ∈ fallingPairs, (0 : CodePoint) ∉ p.2) ∧
    environment fallingPairs (keyBytes keyA) = some (bytes (lit "1")) ∧
    ((main noNames .shell (lit "s") falling).bind envRun).map (· (keyBytes keyA)) =
      some (some (bytes (lit "1"))) ∧
    ((main noNames .envfile (lit "s") falling).bind envDockerRun).map (· (keyBytes keyA)) =
      some (some (bytes (lit "1"))) ∧
    ((main noNames .k8s (lit "s") falling).bind envK8sSecret).map (· (keyBytes keyA)) =
      some (some (bytes (lit "2"))) := by
  decide +kernel

end Fiducia.Dotenv
