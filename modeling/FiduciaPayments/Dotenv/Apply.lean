import FiduciaPayments.Dotenv.Cut
import FiduciaPayments.Dotenv.SecretName

/-!
# `env-k8s-secret`

The recipe prints a Secret, for `kubectl apply -f -` to read from a pipe. It
succeeds only if all of its pipeline did, but `dotenv.py` does not see that sops
failed: it prints a whole Secret of what it got, and what reads the pipe does
not see the recipe's status. So a failed run can put an environment without its
variables in the place of the old one (`secret_fails_closed_iff`).
-/

namespace Fiducia.Dotenv.Apply

open Lib.Errexit Lib.LastWins Lib.Python Cut Recipes SecretName
open Lib.Shell (Word)

/-- What the recipe is called with and finds. -/
structure Call where
  /-- `_env-dec` succeeds. -/
  envDec : Bool
  /-- `env/enc/<name>.env.enc` is a file. -/
  enc : Word → Bool
  secret : Word
  remote : Option Word
  /-- `basename "$PWD"` -/
  base : Word

/-- The name of the Secret. -/
def Call.sname (c : Call) (name : Word) : Option Word := secretName c.secret c.remote c.base name

/-- `env-k8s-secret`, of a `dotenv.py k8s` that is given a name. -/
def envK8sSecret (c : Call) (name : Word) (sops : Outcome) (dotenv : Word → Outcome) : Outcome :=
  if c.envDec && c.enc name then
    match c.sname name with
    | some sname => pipe sops (dotenv sname)
    | none => { out := [], ok := false }
  else { out := [], ok := false }

/-- `dotenv.py k8s <sname>`, on streams with an error handler, prints the Secret, or
fails before any output or after some lines of the data. Its arguments are read
with their bytes escaped in every locale. -/
inductive DotenvK8s (errors : Errors) (names : List UInt8 → Option CodePoint) (sname : Word)
    (stdin : List UInt8) : Outcome → Prop where
  | done {text : PyStr} {out : List UInt8} : errors.decode stdin = some text →
      mainWith names errors .k8s (readAll sname) text = some out →
      DotenvK8s errors names sname stdin { out, ok := true }
  | silent : DotenvK8s errors names sname stdin { out := [], ok := false }
  | failed {text : PyStr} {pairs : List (Key × PyStr)} {entries : List PyStr}
      {out : List UInt8} (k : Nat) : errors.decode stdin = some text →
      parse names (lines text) = some pairs →
      ((sorted pairs).take k).mapM secretLine = some entries →
      errors.encode (secretHeader (readAll sname) ++ entries.flatten) = some out →
      DotenvK8s errors names sname stdin { out, ok := false }

/-- An outcome of the recipe. -/
def Leaves (errors : Errors) (names : List UInt8 → Option CodePoint) (stream : List UInt8)
    (c : Call) (name : Word) (o : Outcome) : Prop :=
  ∃ sops dotenv, SopsDecrypt stream sops ∧
    (∀ sname, DotenvK8s errors names sname sops.out (dotenv sname)) ∧
    envK8sSecret c name sops dotenv = o

/-! ## The Secret that is read -/

section
variable {errors : Errors} {names : List UInt8 → Option CodePoint} {sname : Word}
  {stdin stream : List UInt8} {c : Call} {name : Word} {d o : Outcome} {pairs : List (Key × PyStr)}
  {kvs : Word → Option Word}

theorem sorted_take (k : Nat) : sorted ((sorted pairs).take k) = (sorted pairs).take k :=
  ((pairwise_sorted pairs).sublist (List.take_sublist k _)).insertionSort_eq

/-- A whole Secret is read. -/
theorem DotenvK8s.read_of_ok (h : DotenvK8s errors names sname stdin d) (hok : d.ok = true) :
    ∃ ps, Parsed errors names stdin ps ∧ Dotenv.envK8sSecret d.out = some (environment (sorted ps)) := by
  cases h with
  | @done text out ht hmain =>
    obtain ⟨_, hr, he⟩ := Option.bind_eq_some_iff.mp hmain
    obtain ⟨ps, hp, hr⟩ := Option.bind_eq_some_iff.mp hr
    refine ⟨ps, ⟨text, ht, hp⟩, ?_⟩
    rw [Dotenv.envK8sSecret, ← (bytes_of_encode he).1, secretData_k8s hr]
    rfl
  | silent => exact absurd hok Bool.false_ne_true
  | failed => exact absurd hok Bool.false_ne_true

/-- A Secret that is printed is read, with the lines that are there. -/
theorem DotenvK8s.read (h : DotenvK8s errors names sname stdin d)
    (hread : Dotenv.envK8sSecret d.out = some kvs) :
    ∃ ps k, Parsed errors names stdin ps ∧ kvs = environment ((sorted ps).take k) := by
  cases h with
  | done ht hmain =>
    obtain ⟨ps, hp, hwhole⟩ := (DotenvK8s.done ht hmain).read_of_ok rfl
    refine ⟨ps, (sorted ps).length, hp, ?_⟩
    rw [List.take_length]
    exact Option.some.inj (hread.symm.trans hwhole)
  | silent => exact absurd hread (by simp [Dotenv.envK8sSecret, secretData, dataKey])
  | @failed text ps entries out k ht hp hentries hout =>
    have hrender : render .k8s (readAll sname) ((sorted ps).take k) =
        some (secretHeader (readAll sname) ++ entries.flatten) := by
      rw [render, sorted_take, hentries]
      rfl
    have hdata := secretData_k8s hrender
    rw [sorted_take, (bytes_of_encode hout).1] at hdata
    rw [Dotenv.envK8sSecret, hdata] at hread
    exact ⟨ps, k, ⟨text, ht, hp⟩, (Option.some.inj hread).symm⟩

/-! ## Runs -/

/-- The recipe gets to its pipeline, or prints nothing and fails. -/
theorem envK8sSecret_cases (c : Call) (name : Word) (sops : Outcome) (dotenv : Word → Outcome) :
    (c.envDec = true ∧ c.enc name = true ∧ ∃ sname, c.sname name = some sname ∧
      envK8sSecret c name sops dotenv = pipe sops (dotenv sname)) ∨
    envK8sSecret c name sops dotenv = { out := [], ok := false } := by
  unfold envK8sSecret
  by_cases h : (c.envDec && c.enc name) = true
  · rw [if_pos h]
    obtain ⟨hdec, henc⟩ := Bool.and_eq_true_iff.mp h
    cases hsname : c.sname name with
    | some sname => exact .inl ⟨hdec, henc, sname, rfl, rfl⟩
    | none => exact .inr rfl
  · exact .inr (if_neg h)

/-- A run that succeeded printed the whole Secret. -/
theorem Leaves.read_of_ok (hp : Parsed errors names stream pairs) (ho : Leaves errors names stream c name o)
    (hok : o.ok = true) : Dotenv.envK8sSecret o.out = some (environment (sorted pairs)) := by
  obtain ⟨sops, dotenv, hs, hd, rfl⟩ := ho
  rcases envK8sSecret_cases c name sops dotenv with ⟨-, -, sname, -, h⟩ | h
  · rw [h] at hok ⊢
    obtain ⟨hsok, hdok⟩ := Bool.and_eq_true_iff.mp hok
    obtain ⟨ps, hps, hread⟩ := (hd sname).read_of_ok hdok
    rw [hs.out_of_ok hsok] at hps
    rw [parsed_unique hp hps]
    exact hread
  · rw [h] at hok
    exact absurd hok Bool.false_ne_true

/-- What any run printed has the first variables of the stream. -/
theorem Leaves.read (hp : Parsed errors names stream pairs) (ho : Leaves errors names stream c name o)
    (hread : Dotenv.envK8sSecret o.out = some kvs) :
    (c.envDec = true ∧ c.enc name = true ∧ c.sname name ≠ none) ∧
      ∃ ps k, kvs = environment ((sorted ps).take k) ∧
        ps.map Prod.fst <+: pairs.map Prod.fst ∧ ps.dropLast <+: pairs := by
  obtain ⟨sops, dotenv, hs, hd, rfl⟩ := ho
  rcases envK8sSecret_cases c name sops dotenv with
    ⟨hdec, henc, sname, hsname, h⟩ | h
  · rw [h] at hread
    obtain ⟨ps, k, hps, hkvs⟩ := (hd sname).read hread
    obtain ⟨hfst, hlast, -⟩ := parse_cut (isPrefix_of_sopsDecrypt hs) hp hps
    exact ⟨⟨hdec, henc, hsname ▸ nofun⟩, ps, k, hkvs, hfst, hlast⟩
  · rw [h] at hread
    exact absurd hread (by simp [Dotenv.envK8sSecret, secretData, dataKey])

/-! ## The name -/

/-- The URL of the remote is a line of text. -/
def IsLine (url : Word) : Prop := Lib.Shell.newline ∉ url ∧ (0 : UInt8) ∉ url

theorem sname_of_secret (hsecret : c.secret ≠ []) : c.sname name = some c.secret := by
  unfold Call.sname secretName nameScript
  rw [if_pos hsecret]
  rfl

theorem sname_of_no_secret (hsecret : c.secret = []) (hurl : ∀ url ∈ c.remote, IsLine url) :
    c.sname name = c.remote.map fun url => normalise (repoOf url c.base ++ [0x2D] ++ name) := by
  rw [Call.sname, hsecret]
  exact run_nameScript hurl

theorem sname_ne_none_iff (name : Word) (hurl : ∀ url ∈ c.remote, IsLine url) :
    c.sname name ≠ none ↔ c.secret ≠ [] ∨ c.remote ≠ none := by
  by_cases hsecret : c.secret = []
  · rw [sname_of_no_secret hsecret hurl]
    simp [hsecret]
  · rw [sname_of_secret hsecret]
    simp [hsecret]

theorem lt_of_isNameByte {b : UInt8} (h : SecretName.isNameByte b = true) : b.toNat < 0x80 := by
  simp only [SecretName.isNameByte, Bool.or_eq_true, Bool.and_eq_true, decide_eq_true_eq,
    beq_iff_eq, UInt8.le_iff_toNat_le] at h
  rcases h with ((h | h) | h) | rfl
  · exact Nat.lt_of_le_of_lt h.2 (by decide)
  · exact Nat.lt_of_le_of_lt h.2 (by decide)
  · exact Nat.lt_of_le_of_lt h.2 (by decide)
  · decide

/-- The name that the recipe finds can be printed, as the one it is told can. -/
theorem prints_sname (hsecret : ∀ b ∈ readAll c.secret, errors.prints b)
    (hurl : ∀ url ∈ c.remote, IsLine url) (hsname : c.sname name = some sname) :
    ∀ b ∈ readAll sname, errors.prints b := by
  by_cases h : c.secret = []
  · rw [sname_of_no_secret h hurl] at hsname
    obtain ⟨url, -, rfl⟩ := Option.map_eq_some_iff.mp hsname
    obtain ⟨s, hs⟩ := exists_encode fun b hb => lt_of_isNameByte (isNameByte_of_mem hb)
    obtain ⟨hscalar, hbytes⟩ := encode_eq_some_iff.mp hs
    rw [← hbytes, readAll_bytes_of_isScalar hscalar]
    exact fun b hb => Errors.prints_of_isScalar (hscalar b hb)
  · rw [sname_of_secret h] at hsname
    rwa [← Option.some.inj hsname]

/-! ## A run that loses the variables -/

/-- When sops prints nothing and fails, the Secret printed has no data. -/
theorem leaves_no_data (names : List UInt8 → Option CodePoint) (stream : List UInt8)
    (hdec : c.envDec = true) (henc : c.enc name = true) (hsname : c.sname name = some sname)
    (hprints : ∀ b ∈ readAll sname, errors.prints b) :
    ∃ o, Leaves errors names stream c name o ∧ o.ok = false ∧
      Dotenv.envK8sSecret o.out = some (environment []) := by
  let header := secretHeader (readAll sname)
  have hheader : ∀ b ∈ header, errors.prints b := by
    intro b hb
    simp only [header, secretHeader, List.mem_append] at hb
    rcases hb with ((hb | hb) | hb) | hb
    · exact Errors.prints_of_isScalar (isScalar_of_mem_lit hb)
    · exact hprints b hb
    · exact Errors.prints_of_isScalar (isScalar_of_mem_lit hb)
    · exact Errors.prints_of_isScalar (isScalar_of_mem_lit hb)
  have hempty : errors.decode [] = some [] := by cases errors <;> rfl
  have hrender : render .k8s (readAll sname) [] = some header :=
    congrArg some (List.append_nil header)
  have hmain : mainWith names errors .k8s (readAll sname) [] = some (bytes header) := by
    rw [mainWith, show parse names (lines []) = some [] from rfl, Option.bind_some, hrender]
    exact Errors.encode_eq_some_iff.mpr ⟨hheader, rfl⟩
  have hread : Dotenv.envK8sSecret (bytes header) = some (environment []) := by
    rw [Dotenv.envK8sSecret, secretData_k8s hrender]
    rfl
  let dotenv : Word → Outcome := fun n =>
    if n = sname then { out := bytes header, ok := true } else { out := [], ok := false }
  have hdotenv : ∀ n, DotenvK8s errors names n nothing.out (dotenv n) := by
    intro n
    by_cases h : n = sname
    · show DotenvK8s errors names n [] (if n = sname then _ else _)
      rw [if_pos h, h]
      exact .done hempty hmain
    · show DotenvK8s errors names n [] (if n = sname then _ else _)
      rw [if_neg h]
      exact .silent
  refine ⟨_, ⟨nothing, dotenv, .failed List.nil_prefix, hdotenv, rfl⟩, ?_⟩
  unfold envK8sSecret
  rw [hdec, henc, hsname]
  refine ⟨rfl, ?_⟩
  show Dotenv.envK8sSecret (dotenv sname).out = _
  rw [show dotenv sname = { out := bytes header, ok := true } from if_pos rfl]
  exact hread

/-- A mapping of some pairs is not that of none. -/
theorem environment_ne_nil (h : pairs ≠ []) : environment pairs ≠ environment [] := by
  obtain ⟨p, hp⟩ := List.exists_mem_of_ne_nil pairs h
  obtain ⟨v, hv⟩ := exists_lastWins (List.mem_map_of_mem (f := pairBytes) hp)
  intro e
  have hk : environment pairs (keyBytes p.1) = some v := hv
  rw [e] at hk
  exact nomatch hk

end

/-- A run of `env-k8s-secret` that succeeds has printed the whole Secret of the
stream. Any run that prints a Secret has printed some lines of that of the first
variables, all but the last of them with their values. And there is a run that
prints a Secret with something else than the whole data exactly if the recipe
gets to its pipeline and the stream has a variable. -/
theorem secret_fails_closed_iff {errors : Errors} {names : List UInt8 → Option CodePoint}
    {stream : List UInt8} {pairs : List (Key × PyStr)} {c : Call} {name : Word}
    (hp : Parsed errors names stream pairs)
    (hsecret : ∀ b ∈ readAll c.secret, errors.prints b) (hurl : ∀ url ∈ c.remote, IsLine url) :
    (∀ o, Leaves errors names stream c name o → o.ok = true →
      Dotenv.envK8sSecret o.out = some (environment (sorted pairs))) ∧
    (∀ o kvs, Leaves errors names stream c name o → Dotenv.envK8sSecret o.out = some kvs →
      ∃ ps k, kvs = environment ((sorted ps).take k) ∧
        ps.map Prod.fst <+: pairs.map Prod.fst ∧ ps.dropLast <+: pairs) ∧
    ((∃ o kvs, Leaves errors names stream c name o ∧ Dotenv.envK8sSecret o.out = some kvs ∧
        kvs ≠ environment (sorted pairs)) ↔
      c.envDec = true ∧ c.enc name = true ∧ (c.secret ≠ [] ∨ c.remote ≠ none) ∧ pairs ≠ []) := by
  refine ⟨fun o ho => ho.read_of_ok hp, fun o kvs ho hread => (ho.read hp hread).2, ?_⟩
  rw [← sname_ne_none_iff name hurl]
  constructor
  · intro ⟨o, kvs, ho, hread, hne⟩
    obtain ⟨⟨hdec, henc, hsname⟩, ps, k, hkvs, hfst, -⟩ := ho.read hp hread
    refine ⟨hdec, henc, hsname, fun h => hne ?_⟩
    rw [h] at hfst ⊢
    have hnil : ps = [] := List.map_eq_nil_iff.mp (List.prefix_nil.mp hfst)
    rw [hkvs, hnil, show sorted ([] : List (Key × PyStr)) = [] from rfl, List.take_nil]
  · intro ⟨hdec, henc, hsname, hpairs⟩
    obtain ⟨sname, hsname⟩ := Option.ne_none_iff_exists'.mp hsname
    obtain ⟨o, ho, -, hread⟩ := leaves_no_data names stream hdec henc hsname
      (prints_sname hsecret hurl hsname)
    refine ⟨o, _, ho, hread, fun h => environment_ne_nil (fun h => hpairs ?_) h.symm⟩
    exact (h ▸ sorted_perm pairs).symm.eq_nil

/-- `env-k8s-secret local app` -/
def app : Call where
  envDec := true
  enc := fun _ => true
  secret := bytes (lit "app")
  remote := none
  base := bytes (lit "w")

theorem secret_fails_closed_app :
    ∃ o kvs, Leaves .strict noNames (bytes streamA) app (bytes (lit "local")) o ∧
      Dotenv.envK8sSecret o.out = some kvs ∧ kvs ≠ environment (sorted [(keyA, lit "1")]) := by
  have hsecret : readAll app.secret = lit "app" :=
    readAll_bytes_of_isScalar fun c hc => isScalar_of_mem_lit hc
  have hprints : ∀ c ∈ readAll app.secret, Errors.prints .strict c := fun c hc =>
    Errors.prints_of_isScalar (isScalar_of_mem_lit (hsecret ▸ hc))
  have hurl : ∀ url ∈ app.remote, IsLine url := nofun
  exact (secret_fails_closed_iff parsed_streamA hprints hurl).2.2.mpr
    ⟨rfl, rfl, .inl (by decide), by decide⟩

end Fiducia.Dotenv.Apply
