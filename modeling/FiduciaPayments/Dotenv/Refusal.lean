import FiduciaPayments.Dotenv.Loaders

/-!
# How `dotenv.py` ends

A run of `dotenv.py` with its arguments prints what `main` does, raises, or
exits with a text on standard error. It exits for an unknown mode, and in
envfile mode for values with more than one line (`dotenvPy_exited_iff`); the text
then names the variables whose values these are, all of them and in their order
(`newlineError_injective`).
-/

namespace Fiducia.Dotenv.CommandLine

open Lib.Python

abbrev comma : CodePoint := 0x2C
abbrev blank : CodePoint := 0x20

/-- `", ".join(…)` -/
def join (parts : List PyStr) : PyStr := (lit ", ").intercalate parts

def modeText : Mode → PyStr
  | .shell => lit "shell"
  | .envfile => lit "envfile"
  | .k8s => lit "k8s"

/-- `MODES` -/
def modes : List Mode := [.shell, .envfile, .k8s]

def modeError : PyStr := lit "dotenv.py: mode must be one of " ++ join (modes.map modeText)

/-- `sys.argv[1]`, if there is one. -/
def modeOf (argv : List PyStr) : Option Mode :=
  let mode := argv[0]?.getD (lit "shell")
  modes.find? fun m => modeText m = mode

/-- `sys.argv[2]`, if there is one. -/
def nameOf (argv : List PyStr) : PyStr := argv[1]?.getD (lit "app-env")

/-- `[k for k, v in pairs if …]` -/
def bad (pairs : List (Key × PyStr)) : List Key :=
  (pairs.filter fun p => isBad p.2).map Prod.fst

def newlineError (keys : List Key) : PyStr :=
  lit "dotenv.py: " ++ join (keys.map Subtype.val) ++
    lit (" contain newlines, which docker --env-file cannot\n" ++
      "represent — it would keep the first line and drop the rest.\n" ++
      "Use `just env-run <env> <cmd>` or `just env-k8s-secret <env>`,\n" ++
      "or store the value single-line (e.g. base64).")

/-- How a run ends. -/
inductive Exit where
  | printed (out : List UInt8)
  | exited (text : PyStr)
  | raised

section
variable (names : List UInt8 → Option CodePoint) (errors : Errors)

/-- `main`, with the arguments after the script's name. -/
def dotenvPy (argv : List PyStr) (stdin : PyStr) : Exit :=
  match modeOf argv with
  | none => .exited modeError
  | some mode =>
    match parse names (lines stdin) with
    | none => .raised
    | some pairs =>
      if mode = .envfile ∧ bad pairs ≠ [] then .exited (newlineError (bad pairs))
      else
        match (render mode (nameOf argv) pairs).bind errors.encode with
        | none => .raised
        | some out => .printed out

end

/-! ## The text of a refusal -/

theorem notMem_key_of_not_isKeyChar {c : CodePoint} (hc : isKeyChar c = false) (k : Key) :
    c ∉ k.val := fun h => by
  have hk := isKeyChar_of_mem c h
  rw [hc] at hk
  exact Bool.false_ne_true hk

/-- Without its blanks, the join of texts that have none has only commas between
them. -/
theorem filter_join : ∀ {parts : List PyStr}, (∀ p ∈ parts, blank ∉ p) →
    (join parts).filter (· ≠ blank) = [comma].intercalate parts
  | [], _ => rfl
  | [p], h => by
    have hp : ∀ c ∈ p, decide (c ≠ blank) = true := fun c hc =>
      decide_eq_true fun e => h p List.mem_cons_self (e ▸ hc)
    rw [join, List.intercalate_singleton, List.intercalate_singleton, List.filter_eq_self.mpr hp]
  | p :: q :: parts, h => by
    obtain ⟨hp, hparts⟩ := List.forall_mem_cons.mp h
    have hp : ∀ c ∈ p, decide (c ≠ blank) = true := fun c hc =>
      decide_eq_true fun e => hp (e ▸ hc)
    have ih := filter_join hparts
    have hsep : (lit ", ").filter (· ≠ blank) = [comma] := by decide
    rw [join, List.intercalate_cons_cons, List.intercalate_cons_cons, List.filter_append,
      List.filter_append, List.filter_eq_self.mpr hp, hsep, ← ih, join]

theorem join_injective {ks ks' : List Key} (h : ks ≠ []) (h' : ks' ≠ [])
    (hjoin : join (ks.map Subtype.val) = join (ks'.map Subtype.val)) : ks = ks' := by
  have hnot (c : CodePoint) (hc : isKeyChar c = false) (ks : List Key) :
      ∀ p ∈ ks.map Subtype.val, c ∉ p :=
    List.forall_mem_map.mpr fun k _ => notMem_key_of_not_isKeyChar hc k
  have hsplit {ks : List Key} (h : ks ≠ []) :
      ((join (ks.map Subtype.val)).filter (· ≠ blank)).splitOn comma = ks.map Subtype.val := by
    rw [filter_join (hnot blank (by decide) ks),
      List.splitOn_intercalate comma (hnot comma (by decide) ks) (mt List.map_eq_nil_iff.mp h)]
  exact Subtype.val_injective.list_map
    ((hsplit h).symm.trans ((congrArg _ (congrArg _ hjoin)).trans (hsplit h')))

/-- The text names the variables, and tells their order. -/
theorem newlineError_injective {ks ks' : List Key} (h : ks ≠ []) (h' : ks' ≠ [])
    (htext : newlineError ks = newlineError ks') : ks = ks' :=
  join_injective h h' (List.append_cancel_left (List.append_cancel_right htext))

/-! ## The end of a run -/

section
variable {names : List UInt8 → Option CodePoint} {errors : Errors} {argv : List PyStr}
  {stdin : PyStr} {out : List UInt8} {pairs : List (Key × PyStr)} {mode : Mode} {name : PyStr}

theorem bad_ne_nil_iff : bad pairs ≠ [] ↔ pairs.any (fun p => isBad p.2) = true := by
  rw [bad, ne_eq, List.map_eq_nil_iff, List.filter_eq_nil_iff, List.any_eq_true]
  simp only [not_forall, not_not, exists_prop]

/-- What is refused is not rendered. -/
theorem render_of_refused (h : mode = .envfile ∧ bad pairs ≠ []) :
    render mode name pairs = none := by
  obtain ⟨rfl, hbad⟩ := h
  exact if_pos (bad_ne_nil_iff.mp hbad)

/-- A run prints what `main` does. -/
theorem dotenvPy_printed_iff : dotenvPy names errors argv stdin = .printed out ↔
    ∃ mode, modeOf argv = some mode ∧
      mainWith names errors mode (nameOf argv) stdin = some out := by
  unfold dotenvPy mainWith
  cases modeOf argv with
  | none => simp
  | some mode =>
    cases parse names (lines stdin) with
    | none => simp
    | some pairs =>
      simp only [Option.some.injEq, exists_eq_left', Option.bind_some]
      split
      · rename_i h
        rw [render_of_refused h]
        exact iff_of_false nofun nofun
      · cases (render mode (nameOf argv) pairs).bind errors.encode <;> simp

end

/-- A run exits with a text exactly if its mode is unknown, or if it is envfile
and there are values of more than one line; the text is then about the
variables that have these, and about no others. -/
theorem dotenvPy_exited_iff (names : List UInt8 → Option CodePoint) (errors : Errors)
    (argv : List PyStr) (stdin : PyStr) :
    (∀ text, dotenvPy names errors argv stdin = .exited text ↔
      (modeOf argv = none ∧ text = modeError) ∨
        (modeOf argv = some .envfile ∧ ∃ pairs, parse names (lines stdin) = some pairs ∧
          bad pairs ≠ [] ∧ text = newlineError (bad pairs))) ∧
    ∀ ks ks', ks ≠ [] → ks' ≠ [] → newlineError ks = newlineError ks' → ks = ks' := by
  refine ⟨fun text => ?_, fun ks ks' h h' htext => newlineError_injective h h' htext⟩
  unfold dotenvPy
  cases modeOf argv with
  | none => simp [eq_comm]
  | some mode =>
    cases parse names (lines stdin) with
    | none => simp
    | some pairs =>
      simp only [Option.some.injEq, reduceCtorEq, false_and, false_or, exists_eq_left']
      split
      · rename_i h
        obtain ⟨rfl, hbad⟩ := h
        rw [Exit.exited.injEq, eq_comm, and_iff_right rfl, and_iff_right hbad]
      · rename_i h
        refine iff_of_false (fun hrun => ?_) fun ⟨hmode, hbad, _⟩ => h ⟨hmode, hbad⟩
        split at hrun <;> exact nomatch hrun

end Fiducia.Dotenv.CommandLine
