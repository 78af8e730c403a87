import Mathlib.Data.List.Basic
import Mathlib.Data.List.Infix
import Mathlib.Data.List.Nodup
import Mathlib.Data.List.Pairwise
import Mathlib.Tactic.Common

/-!
# The chain of instruction files

`scripts/check-agent-instructions.py` walks from a directory to the root of the
file system and collects the `AGENTS.md` files on the way, each real file once.
The chain is the files from the root to the directory, a file that several of
them are being there for the deepest (`discover_chain`); so the canonical file
of a repository is there once for every directory below it
(`canonical_exactly_once`), as the script then checks.
-/

namespace Fiducia.Instructions

/-- The names from the root. -/
abbrev Path := List String

/-- What `AGENTS.md` is in a directory. -/
inductive Candidate where
  | absent
  /-- A link that does not resolve. -/
  | broken
  | resolves (path : Path) (isFile readable : Bool)

inductive ValidationError where
  | cannotResolve (directory : Path)
  | notAFile (directory : Path)
  | notReadable (directory : Path)
  deriving DecidableEq

/-- The file of a directory, and the real file. -/
structure InstructionFile where
  source : Path
  resolved : Path
  deriving DecidableEq

/-- `(current, *current.parents)` -/
def ancestors (current : Path) : List Path := current.inits.reverse

/-- The loop of `discover_instruction_chain`. -/
def discoverLoop (fs : Path → Candidate) :
    List Path → List Path → List InstructionFile → Except ValidationError (List InstructionFile)
  | [], _, discovered => .ok discovered.reverse
  | directory :: rest, seen, discovered =>
    match fs directory with
    | .absent => discoverLoop fs rest seen discovered
    | .broken => .error (.cannotResolve directory)
    | .resolves resolved isFile readable =>
      if !isFile then .error (.notAFile directory)
      else if !readable then .error (.notReadable directory)
      else if resolved ∈ seen then discoverLoop fs rest seen discovered
      else discoverLoop fs rest (resolved :: seen)
        (discovered ++ [{ source := directory, resolved }])

/-- `discover_instruction_chain` from a directory. -/
def discoverInstructionChain (fs : Path → Candidate) (current : Path) :
    Except ValidationError (List InstructionFile) :=
  discoverLoop fs (ancestors current) [] []

/-- `canonical_occurrences` of `validate_repository`. -/
def canonicalOccurrences (canonical : Path) (chain : List InstructionFile) : ℕ :=
  chain.countP fun entry => entry.resolved = canonical

/-! ## The loop -/

def instruction (fs : Path → Candidate) (directory : Path) : Option InstructionFile :=
  match fs directory with
  | .resolves resolved _ _ => some { source := directory, resolved }
  | _ => none

/-- There is no file, or one that can be read. -/
def Readable (fs : Path → Candidate) (directory : Path) : Prop :=
  match fs directory with
  | .absent => True
  | .broken => False
  | .resolves _ isFile readable => isFile = true ∧ readable = true

/-- Different real files. -/
def Apart (f g : InstructionFile) : Prop := f.resolved ≠ g.resolved

instance instDecidableRelApart : DecidableRel Apart := fun f g =>
  inferInstanceAs (Decidable (f.resolved ≠ g.resolved))

section
variable {fs : Path → Candidate} {chain l m : List InstructionFile} {f : InstructionFile}
  {current : Path}

theorem pwFilter_append_cons_of_dup (hm : m.Pairwise Apart) (hf : ¬ ∀ g ∈ m, Apart f g)
    (l : List InstructionFile) : (l ++ f :: m).pwFilter Apart = (l ++ m).pwFilter Apart := by
  have hdup : (f :: m).pwFilter Apart = m.pwFilter Apart := by
    refine List.pwFilter_cons_of_neg ?_
    rwa [List.pwFilter_eq_self.mpr hm]
  induction l with
  | nil => exact hdup
  | cons g l ih =>
    rw [List.cons_append, List.cons_append]
    by_cases h : ∀ k ∈ (l ++ m).pwFilter Apart, Apart g k
    · rw [List.pwFilter_cons_of_pos h, List.pwFilter_cons_of_pos (ih.symm ▸ h), ih]
    · rw [List.pwFilter_cons_of_neg h, List.pwFilter_cons_of_neg (ih.symm ▸ h), ih]

/-- A round of the loop. -/
theorem discoverLoop_cons {d : Path} {ds seen : List Path} {discovered : List InstructionFile} :
    discoverLoop fs (d :: ds) seen discovered = .ok chain ↔ Readable fs d ∧
      (match instruction fs d with
        | none => discoverLoop fs ds seen discovered
        | some f =>
          if f.resolved ∈ seen then discoverLoop fs ds seen discovered
          else discoverLoop fs ds (f.resolved :: seen) (discovered ++ [f])) = .ok chain := by
  rw [discoverLoop, Readable, instruction]
  cases fs d with
  | absent => simp
  | broken => simp
  | resolves r isFile readable => cases isFile <;> cases readable <;> simp

/-- The loop collects the files that it comes to first. -/
theorem discoverLoop_iff : ∀ {ds seen : List Path} {discovered : List InstructionFile},
    (∀ r, r ∈ seen ↔ ∃ f ∈ discovered, f.resolved = r) → discovered.reverse.Pairwise Apart →
    (discoverLoop fs ds seen discovered = .ok chain ↔ (∀ d ∈ ds, Readable fs d) ∧
      chain = (ds.reverse.filterMap (instruction fs) ++ discovered.reverse).pwFilter Apart)
  | [], seen, discovered, hseen, hpw => by
    rw [discoverLoop, Except.ok.injEq, List.reverse_nil, List.filterMap_nil, List.nil_append,
      List.pwFilter_eq_self.mpr hpw]
    simp only [List.not_mem_nil, false_implies, implies_true, true_and, eq_comm]
  | d :: ds, seen, discovered, hseen, hpw => by
    rw [discoverLoop_cons, List.forall_mem_cons, and_assoc, List.reverse_cons,
      List.filterMap_append, List.append_assoc, List.filterMap_cons]
    refine and_congr_right fun _ => ?_
    cases instruction fs d with
    | none => exact discoverLoop_iff hseen hpw
    | some f =>
      have hapart : (∀ g ∈ discovered.reverse, Apart f g) ↔ f.resolved ∉ seen := by
        simp only [List.mem_reverse, hseen, not_exists, not_and, Apart, ne_eq, eq_comm]
      show (if f.resolved ∈ seen then _ else _) = _ ↔ _ ∧ chain =
        (_ ++ f :: discovered.reverse).pwFilter Apart
      split <;> rename_i hmem
      · rw [pwFilter_append_cons_of_dup hpw (fun h => hapart.mp h hmem)]
        exact discoverLoop_iff hseen hpw
      · have hdiscovered : (discovered ++ [f]).reverse = f :: discovered.reverse := by simp
        rw [← hdiscovered]
        refine discoverLoop_iff (fun r => ?_) ?_
        · simp only [List.mem_cons, hseen, List.mem_append, List.not_mem_nil, or_false,
            or_and_right, exists_or, exists_eq_left]
          rw [or_comm, eq_comm]
        · rw [hdiscovered]
          exact List.pairwise_cons.mpr ⟨hapart.mpr hmem, hpw⟩

/-- The files on the way to a directory, from the root. -/
def onTheWay (fs : Path → Candidate) (current : Path) : List InstructionFile :=
  current.inits.filterMap (instruction fs)

theorem discover_iff : discoverInstructionChain fs current = .ok chain ↔
    (∀ d, d <+: current → Readable fs d) ∧ chain = (onTheWay fs current).pwFilter Apart := by
  have hloop : discoverLoop fs (ancestors current) [] [] = .ok chain ↔ _ :=
    discoverLoop_iff (by simp) .nil
  rw [discoverInstructionChain, hloop]
  simp only [ancestors, List.mem_reverse, List.mem_inits, List.reverse_reverse, List.reverse_nil,
    List.append_nil, onTheWay]

/-! ## The chain -/

theorem source_of_instruction {d : Path} (hf : instruction fs d = some f) : f.source = d := by
  unfold instruction at hf
  split at hf
  · rw [← Option.some.inj hf]
  · exact nomatch hf

theorem mem_onTheWay : f ∈ onTheWay fs current ↔
    f.source <+: current ∧ instruction fs f.source = some f := by
  rw [onTheWay, List.mem_filterMap]
  simp only [List.mem_inits]
  constructor
  · intro ⟨d, hd, hf⟩
    rw [source_of_instruction hf]
    exact ⟨hd, hf⟩
  · intro ⟨hd, hf⟩
    exact ⟨f.source, hd, hf⟩

theorem pairwise_inits : ∀ current : Path, current.inits.Pairwise (· <+: ·)
  | [] => by simp
  | name :: current => by
    rw [List.inits_cons, List.pairwise_cons, List.pairwise_map]
    refine ⟨fun d _ => List.nil_prefix, (pairwise_inits current).imp fun h => ?_⟩
    exact (List.prefix_cons_inj name).mpr h

/-- The files are met in the order of their directories. -/
theorem pairwise_onTheWay (fs : Path → Candidate) (current : Path) :
    (onTheWay fs current).Pairwise fun f g => f.source <+: g.source := by
  rw [onTheWay, List.pairwise_filterMap]
  refine (pairwise_inits current).imp fun {d e} hde f hf g hg => ?_
  rwa [source_of_instruction hf, source_of_instruction hg]

/-- Of the files that are one real file, the deepest is kept. -/
theorem exists_deepest : ∀ {l : List InstructionFile},
    (l.Pairwise fun f g => f.source <+: g.source) → f ∈ l →
    ∃ g ∈ l.pwFilter Apart, g.resolved = f.resolved ∧ f.source <+: g.source
  | k :: l, hl, hf => by
    obtain ⟨hk, hl⟩ := List.pairwise_cons.mp hl
    by_cases hkept : ∀ g ∈ l.pwFilter Apart, Apart k g
    · rw [List.pwFilter_cons_of_pos hkept]
      rcases List.mem_cons.mp hf with rfl | hf
      · exact ⟨f, List.mem_cons_self, rfl, List.prefix_rfl⟩
      · obtain ⟨g, hg, hgf⟩ := exists_deepest hl hf
        exact ⟨g, List.mem_cons_of_mem _ hg, hgf⟩
    · rw [List.pwFilter_cons_of_neg hkept]
      rcases List.mem_cons.mp hf with rfl | hf
      · obtain ⟨g, hg, hsame⟩ : ∃ g ∈ l.pwFilter Apart, ¬ Apart f g := by
          simpa only [not_forall, exists_prop] using hkept
        exact ⟨g, hg, (not_not.mp hsame).symm, hk g (List.pwFilter_subset l hg)⟩
      · exact exists_deepest hl hf

theorem nodup_resolved (l : List InstructionFile) :
    ((l.pwFilter Apart).map InstructionFile.resolved).Nodup :=
  List.pairwise_map.mpr (List.pairwise_pwFilter l)

end

/-- Discovery succeeds exactly if no directory on the way has a file that cannot
be read. The chain is then of files on the way, in the order from the root; no
real file is in it twice; and each that is on the way is in it, for the deepest
directory that has it. -/
theorem discover_chain (fs : Path → Candidate) (current : Path) :
    ((∃ chain, discoverInstructionChain fs current = .ok chain) ↔
      ∀ d, d <+: current → Readable fs d) ∧
    ∀ chain, discoverInstructionChain fs current = .ok chain →
      chain.Sublist (onTheWay fs current) ∧ (chain.map InstructionFile.resolved).Nodup ∧
        ∀ f, f.source <+: current → instruction fs f.source = some f →
          ∃ g ∈ chain, g.resolved = f.resolved ∧ f.source <+: g.source := by
  constructor
  · simp only [discover_iff, exists_and_left, exists_eq, and_true]
  · intro chain h
    obtain ⟨-, rfl⟩ := discover_iff.mp h
    exact ⟨List.pwFilter_sublist _, nodup_resolved _, fun f hf hfile =>
      exists_deepest (pairwise_onTheWay fs current) (mem_onTheWay.mpr ⟨hf, hfile⟩)⟩

/-- The check of `validate_repository` that the canonical file is in the chain
once: it is, for every directory below the repository's. -/
theorem canonical_exactly_once {fs : Path → Candidate} {repo probe canonical : Path}
    {chain : List InstructionFile} (hprobe : repo <+: probe)
    (hcanonical : fs repo = .resolves canonical true true)
    (hchain : discoverInstructionChain fs probe = .ok chain) :
    canonicalOccurrences canonical chain = 1 := by
  obtain ⟨-, rfl⟩ := discover_iff.mp hchain
  have hfile : instruction fs repo = some ⟨repo, canonical⟩ := by rw [instruction, hcanonical]
  obtain ⟨g, hg, hr, -⟩ := exists_deepest (pairwise_onTheWay fs probe)
    (mem_onTheWay (f := ⟨repo, canonical⟩) |>.mpr ⟨hprobe, hfile⟩)
  have hcount : canonicalOccurrences canonical ((onTheWay fs probe).pwFilter Apart) =
      (((onTheWay fs probe).pwFilter Apart).map InstructionFile.resolved).count canonical := by
    rw [canonicalOccurrences, List.count, List.countP_map]
    exact List.countP_congr fun f _ => by simp
  rw [hcount]
  have hmem : g.resolved ∈ ((onTheWay fs probe).pwFilter Apart).map InstructionFile.resolved :=
    List.mem_map_of_mem hg
  rw [hr] at hmem
  exact List.count_eq_one_of_mem (nodup_resolved _) hmem

/-! ## A repository -/

/-- A repository `r` in the root, whose `r/s` has a link to its file. -/
def linked : Path → Candidate
  | ["r"] => .resolves ["r", "AGENTS.md"] true true
  | ["r", "s"] => .resolves ["r", "AGENTS.md"] true true
  | _ => .absent

theorem canonical_exactly_once_linked :
    canonicalOccurrences ["r", "AGENTS.md"] [⟨["r", "s"], ["r", "AGENTS.md"]⟩] = 1 := by
  have hchain : discoverInstructionChain linked ["r", "s", "t"] =
      .ok [⟨["r", "s"], ["r", "AGENTS.md"]⟩] := by decide
  have hprobe : (["r"] : Path) <+: ["r", "s", "t"] := ⟨["s", "t"], rfl⟩
  exact canonical_exactly_once hprobe rfl hchain

end Fiducia.Instructions
