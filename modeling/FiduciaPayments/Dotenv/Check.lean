import FiduciaPayments.Lib.CQuote
import FiduciaPayments.Lib.Grep

/-!
# `env-check`

The audit of a checkout: what git lists is searched for names of secrets, the
files in `env/enc` are searched for what sops leaves in them, and decrypted
where there is a key. The recipe notes what it finds, and passes if it has
noted nothing. What its patterns find is said by the segments of a path
(`Fault`), and `env_check_iff` that it notes exactly this.

The recipe sees what git printed: a git that fails, which it does not notice,
has listed the paths it got to, and `git check-ignore` without `-z` quotes paths
(`ShowsSecret`). `grep` goes by bytes, as in the C locale; in another one it does
so as well where the paths and files are text of its encoding.
-/

namespace Fiducia.Dotenv.Check

open Lib.CQuote Lib.Errexit Lib.Grep Lib.Shell

abbrev slash : UInt8 := 0x2F

/-! ## Patterns -/

/-- `(^|/)\.env$|(^|/)\.env\.[^/]*$|(^|/)env/dec/` -/
def plaintext : Pattern UInt8 :=
  [⟨true, ascii ".env", .finish⟩, ⟨true, ascii ".env.", .segment⟩,
    ⟨true, ascii "env/dec/", .anything⟩]

/-- `\.(example|sample|template)$` -/
def template : Pattern UInt8 :=
  [⟨false, ascii ".example", .finish⟩, ⟨false, ascii ".sample", .finish⟩,
    ⟨false, ascii ".template", .finish⟩]

/-- `(^|/)env/|\.env$|\.age-?key$|(^|/)keys\.txt$|sops-private` -/
def secretShaped : Pattern UInt8 :=
  [⟨true, ascii "env/", .anything⟩, ⟨false, ascii ".env", .finish⟩,
    ⟨false, ascii ".agekey", .finish⟩, ⟨false, ascii ".age-key", .finish⟩,
    ⟨true, ascii "keys.txt", .finish⟩, ⟨false, ascii "sops-private", .anything⟩]

/-- `\.(agekey|age-key)$|(^|/)keys\.txt$|AGE-SECRET-KEY` -/
def privateKey : Pattern UInt8 :=
  [⟨false, ascii ".agekey", .finish⟩, ⟨false, ascii ".age-key", .finish⟩,
    ⟨true, ascii "keys.txt", .finish⟩, ⟨false, ascii "AGE-SECRET-KEY", .anything⟩]

/-- `.env`, `.env.<anything>` and what is under `env/dec`, but for names that
end as those of templates do. -/
def IsDotenv (path : List Word) : Prop :=
  (base path = ascii ".env" ∨ ascii ".env." <+: base path ∨
      Within [ascii "env", ascii "dec"] path) ∧
    ¬ (ascii ".example" <:+ base path ∨ ascii ".sample" <:+ base path ∨
      ascii ".template" <:+ base path)

/-- Where age keys are kept. -/
def IsKeyFile (path : List Word) : Prop :=
  ascii ".agekey" <:+ base path ∨ ascii ".age-key" <:+ base path ∨ base path = ascii "keys.txt"

def IsSecretShaped (path : List Word) : Prop :=
  Within [ascii "env"] path ∨ ascii ".env" <:+ base path ∨ IsKeyFile path ∨
    ∃ segment ∈ path, ascii "sops-private" <:+: segment

def IsPrivateKey (path : List Word) : Prop :=
  IsKeyFile path ∨ ∃ segment ∈ path, ascii "AGE-SECRET-KEY" <:+: segment

section
variable {line : Word}

theorem plaintext_iff : (plaintext.finds slash line && !template.finds slash line) = true ↔
    IsDotenv (line.splitOn slash) := by
  have hdirs : ∀ d ∈ [ascii "env", ascii "dec"], slash ∉ d := by decide
  have hdec : (Branch.mk true (ascii "env/dec/") .anything).search slash true line = true ↔
      Within [ascii "env", ascii "dec"] (line.splitOn slash) := search_directories hdirs
  rw [Bool.and_eq_true, Bool.not_eq_true', ← Bool.not_eq_true, IsDotenv]
  refine and_congr ?_ (not_congr ?_)
  · simp only [Pattern.finds, plaintext, List.any_cons, List.any_nil, Bool.or_eq_true,
      Bool.or_false]
    rw [search_base (by decide), search_base_prefix (by decide), hdec]
  · simp only [Pattern.finds, template, List.any_cons, List.any_nil, Bool.or_eq_true, Bool.or_false]
    rw [search_base_suffix (by decide), search_base_suffix (by decide),
      search_base_suffix (by decide)]

theorem secretShaped_iff : secretShaped.finds slash line = true ↔
    IsSecretShaped (line.splitOn slash) := by
  have hdirs : ∀ d ∈ [ascii "env"], slash ∉ d := by decide
  have henv : (Branch.mk true (ascii "env/") .anything).search slash true line = true ↔
      Within [ascii "env"] (line.splitOn slash) := search_directories hdirs
  simp only [Pattern.finds, secretShaped, List.any_cons, List.any_nil, Bool.or_eq_true,
    Bool.or_false]
  rw [henv, search_base_suffix (by decide), search_base_suffix (by decide),
    search_base_suffix (by decide), search_base (by decide), search_inside (by decide)]
  simp only [IsSecretShaped, IsKeyFile, or_assoc]

theorem privateKey_iff : privateKey.finds slash line = true ↔
    IsPrivateKey (line.splitOn slash) := by
  simp only [Pattern.finds, privateKey, List.any_cons, List.any_nil, Bool.or_eq_true, Bool.or_false]
  rw [search_base_suffix (by decide), search_base_suffix (by decide), search_base (by decide),
    search_inside (by decide)]
  simp only [IsPrivateKey, IsKeyFile, or_assoc]

end

/-! ## Quoted paths -/

/-- What the recipe takes for a path of secret shape in a line that `git
check-ignore` prints: of a path in quotes only what is not at its ends. -/
def ShowsSecret (quotePath : Bool) (path : Word) : Prop :=
  if path.any (isUnusual quotePath) then
    ascii "/env/" <:+: path ∨ ascii "sops-private" <:+: path
  else IsSecretShaped (path.splitOn slash)

section
variable {quotePath : Bool} {path : Word}

/-- `(^|/)t` with something else than a double quote begins after a slash. -/
theorem search_quoted {t : Word} {tail : Tail} (h : path.any (isUnusual quotePath) = true)
    (ht : t ≠ []) (hquote : doubleQuote ∉ t) :
    (Branch.mk true t tail).search slash true (quoted quotePath path) = true ↔
      ∃ rest, tail.accepts slash rest = true ∧ slash :: (t ++ rest) <:+ quoted quotePath path := by
  obtain ⟨c, r, rfl⟩ := List.exists_cons_of_ne_nil ht
  rw [search_atSegment rfl]
  refine exists_congr fun rest => and_congr_right fun _ => or_iff_right fun ⟨_, hs⟩ => ?_
  rw [quoted_of_unusual h, List.cons_append] at hs
  exact hquote ((List.cons.inj hs).1 ▸ List.mem_cons_self)

/-- `t$` does not match a quote. -/
theorem not_search_finish {t : Word} (h : path.any (isUnusual quotePath) = true) (ht : t ≠ [])
    (hquote : doubleQuote ∉ t) :
    ¬ (Branch.mk false t .finish).search slash true (quoted quotePath path) = true := by
  rw [search_anywhere rfl]
  intro ⟨rest, hrest, hs⟩
  obtain rfl := List.isEmpty_iff.mp hrest
  rw [List.append_nil] at hs
  exact not_suffix_quoted h ht hquote hs

theorem secretShaped_quoted (h : path.any (isUnusual quotePath) = true) :
    secretShaped.finds slash (quoted quotePath path) = true ↔
      ascii "/env/" <:+: path ∨ ascii "sops-private" <:+: path := by
  have henv : (Branch.mk true (ascii "env/") .anything).search slash true
      (quoted quotePath path) = true ↔ ascii "/env/" <:+: path := by
    have hinfix : ascii "/env/" <:+: quoted quotePath path ↔ ascii "/env/" <:+: path :=
      infix_quoted_iff (fun c => notMem_escape (by decide) (by decide))
        (by cases quotePath <;> rfl)
    rw [search_quoted h (by decide) (by decide), ← hinfix,
      show ascii "/env/" = slash :: ascii "env/" from rfl]
    exact ⟨fun ⟨rest, _, front, hs⟩ => ⟨front, rest, by rw [← hs]; simp⟩,
      fun ⟨front, rest, hs⟩ => ⟨rest, rfl, front, by rw [← hs]; simp⟩⟩
  have hsops : (Branch.mk false (ascii "sops-private") .anything).search slash true
      (quoted quotePath path) = true ↔ ascii "sops-private" <:+: path := by
    have hinfix : ascii "sops-private" <:+: quoted quotePath path ↔
        ascii "sops-private" <:+: path :=
      infix_quoted_iff (fun c => notMem_escape (by decide) (by decide))
        (by cases quotePath <;> rfl)
    rw [search_anywhere rfl, ← hinfix]
    exact ⟨fun ⟨rest, _, front, hs⟩ => ⟨front, rest, by rw [← hs]; simp⟩,
      fun ⟨front, rest, hs⟩ => ⟨rest, rfl, front, by rw [← hs]; simp⟩⟩
  have hkeys : ¬ (Branch.mk true (ascii "keys.txt") .finish).search slash true
      (quoted quotePath path) = true := by
    rw [search_quoted h (by decide) (by decide)]
    intro ⟨rest, hrest, hs⟩
    obtain rfl := List.isEmpty_iff.mp hrest
    exact not_suffix_quoted h (List.cons_ne_nil _ _) (by decide) hs
  simp only [Pattern.finds, secretShaped, List.any_cons, List.any_nil, Bool.or_eq_true,
    Bool.or_false, henv, hsops, hkeys, not_search_finish h (t := ascii ".env") (by decide) (by decide),
    not_search_finish h (t := ascii ".agekey") (by decide) (by decide),
    not_search_finish h (t := ascii ".age-key") (by decide) (by decide),
    Bool.false_eq_true, false_or]

theorem showsSecret_iff : ShowsSecret quotePath path ↔
    IsSecretShaped ((quoted quotePath path).splitOn slash) := by
  unfold ShowsSecret
  split
  · rename_i h
    rw [← secretShaped_iff, secretShaped_quoted h]
  · rename_i h
    rw [show quoted quotePath path = path from if_neg h]

end

/-! ## The recipe -/

/-- What `git … -z` printed, and how it ended. -/
structure Paths where
  paths : List Word
  ok : Bool
  zero_notMem : ∀ path ∈ paths, (0 : UInt8) ∉ path

def Paths.out (p : Paths) : Outcome := { out := p.paths.flatMap (· ++ [0]), ok := p.ok }

/-- The lines of the paths; a path with a newline has several. -/
def Paths.lines (p : Paths) : List Word := p.paths.flatMap (·.splitOn newline)

/-- A file of `env/enc`: its lines, and whether sops decrypts it. -/
structure Ciphertext where
  name : Word
  lines : List Word
  decrypts : Bool

/-- Variables of the environment. -/
structure Host where
  sopsAgeKeyFile : Option Word
  xdgConfigHome : Option Word
  home : Option Word
  sopsAgeKey : Option Word

/-- What the recipe reads. -/
structure World extends Host where
  /-- `git ls-files` -/
  tracked : Paths
  /-- `git diff --cached --name-only` -/
  staged : Paths
  /-- `git check-ignore --no-index --stdin` of an input: the paths that rules match. -/
  checkIgnore : Word → Outcome
  /-- The lines of `.gitignore`, if there is one. -/
  gitignore : Option (List Word)
  /-- `env/enc/*.env.enc` -/
  files : List Ciphertext
  isFile : Word → Bool

/-- What `note` is called for. -/
inductive Note where
  | tracked
  | forced
  | staged
  | privateKeys
  | missingRule (rule : Word)
  | notEncrypted (name : Word)
  | noMac (name : Word)
  | recipients (name : Word) (r : Nat)
  | notDecrypted (name : Word)
  deriving DecidableEq

/-- The variables that the recipe looks at, and what it has noted. -/
structure State where
  found : Word
  fail : Bool
  notes : List Note

def State.start : State := { found := [], fail := false, notes := [] }

def note (n : Note) (s : State) : State := { s with fail := true, notes := s.notes ++ [n] }

/-- The names that a pipeline finds are noted if there are any. -/
def audit (p : Outcome) (n : Note) : List (Command State Unit) :=
  [assign (orTrue p) fun out s => { s with found := out },
    simple fun s => some (if s.found ≠ [] then note n s else s)]

/-- `tr '\0' '\n' | grep -E … | grep -vE …` of what git printed. -/
def dotenvNames (git : Outcome) : Outcome :=
  let found := select (plaintext.finds slash) (tr git.out)
  pipe (pipe git found) (select (fun line => !template.finds slash line) found.out)

/-- `tr '\0' '\n' | git check-ignore … | grep -E …` -/
def forcedNames (w : World) : Outcome :=
  let ignored := w.checkIgnore (tr w.tracked.out.out)
  pipe (pipe w.tracked.out ignored) (select (secretShaped.finds slash) ignored.out)

/-- `tr '\0' '\n' | grep -E …` -/
def keyNames (git : Outcome) : Outcome := pipe git (select (privateKey.finds slash) (tr git.out))

def rules : List Word := [ascii ".env", ascii "*.env", ascii "**/*.env", ascii "env/dec/"]

/-- `grep -qxF "$rule" .gitignore || note …` -/
def checkRule (w : World) (rule : Word) (s : State) : State :=
  if (w.gitignore.getD []).any fun line => line = rule then s else note (.missingRule rule) s

/-- `grep` finds the text in a line. -/
def Ciphertext.has (f : Ciphertext) (text : Word) : Bool := f.lines.any (contains text)

/-- The round of a file that needs no key. -/
def integrity (f : Ciphertext) (s : State) : State :=
  if !f.has (ascii "ENC[AES256_GCM") then note (.notEncrypted f.name) s
  else
    let s := if f.lines.any (ascii "sops_mac=").isPrefixOf then s else note (.noMac f.name) s
    let r := f.lines.countP (contains (ascii "map_recipient"))
    if r < 2 then note (.recipients f.name r) s else s

/-- `${x:-default}` -/
def orDefault (x : Option Word) (default : Word) : Word :=
  if x.getD [] ≠ [] then x.getD [] else default

/-- Where a key file may be. -/
def keyFiles (h : Host) (home : Word) : List Word :=
  [h.sopsAgeKeyFile.getD [],
    orDefault h.xdgConfigHome (home ++ ascii "/.config") ++ ascii "/sops/age/keys.txt",
    home ++ ascii "/Library/Application Support/sops/age/keys.txt"]

/-- `[[ -n $keyfile || -n ${SOPS_AGE_KEY:-} ]]` -/
def hasKey (w : World) (home : Word) : Bool :=
  ((keyFiles w.toHost home).find? fun p => p ≠ [] ∧ w.isFile p).getD [] ≠ [] ∨
    w.sopsAgeKey.getD [] ≠ []

/-- The round of a file where there is a key. -/
def decryption (f : Ciphertext) (s : State) : State :=
  if f.decrypts then s else note (.notDecrypted f.name) s

/-- The commands from the loop that looks for a key; `set -u` ends the script
where `HOME` is not set. -/
def decryptions (w : World) : List (Command State Unit) :=
  match w.home with
  | none => [fun _ => .exited]
  | some home =>
    if hasKey w home then w.files.map fun f => simple fun s => some (decryption f s) else []

/-- The commands that need no key. -/
def keyless (w : World) : List (Command State Unit) :=
  audit (dotenvNames w.tracked.out) .tracked ++ audit (forcedNames w) .forced ++
    audit (dotenvNames w.staged.out) .staged ++ audit (keyNames w.tracked.out) .privateKeys ++
    (rules.map fun rule => simple fun s => some (checkRule w rule s)) ++
    (w.files.map fun f => simple fun s => some (integrity f s))

/-- The script up to the verdict. -/
def script (w : World) : List (Command State Unit) := keyless w ++ decryptions w

/-- The state at the verdict; `none` where the script has ended before. -/
def envCheck (w : World) : Option State :=
  match run (script w) .start with
  | .next s => some s
  | _ => none

/-- `[[ $fail -eq 0 ]]` -/
def passes (w : World) : Bool :=
  match envCheck w with
  | some s => !s.fail
  | none => false

/-! ## What is wrong -/

/-- There is a key at hand. -/
def HasKey (w : World) : Prop :=
  ∃ home ∈ w.home, (∃ p ∈ keyFiles w.toHost home, p ≠ [] ∧ w.isFile p = true) ∨
    w.sopsAgeKey.getD [] ≠ []

/-- What the recipe is to note, by what git has printed. -/
inductive Fault (w : World) : Note → Prop where
  | tracked {line : Word} : line ∈ w.tracked.lines → IsDotenv (line.splitOn slash) →
      Fault w .tracked
  | forced {line : Word} : line ∈ lines (w.checkIgnore (unlines w.tracked.lines)).out →
      IsSecretShaped (line.splitOn slash) → Fault w .forced
  | staged {line : Word} : line ∈ w.staged.lines → IsDotenv (line.splitOn slash) → Fault w .staged
  | privateKeys {line : Word} : line ∈ w.tracked.lines → IsPrivateKey (line.splitOn slash) →
      Fault w .privateKeys
  | missingRule {rule : Word} : rule ∈ rules → (∀ ls ∈ w.gitignore, rule ∉ ls) →
      Fault w (.missingRule rule)
  | notEncrypted {f : Ciphertext} : f ∈ w.files →
      (∀ l ∈ f.lines, ¬ ascii "ENC[AES256_GCM" <:+: l) → Fault w (.notEncrypted f.name)
  | noMac {f : Ciphertext} : f ∈ w.files → (∃ l ∈ f.lines, ascii "ENC[AES256_GCM" <:+: l) →
      (∀ l ∈ f.lines, ¬ ascii "sops_mac=" <+: l) → Fault w (.noMac f.name)
  | recipients {f : Ciphertext} {r : Nat} : f ∈ w.files →
      (∃ l ∈ f.lines, ascii "ENC[AES256_GCM" <:+: l) →
      f.lines.countP (contains (ascii "map_recipient")) = r → r < 2 → Fault w (.recipients f.name r)
  | notDecrypted {f : Ciphertext} : HasKey w → f ∈ w.files → f.decrypts = false →
      Fault w (.notDecrypted f.name)

/-! ## What is noted -/

def State.add (ns : List Note) (s : State) : State :=
  { s with fail := s.fail || !ns.isEmpty, notes := s.notes ++ ns }

/-- The commands go on, and have noted these. -/
def Adds (cs : List (Command State Unit)) (ns : List Note) : Prop :=
  ∀ s, ∃ found, run cs s = .next { s.add ns with found }

def auditNotes (p : Outcome) (n : Note) : List Note :=
  if commandSubstitution p.out = [] then [] else [n]

def ruleNotes (w : World) (rule : Word) : List Note :=
  if (w.gitignore.getD []).any fun line => line = rule then [] else [.missingRule rule]

def integrityNotes (f : Ciphertext) : List Note :=
  if !f.has (ascii "ENC[AES256_GCM") then [.notEncrypted f.name]
  else
    (if f.lines.any (ascii "sops_mac=").isPrefixOf then [] else [.noMac f.name]) ++
      let r := f.lines.countP (contains (ascii "map_recipient"))
      if r < 2 then [.recipients f.name r] else []

def decryptionNotes (f : Ciphertext) : List Note :=
  if f.decrypts then [] else [.notDecrypted f.name]

section
variable {w : World} {cs ds : List (Command State Unit)} {ms ns : List Note} {n : Note} {s : State}
  {home : Word} {f : Ciphertext}

theorem note_eq : note n s = s.add [n] := by
  rw [note, State.add, List.isEmpty_cons, Bool.not_false, Bool.or_true]

theorem add_nil : s.add [] = s := by
  rw [State.add, List.isEmpty_nil, Bool.not_true, Bool.or_false, List.append_nil]

theorem add_add : (s.add ms).add ns = s.add (ms ++ ns) := by
  have hempty : (ms ++ ns).isEmpty = (ms.isEmpty && ns.isEmpty) := by
    cases ms <;> rfl
  simp only [State.add, hempty, Bool.not_and, Bool.or_assoc, List.append_assoc]

theorem adds_nil : Adds [] [] := fun s => ⟨s.found, by rw [add_nil]; rfl⟩

theorem Adds.append (hc : Adds cs ms) (hd : Adds ds ns) : Adds (cs ++ ds) (ms ++ ns) := by
  intro s
  obtain ⟨found, hs⟩ := hc s
  obtain ⟨found', hs'⟩ := hd { s.add ms with found }
  refine ⟨found', ?_⟩
  rw [run_append, hs]
  show run ds { s.add ms with found } = _
  rw [hs', ← add_add]
  rfl

theorem adds_audit (p : Outcome) (n : Note) : Adds (audit p n) (auditNotes p n) := by
  intro s
  refine ⟨commandSubstitution p.out, ?_⟩
  have hrun : run (audit p n) s = .next (if commandSubstitution p.out ≠ [] then
      note n { s with found := commandSubstitution p.out }
    else { s with found := commandSubstitution p.out }) := rfl
  rw [hrun, auditNotes]
  by_cases h : commandSubstitution p.out = []
  · rw [if_neg (not_not.mpr h), if_pos h, add_nil]
  · rw [if_pos h, if_neg h, note_eq]
    rfl

/-- A loop whose rounds note something each. -/
theorem adds_map {A : Type} {g : A → State → State} {notes : A → List Note}
    (h : ∀ a s, g a s = s.add (notes a)) : ∀ as : List A,
    Adds (as.map fun a => simple fun s => some (g a s)) (as.flatMap notes)
  | [] => adds_nil
  | a :: as => by
    have hround : Adds [simple fun s => some (g a s)] (notes a) := fun s =>
      ⟨s.found, congrArg Progress.next (h a s)⟩
    exact hround.append (adds_map h as)

theorem checkRule_eq (rule : Word) : checkRule w rule s = s.add (ruleNotes w rule) := by
  unfold checkRule ruleNotes
  split
  · exact add_nil.symm
  · exact note_eq

theorem integrity_eq (f : Ciphertext) : integrity f s = s.add (integrityNotes f) := by
  unfold integrity integrityNotes
  split
  · exact note_eq
  · rw [← add_add]
    have hmac : (if f.lines.any (ascii "sops_mac=").isPrefixOf then s else note (.noMac f.name) s) =
        s.add (if f.lines.any (ascii "sops_mac=").isPrefixOf then [] else [.noMac f.name]) := by
      split
      · exact add_nil.symm
      · exact note_eq
    simp only [hmac]
    split
    · exact note_eq
    · exact add_nil.symm

theorem decryption_eq (f : Ciphertext) : decryption f s = s.add (decryptionNotes f) := by
  unfold decryption decryptionNotes
  split
  · exact add_nil.symm
  · exact note_eq

/-! ## Notes and faults -/

/-- The lines that a pipeline prints are noted if there is one; each has a byte
that `$(…)` keeps. -/
theorem mem_auditNotes {p : Outcome} {ls : List Word} {m : Note} (hout : p.out = unlines ls)
    (hls : ∀ l ∈ ls, ∃ c ∈ l, c ≠ 0 ∧ c ≠ newline) :
    m ∈ auditNotes p n ↔ m = n ∧ ∃ l, l ∈ ls := by
  have hfound : commandSubstitution p.out ≠ [] ↔ ∃ l, l ∈ ls := by
    rw [hout, commandSubstitution_unlines_ne_nil_iff hls]
    exact ⟨List.exists_mem_of_ne_nil ls, fun ⟨l, hl⟩ => List.ne_nil_of_mem hl⟩
  rw [auditNotes, ← hfound]
  by_cases h : commandSubstitution p.out = [] <;> simp [h]

theorem tr_out (git : Paths) : tr git.out.out = unlines git.lines := tr_paths git.zero_notMem

theorem lines_tr_out (git : Paths) : lines (tr git.out.out) = git.lines := by
  rw [tr_out, Paths.lines, lines_unlines newline_notMem_of_mem_splitOn]

theorem mem_dotenvNames {git : Paths} {m : Note} : m ∈ auditNotes (dotenvNames git.out) n ↔
    m = n ∧ ∃ line ∈ git.lines, IsDotenv (line.splitOn slash) := by
  have hout : (dotenvNames git.out).out = unlines (git.lines.filter fun line =>
      plaintext.finds slash line && !template.finds slash line) := by
    show unlines ((lines (select _ _).out).filter _) = _
    rw [lines_select, lines_tr_out, List.filter_filter]
    simp only [Bool.and_comm]
  rw [mem_auditNotes hout fun l hl => ?_]
  · simp only [List.mem_filter, plaintext_iff]
  · have hl := (Bool.and_eq_true_iff.mp (List.mem_filter.mp hl).2).1
    exact exists_mem_of_finds (by decide) hl

theorem mem_forcedNames {m : Note} : m ∈ auditNotes (forcedNames w) n ↔
    m = n ∧ ∃ line ∈ lines (w.checkIgnore (unlines w.tracked.lines)).out,
      IsSecretShaped (line.splitOn slash) := by
  have hout : (forcedNames w).out =
      unlines ((lines (w.checkIgnore (unlines w.tracked.lines)).out).filter
        (secretShaped.finds slash)) := by
    rw [← tr_out]
    rfl
  rw [mem_auditNotes hout fun l hl => ?_]
  · simp only [List.mem_filter, secretShaped_iff]
  · exact exists_mem_of_finds (by decide) (List.mem_filter.mp hl).2

theorem mem_keyNames {git : Paths} {m : Note} : m ∈ auditNotes (keyNames git.out) n ↔
    m = n ∧ ∃ line ∈ git.lines, IsPrivateKey (line.splitOn slash) := by
  have hout : (keyNames git.out).out = unlines (git.lines.filter (privateKey.finds slash)) := by
    rw [← lines_tr_out git]
    rfl
  rw [mem_auditNotes hout fun l hl => ?_]
  · simp only [List.mem_filter, privateKey_iff]
  · exact exists_mem_of_finds (by decide) (List.mem_filter.mp hl).2

theorem mem_ruleNotes {rule : Word} : n ∈ ruleNotes w rule ↔
    n = .missingRule rule ∧ ∀ ls ∈ w.gitignore, rule ∉ ls := by
  unfold ruleNotes
  cases w.gitignore with
  | none => simp
  | some ls =>
    have hany : (ls.any fun line => line = rule) = true ↔ rule ∈ ls := by simp
    by_cases h : rule ∈ ls
    · simp [hany.mpr h, h]
    · simp [mt hany.mp h, h]

theorem has_iff {text : Word} : f.has text = true ↔ ∃ l ∈ f.lines, text <:+: l := by
  simp only [Ciphertext.has, List.any_eq_true, contains_iff]

theorem hasMac_iff : f.lines.any (ascii "sops_mac=").isPrefixOf = true ↔
    ∃ l ∈ f.lines, ascii "sops_mac=" <+: l := by
  simp only [List.any_eq_true, List.isPrefixOf_iff_prefix]

theorem mem_integrityNotes : n ∈ integrityNotes f ↔
    (n = .notEncrypted f.name ∧ ∀ l ∈ f.lines, ¬ ascii "ENC[AES256_GCM" <:+: l) ∨
      (∃ l ∈ f.lines, ascii "ENC[AES256_GCM" <:+: l) ∧
        ((n = .noMac f.name ∧ ∀ l ∈ f.lines, ¬ ascii "sops_mac=" <+: l) ∨
          ∃ r, n = .recipients f.name r ∧
            f.lines.countP (contains (ascii "map_recipient")) = r ∧ r < 2) := by
  have hnone {p : Word → Prop} : (∀ l ∈ f.lines, ¬ p l) ↔ ¬ ∃ l ∈ f.lines, p l := by
    simp only [not_exists, not_and]
  rw [hnone, hnone, ← has_iff, ← hasMac_iff, integrityNotes]
  by_cases henc : f.has (ascii "ENC[AES256_GCM") = true
  · rw [henc, Bool.not_true, if_neg Bool.false_ne_true, List.mem_append]
    simp only [not_true_eq_false, and_false, false_or, true_and]
    refine or_congr ?_ ?_
    · split <;> simp_all
    · split <;> simp_all
  · rw [Bool.eq_false_iff.mpr henc, Bool.not_false, if_pos rfl]
    simp

theorem mem_decryptionNotes : n ∈ decryptionNotes f ↔
    n = .notDecrypted f.name ∧ f.decrypts = false := by
  unfold decryptionNotes
  cases f.decrypts <;> simp

theorem hasKey_iff : hasKey w home = true ↔
    (∃ p ∈ keyFiles w.toHost home, p ≠ [] ∧ w.isFile p = true) ∨ w.sopsAgeKey.getD [] ≠ [] := by
  rw [hasKey, decide_eq_true_eq]
  refine or_congr_left ?_
  rcases hp : (keyFiles w.toHost home).find? fun p => p ≠ [] ∧ w.isFile p with _ | p
  · refine iff_of_false (not_not.mpr rfl) fun ⟨p, hm, hfile⟩ => ?_
    exact List.find?_eq_none.mp hp p hm (decide_eq_true hfile)
  · have hfile : decide (p ≠ [] ∧ w.isFile p = true) = true := by
      exact (List.find?_eq_some_iff_append.mp hp).1
    replace hfile := of_decide_eq_true hfile
    exact iff_of_true hfile.1 ⟨p, List.mem_of_find?_eq_some hp, hfile⟩

def keylessNotes (w : World) : List Note :=
  auditNotes (dotenvNames w.tracked.out) .tracked ++ auditNotes (forcedNames w) .forced ++
    auditNotes (dotenvNames w.staged.out) .staged ++
    auditNotes (keyNames w.tracked.out) .privateKeys ++ rules.flatMap (ruleNotes w) ++
    w.files.flatMap integrityNotes

/-- The notes, where `HOME` is set. -/
def notesOf (w : World) (home : Word) : List Note :=
  keylessNotes w ++ if hasKey w home then w.files.flatMap decryptionNotes else []

theorem adds_keyless (w : World) : Adds (keyless w) (keylessNotes w) := by
  unfold keyless keylessNotes
  refine .append (.append (.append (.append (.append ?_ ?_) ?_) ?_) ?_) ?_
  · exact adds_audit _ _
  · exact adds_audit _ _
  · exact adds_audit _ _
  · exact adds_audit _ _
  · exact adds_map (fun rule _ => checkRule_eq rule) _
  · exact adds_map (fun f _ => integrity_eq f) _

theorem adds_script (hhome : w.home = some home) : Adds (script w) (notesOf w home) := by
  refine (adds_keyless w).append ?_
  rw [decryptions, hhome]
  show Adds (if hasKey w home then _ else []) _
  split
  · exact adds_map (fun f _ => decryption_eq f) _
  · exact adds_nil

theorem envCheck_of_home (hhome : w.home = some home) :
    ∃ s, envCheck w = some s ∧ s.notes = notesOf w home ∧
      s.fail = !(notesOf w home).isEmpty := by
  obtain ⟨found, hrun⟩ := adds_script hhome State.start
  refine ⟨_, by rw [envCheck, hrun], ?_⟩
  generalize notesOf w home = ns
  exact ⟨rfl, rfl⟩

theorem envCheck_of_no_home (hhome : w.home = none) : envCheck w = none := by
  obtain ⟨found, hrun⟩ := adds_keyless w State.start
  rw [envCheck, script, run_append, hrun, decryptions, hhome]
  rfl

theorem mem_notesOf_iff (hhome : w.home = some home) : n ∈ notesOf w home ↔ Fault w n := by
  have hkey : HasKey w ↔ hasKey w home = true := by
    rw [hasKey_iff, HasKey, hhome]
    simp
  have hdecryption : n ∈ (if hasKey w home then w.files.flatMap decryptionNotes else []) ↔
      HasKey w ∧ n ∈ w.files.flatMap decryptionNotes := by
    rw [hkey]
    split <;> simp_all
  simp only [notesOf, keylessNotes, List.mem_append, hdecryption, List.mem_flatMap, mem_dotenvNames,
    mem_forcedNames, mem_keyNames, mem_ruleNotes, mem_integrityNotes, mem_decryptionNotes, or_assoc]
  constructor
  · intro h
    rcases h with ⟨rfl, l, hl, hd⟩ | ⟨rfl, l, hl, hd⟩ | ⟨rfl, l, hl, hd⟩ | ⟨rfl, l, hl, hd⟩ |
      ⟨rule, hr, rfl, hnot⟩ | ⟨f, hf, ⟨rfl, hnot⟩ | ⟨henc, ⟨rfl, hnot⟩ | ⟨r, rfl, hr, hlt⟩⟩⟩ |
      ⟨hk, f, hf, rfl, hd⟩
    · exact .tracked hl hd
    · exact .forced hl hd
    · exact .staged hl hd
    · exact .privateKeys hl hd
    · exact .missingRule hr hnot
    · exact .notEncrypted hf hnot
    · exact .noMac hf henc hnot
    · exact .recipients hf henc hr hlt
    · exact .notDecrypted hk hf hd
  · intro h
    cases h with
    | tracked hl hd => exact .inl ⟨rfl, _, hl, hd⟩
    | forced hl hd => exact .inr (.inl ⟨rfl, _, hl, hd⟩)
    | staged hl hd => exact .inr (.inr (.inl ⟨rfl, _, hl, hd⟩))
    | privateKeys hl hd => exact .inr (.inr (.inr (.inl ⟨rfl, _, hl, hd⟩)))
    | missingRule hr hnot => exact .inr (.inr (.inr (.inr (.inl ⟨_, hr, rfl, hnot⟩))))
    | notEncrypted hf hnot =>
      exact .inr (.inr (.inr (.inr (.inr (.inl ⟨_, hf, .inl ⟨rfl, hnot⟩⟩)))))
    | noMac hf henc hnot =>
      exact .inr (.inr (.inr (.inr (.inr (.inl ⟨_, hf, .inr ⟨henc, .inl ⟨rfl, hnot⟩⟩⟩)))))
    | recipients hf henc hr hlt =>
      exact .inr (.inr (.inr (.inr (.inr (.inl
        ⟨_, hf, .inr ⟨henc, .inr ⟨_, rfl, hr, hlt⟩⟩⟩)))))
    | notDecrypted hk hf hd => exact .inr (.inr (.inr (.inr (.inr (.inr ⟨hk, _, hf, rfl, hd⟩)))))

end

/-- `git check-ignore` prints the tracked paths that rules match, and quotes those
with unusual bytes. -/
structure World.ChecksIgnore (w : World) (quotePath : Bool) (ignored : Word → Bool) : Prop where
  /-- It would take the quote for that of a quoted path. -/
  no_quote : ∀ path ∈ w.tracked.lines, path.head? ≠ some doubleQuote
  /-- It would take the `\r` for a part of the line end. -/
  no_return : ∀ path ∈ w.tracked.lines, path.getLast? ≠ some 0x0D
  out_eq : (w.checkIgnore (unlines w.tracked.lines)).out =
    unlines ((w.tracked.lines.filter ignored).map (quoted quotePath))

theorem forced_iff {w : World} {quotePath : Bool} {ignored : Word → Bool}
    (hw : w.ChecksIgnore quotePath ignored) :
    Fault w .forced ↔
      ∃ path ∈ w.tracked.lines, ignored path = true ∧ ShowsSecret quotePath path := by
  have hfault : Fault w .forced ↔ ∃ line ∈ lines (w.checkIgnore (unlines w.tracked.lines)).out,
      IsSecretShaped (line.splitOn slash) :=
    ⟨fun | .forced hl hs => ⟨_, hl, hs⟩, fun ⟨_, hl, hs⟩ => .forced hl hs⟩
  rw [hfault, hw.out_eq, lines_unlines fun l hl => ?_]
  · simp only [List.mem_map, List.mem_filter, showsSecret_iff]
    constructor
    · rintro ⟨_, ⟨path, ⟨hp, hi⟩, rfl⟩, hs⟩
      exact ⟨path, hp, hi, hs⟩
    · intro ⟨path, hp, hi, hs⟩
      exact ⟨_, ⟨path, ⟨hp, hi⟩, rfl⟩, hs⟩
  · obtain ⟨path, -, rfl⟩ := List.mem_map.mp hl
    exact notMem_quoted (fun c => notMem_escape (by decide) (by decide))
      (by cases quotePath <;> rfl) (by decide)

/-- Where `HOME` is set, `env-check` gets to its verdict, has noted what is wrong
and nothing else, and passes exactly if nothing is; where it is not, it fails.
Of the tracked paths that rules match it notes those of secret shape, but for
most of those that git quotes. -/
theorem env_check_iff (w : World) :
    (∀ s ∈ envCheck w, ∀ n, n ∈ s.notes ↔ Fault w n) ∧
      (passes w = true ↔ w.home.isSome ∧ ∀ n, ¬ Fault w n) ∧
      ∀ quotePath ignored, w.ChecksIgnore quotePath ignored →
        (Fault w .forced ↔
          ∃ path ∈ w.tracked.lines, ignored path = true ∧ ShowsSecret quotePath path) := by
  refine and_assoc.mp ⟨?_, fun quotePath ignored hw => forced_iff hw⟩
  rcases hhome : w.home with _ | home
  · rw [passes, envCheck_of_no_home hhome]
    exact ⟨nofun, iff_of_false Bool.false_ne_true fun h => nomatch h.1⟩
  · obtain ⟨s, hs, hnotes, hfail⟩ := envCheck_of_home hhome
    rw [passes, hs]
    simp only [← mem_notesOf_iff hhome]
    refine ⟨fun s' hs' n => ?_, ?_⟩
    · rw [← Option.some.inj hs', hnotes]
    · rw [hfail, Bool.not_not, List.isEmpty_iff, List.eq_nil_iff_forall_not_mem]
      exact (and_iff_right rfl).symm

/-! ## A path with an accent -/

/-- `env/é.env` -/
def accentedPath : Word := ascii "env/" ++ [0xC3, 0xA9] ++ ascii ".env"

def nothingListed : Paths := { paths := [], ok := true, zero_notMem := nofun }

/-- A checkout with an ignored path that is tracked. -/
def accented : World where
  tracked := { paths := [accentedPath], ok := true, zero_notMem := by decide }
  staged := nothingListed
  checkIgnore _ := { out := unlines [quoted true accentedPath], ok := true }
  gitignore := some rules
  files := []
  sopsAgeKeyFile := none
  xdgConfigHome := none
  home := some (ascii "/root")
  sopsAgeKey := none
  isFile _ := false

theorem accented_checksIgnore : accented.ChecksIgnore true fun _ => true :=
  ⟨by decide, by decide, by decide⟩

theorem env_check_iff_accented : passes accented = true ∧ ¬ Fault accented .forced := by
  refine ⟨by decide, ?_⟩
  rw [(env_check_iff accented).2.2 true (fun _ => true) accented_checksIgnore]
  intro ⟨path, hp, _, hs⟩
  obtain rfl : path = accentedPath := List.mem_singleton.mp hp
  unfold ShowsSecret at hs
  rw [if_pos (by decide)] at hs
  exact absurd hs (by decide)

end Fiducia.Dotenv.Check
