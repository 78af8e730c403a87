import FiduciaPayments.Lib.Run
import FiduciaPayments.Lib.Text

/-!
# Scripts of a POSIX shell

The part of the shell's grammar that a list of `export`s needs: blanks and
newlines, single quotes, the backslash, and bytes that stand for themselves. A
byte with any other meaning to the shell (`$`, a backtick, `;` and the like)
outside quotes makes the script unreadable here, so a script that is read
substitutes and runs nothing.

* `run_quote`: a quoted text is read as it is, whatever its bytes are;
* `exports_script`: a script of `export` lines gives its names and values.
-/

namespace Lib.Shell

open Lib.Run Lib.Text

abbrev Word := List UInt8

/-- The bytes of a literal of ASCII characters. -/
def ascii (s : String) : Word := s.toList.map fun c => UInt8.ofNat c.toNat

abbrev newline : UInt8 := 0x0A
abbrev space : UInt8 := 0x20
abbrev tab : UInt8 := 0x09
abbrev quoteMark : UInt8 := 0x27
abbrev backslash : UInt8 := 0x5C
abbrev equals : UInt8 := 0x3D

/-- `export`. -/
def exportWord : Word := [0x65, 0x78, 0x70, 0x6F, 0x72, 0x74]

def isNameStart (b : UInt8) : Bool := (0x41 ≤ b && b ≤ 0x5A) || (0x61 ≤ b && b ≤ 0x7A) || b == 0x5F

def isNameByte (b : UInt8) : Bool := isNameStart b || (0x30 ≤ b && b ≤ 0x39)

/-- The name of a variable. -/
def isName : Word → Bool
  | [] => false
  | b :: bs => isNameStart b && bs.all isNameByte

/-- The bytes read here that stand for themselves outside quotes. -/
def isPlain (b : UInt8) : Bool := isNameByte b || b == equals

/-! ## Words -/

inductive Mode where
  | unquoted
  /-- Inside single quotes. -/
  | quoted
  /-- After a backslash. -/
  | escaped
  deriving DecidableEq

/-- The state of reading a script: the word being read, if any, the words
before it in the command, and the commands before that. -/
structure Lexer where
  mode : Mode
  word : Option Word
  words : List Word
  commands : List (List Word)

namespace Lexer

def start : Lexer := { mode := .unquoted, word := none, words := [], commands := [] }

/-- Outside quotes, in the middle of a word. -/
def reading (commands : List (List Word)) (words : List Word) (word : Word) : Lexer :=
  { mode := .unquoted, word := some word, words, commands }

/-- The commands read, the current one included when it has words. -/
def allCommands (l : Lexer) : List (List Word) :=
  if l.words ++ l.word.toList = [] then l.commands else l.commands ++ [l.words ++ l.word.toList]

/-- One more byte of the word. -/
def push (l : Lexer) (b : UInt8) : Lexer := { l with word := some (l.word.getD [] ++ [b]) }

/-- One byte of the script. -/
def step (l : Lexer) (b : UInt8) : Option Lexer :=
  match l.mode with
  | .quoted => some (if b = quoteMark then { l with mode := .unquoted } else l.push b)
  -- A backslash before a newline joins the lines.
  | .escaped => some { (if b = newline then l else l.push b) with mode := .unquoted }
  | .unquoted =>
    if b = newline then some { start with commands := l.allCommands }
    else if b = space ∨ b = tab then some { l with word := none, words := l.words ++ l.word.toList }
    else if b = quoteMark then some { l with mode := .quoted, word := some (l.word.getD []) }
    else if b = backslash then some { l with mode := .escaped }
    else if isPlain b then some (l.push b)
    else none

end Lexer

/-- The commands of a script, as lists of words. -/
def lex (script : List UInt8) : Option (List (List Word)) :=
  (run Lexer.step .start script).bind fun l =>
    if l.mode = .unquoted then some l.allCommands else none

/-- What `$(…)` makes of an output: no NUL, and no newline at the end. -/
def commandSubstitution (out : List UInt8) : List UInt8 :=
  (out.filter (· ≠ 0)).rdropWhile (· = newline)

/-- An output that ends in one newline loses it. -/
theorem commandSubstitution_concat {x : List UInt8} (h0 : (0 : UInt8) ∉ x)
    (hx : ∀ h : x ≠ [], x.getLast h ≠ newline) : commandSubstitution (x ++ [newline]) = x := by
  have hfilter : (x ++ [newline]).filter (· ≠ 0) = x ++ [newline] := by
    apply List.filter_eq_self.mpr
    intro b hb
    apply decide_eq_true
    intro e
    rcases List.mem_append.mp (e ▸ hb) with hb | hb
    · exact h0 hb
    · exact absurd hb (by decide)
  unfold commandSubstitution
  rw [hfilter, List.rdropWhile_concat_pos _ _ _ (by decide),
    List.rdropWhile_eq_self_iff]
  exact fun h => by simpa using hx h

/-- Lines lose the newline of the last one. -/
theorem commandSubstitution_lines {α : Type*} {line : α → Word} {init : List α} {last : α}
    (h0 : ∀ p ∈ init ++ [last], (0 : UInt8) ∉ line p) (hne : line last ≠ [])
    (hlast : (line last).getLast hne ≠ newline) :
    commandSubstitution ((init ++ [last]).flatMap fun p => line p ++ [newline]) =
      (init.flatMap fun p => line p ++ [newline]) ++ line last := by
  rw [List.flatMap_append, List.flatMap_singleton, ← List.append_assoc]
  apply commandSubstitution_concat
  · intro h
    rcases List.mem_append.mp h with h | h
    · obtain ⟨p, hp, h⟩ := List.mem_flatMap.mp h
      rcases List.mem_append.mp h with h | h
      · exact h0 p (List.mem_append_left _ hp) h
      · exact absurd h (by decide)
    · exact h0 last (List.mem_append_right _ (List.mem_singleton_self last)) h
  · intro h
    rwa [List.getLast_append_of_ne_nil h hne]

/-- The name and the value that `export name=value` sets. -/
def exportOf : List Word → Option (Word × Word)
  | [cmd, arg] =>
    if cmd = exportWord then (splitOnce equals arg).filter fun kv => isName kv.1 else none
  | _ => none

/-- The variables a script exports, in order, if it does nothing else. -/
def exports (script : List UInt8) : Option (List (Word × Word)) :=
  (lex script).bind fun commands => commands.mapM exportOf

/-! ## Quoting -/

/-- A byte inside single quotes; a quote is spliced in from outside them. -/
def quoteByte (b : UInt8) : List UInt8 :=
  if b = quoteMark then [quoteMark, backslash, quoteMark, quoteMark] else [b]

theorem flatMap_quoteByte : ∀ {v : Word}, quoteMark ∉ v → v.flatMap quoteByte = v
  | [], _ => rfl
  | b :: v, h => by
    obtain ⟨hb, hv⟩ := not_or.mp fun e => h (List.mem_cons.mpr e)
    rw [List.flatMap_cons, quoteByte, if_neg (Ne.symm hb), flatMap_quoteByte hv,
      List.singleton_append]

/-- A text in single quotes. -/
def quote (v : Word) : List UInt8 := quoteMark :: (v.flatMap quoteByte ++ [quoteMark])

section
variable {words : List Word} {commands : List (List Word)}

theorem run_quoted : ∀ v w : Word,
    run Lexer.step { mode := .quoted, word := some w, words, commands } (v.flatMap quoteByte) =
      some { mode := .quoted, word := some (w ++ v), words, commands }
  | [], w => by rw [List.append_nil]; rfl
  | b :: v, w => by
    have hb : run Lexer.step { mode := .quoted, word := some w, words, commands } (quoteByte b) =
        some { mode := .quoted, word := some (w ++ [b]), words, commands } := by
      unfold quoteByte
      split
      · rename_i h
        -- Out of the quotes, an escaped quote, and into them again.
        rw [h]
        rfl
      · rename_i h
        simp only [run, Lexer.step, if_neg h]
        rfl
    rw [List.flatMap_cons, run_append, hb, Option.bind_some, run_quoted v, List.append_assoc,
      List.singleton_append]

/-- A quoted text is read as it is. -/
theorem run_quote (v w : Word) :
    run Lexer.step (.reading commands words w) (quote v) =
      some (.reading commands words (w ++ v)) := by
  have hopen : run Lexer.step (.reading commands words w) [quoteMark] =
      some { mode := .quoted, word := some w, words, commands } := rfl
  unfold quote
  rw [← List.singleton_append, run_append, hopen, Option.bind_some, run_append, run_quoted]
  rfl

theorem step_plain {b : UInt8} (h : isPlain b) (word : Option Word) :
    Lexer.step { mode := .unquoted, word, words, commands } b =
      some (.reading commands words (word.getD [] ++ [b])) := by
  have ne : ∀ c, isPlain c = false → b ≠ c := fun c hc e => by rw [e, hc] at h; cases h
  simp only [Lexer.step]
  rw [if_neg (ne newline (by decide)),
    if_neg (not_or.mpr ⟨ne space (by decide), ne tab (by decide)⟩), if_neg (ne quoteMark (by decide)), if_neg (ne backslash (by decide)), if_pos h]
  rfl

/-- Plain bytes go on with a word, or begin one. -/
theorem run_plain : ∀ {s : Word} {word : Option Word}, s ≠ [] → (∀ b ∈ s, isPlain b) →
    run Lexer.step { mode := .unquoted, word, words, commands } s =
      some (.reading commands words (word.getD [] ++ s))
  | [b], word, _, h => by
    unfold run
    rw [step_plain (h b List.mem_cons_self), Option.bind_some]
    rfl
  | b :: c :: s, word, _, h => by
    unfold run
    rw [step_plain (h b List.mem_cons_self), Option.bind_some, Lexer.reading,
      run_plain (List.cons_ne_nil c s) fun d hd => h d (List.mem_cons_of_mem b hd),
      Option.getD_some, List.append_assoc, List.singleton_append]

end

/-! ## Scripts of exports -/

/-- `export name=value`, with the value quoted. -/
def exportLine (p : Word × Word) : List UInt8 :=
  exportWord ++ [space] ++ (p.1 ++ [equals]) ++ quote p.2

theorem forall_isNameByte {k : Word} (hk : isName k) : ∀ b ∈ k, isNameByte b := by
  cases k with
  | nil => cases hk
  | cons b bs =>
    obtain ⟨hb, hbs⟩ := Bool.and_eq_true_iff.mp hk
    exact List.forall_mem_cons.mpr
      ⟨by rw [isNameByte, hb, Bool.true_or], List.all_eq_true.mp hbs⟩

/-- A byte of no name is not in a name. -/
theorem notMem_of_isName {k : Word} {b : UInt8} (hk : isName k) (hb : isNameByte b = false) :
    b ∉ k := by
  intro h
  rw [forall_isNameByte hk b h] at hb
  simp at hb

/-- An `export` line is a command of two words. -/
theorem run_exportLine {p : Word × Word} (hk : isName p.1) (commands : List (List Word)) :
    run Lexer.step { Lexer.start with commands } (exportLine p) =
      some (.reading commands [exportWord] (p.1 ++ [equals] ++ p.2)) := by
  have hplain : ∀ b ∈ p.1 ++ [equals], isPlain b := by
    intro b hb
    rcases List.mem_append.mp hb with hb | hb
    · unfold isPlain
      rw [forall_isNameByte hk b hb, Bool.true_or]
    · rw [List.mem_singleton.mp hb]
      decide
  have hcmd : run Lexer.step { Lexer.start with commands } (exportWord ++ [space]) =
      some { mode := .unquoted, word := none, words := [exportWord], commands } := rfl
  unfold exportLine
  rw [run_append, run_append, hcmd, Option.bind_some,
    run_plain (List.append_ne_nil_of_right_ne_nil _ (List.cons_ne_nil _ _)) hplain,
    Option.bind_some, run_quote, Option.getD_none, List.nil_append]

theorem exportOf_command {p : Word × Word} (hk : isName p.1) :
    exportOf [exportWord, p.1 ++ [equals] ++ p.2] = some p := by
  have hn : equals ∉ p.1 := notMem_of_isName hk (by decide)
  rw [exportOf, if_pos rfl, List.append_assoc, List.singleton_append, splitOnce_append hn,
    Option.filter_some, if_pos hk]

/-- The command of an `export` line. -/
def exportCommand (p : Word × Word) : List Word := [exportWord, p.1 ++ [equals] ++ p.2]

/-- Terminated `export` lines are so many commands. -/
theorem run_exportLines : ∀ {pairs : List (Word × Word)} (commands : List (List Word)),
    (∀ p ∈ pairs, isName p.1) →
    run Lexer.step { Lexer.start with commands }
        (pairs.flatMap fun p => exportLine p ++ [newline]) =
      some { Lexer.start with commands := commands ++ pairs.map exportCommand }
  | [], commands, _ => by rw [List.map_nil, List.append_nil]; rfl
  | p :: ps, commands, h => by
    obtain ⟨hk, hps⟩ := List.forall_mem_cons.mp h
    have hend : run Lexer.step (.reading commands [exportWord] (p.1 ++ [equals] ++ p.2)) [newline] =
        some { Lexer.start with commands := commands ++ [exportCommand p] } := rfl
    rw [List.flatMap_cons, run_append, run_append, run_exportLine hk, Option.bind_some, hend,
      Option.bind_some, run_exportLines _ hps, List.map_cons, List.append_assoc,
      List.singleton_append]

theorem mapM_exportOf {pairs : List (Word × Word)} (hk : ∀ p ∈ pairs, isName p.1) :
    (pairs.map exportCommand).mapM exportOf = some pairs := by
  have h := mapM_map_eq_some (f := id) fun p hp => exportOf_command (hk p hp)
  rwa [List.map_id] at h

/-- A NUL of a line is one of its value. -/
theorem zero_notMem_exportLine {p : Word × Word} (hk : isName p.1) (hv : (0 : UInt8) ∉ p.2) :
    (0 : UInt8) ∉ exportLine p := by
  have hname : (0 : UInt8) ∉ p.1 := notMem_of_isName hk (by decide)
  have hquote : (0 : UInt8) ∉ p.2.flatMap quoteByte := by
    intro h
    obtain ⟨b, hb, h⟩ := List.mem_flatMap.mp h
    rw [quoteByte] at h
    split at h
    · exact absurd h (by decide)
    · rw [List.mem_singleton.mp h] at hv
      exact hv hb
  simp only [exportLine, quote, List.mem_append, List.mem_cons, hname, hquote, false_or]
  decide

/-- The exports of an output of `export` lines are their names and values. -/
theorem exports_script {pairs : List (Word × Word)} (hk : ∀ p ∈ pairs, isName p.1)
    (hv : ∀ p ∈ pairs, (0 : UInt8) ∉ p.2) :
    exports (commandSubstitution (pairs.flatMap fun p => exportLine p ++ [newline])) =
      some pairs := by
  rcases List.eq_nil_or_concat' pairs with rfl | ⟨init, last, rfl⟩
  · rfl
  obtain ⟨hinit, hlast⟩ := List.forall_mem_append.mp hk
  have hlast := List.forall_mem_singleton.mp hlast
  have hsub : commandSubstitution ((init ++ [last]).flatMap fun p => exportLine p ++ [newline]) =
      (init.flatMap fun p => exportLine p ++ [newline]) ++ exportLine last := by
    have hne : exportLine last ≠ [] := List.cons_ne_nil _ _
    -- The last line ends in a quote.
    refine commandSubstitution_lines (fun p hp => zero_notMem_exportLine (hk p hp) (hv p hp)) hne ?_
    simp only [exportLine, quote, ← List.append_assoc, ← List.cons_append, List.getLast_concat]
    decide
  have hrun : run Lexer.step .start (init.flatMap fun p => exportLine p ++ [newline]) =
      some { Lexer.start with commands := init.map exportCommand } := run_exportLines [] hinit
  have hlex : lex ((init.flatMap fun p => exportLine p ++ [newline]) ++ exportLine last) =
      some ((init ++ [last]).map exportCommand) := by
    unfold lex
    rw [run_append, hrun, Option.bind_some, run_exportLine hlast, Option.bind_some,
      List.map_append]
    rfl
  rw [hsub, exports, hlex, Option.bind_some, mapM_exportOf hk]

/-! ## NUL

`$(…)` drops the NULs of an output, and so those of the values in it. -/

end Lib.Shell
