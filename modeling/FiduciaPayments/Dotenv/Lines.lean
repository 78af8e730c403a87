import FiduciaPayments.Dotenv.Loaders

/-!
# Shell and envfile mode

Both modes print the parsed pairs in their order, one at a time, and their
consumers read back those pairs:

* `exports_shell`: the shell exports every value as it is, and runs nothing;
* `readEnvFile_envfile`: docker sets the same values, when each is one line.
-/

namespace Fiducia.Dotenv

open Lib.Python Lib.Shell Lib.Text

/-! ## Shell mode -/

/-- Quoting a character quotes its bytes. -/
theorem bytes_quote_char (c : CodePoint) :
    bytes (if c = singleQuote then lit "'\\''" else [c]) = (bytes [c]).flatMap quoteByte := by
  split
  · rename_i hc
    rw [hc]
    decide
  · rename_i hc
    apply Eq.symm
    apply flatMap_quoteByte
    intro h
    apply hc
    exact (List.mem_singleton.mp (mem_of_mem_bytes (d := '\'') (by decide) (by decide) h)).symm

theorem bytes_quote_chars : ∀ v : PyStr,
    bytes (v.flatMap fun c => if c = singleQuote then lit "'\\''" else [c]) =
      (bytes v).flatMap quoteByte
  | [] => rfl
  | c :: v => by
    rw [List.flatMap_cons, bytes_append, bytes_quote_char, bytes_quote_chars v, bytes_cons c v,
      List.flatMap_append]

/-- Quoting a text quotes its bytes. -/
theorem bytes_quote (v : PyStr) : bytes (quote v) = Lib.Shell.quote (bytes v) := by
  unfold quote
  rw [bytes_append, bytes_append, bytes_quote_chars, Lib.Shell.quote]
  rfl

/-- Quoting keeps the characters of a value. -/
theorem mem_quote {v : PyStr} {c : CodePoint} (hc : c ∈ v) : c ∈ quote v := by
  apply List.mem_append_left
  apply List.mem_append_right
  refine List.mem_flatMap.mpr ⟨c, hc, ?_⟩
  split
  · rename_i h
    rw [h]
    decide
  · exact List.mem_singleton_self c

theorem bytes_shellLine (p : Key × PyStr) :
    bytes (shellLine p) = exportLine (pairBytes p) ++ [Lib.Shell.newline] := by
  unfold shellLine
  rw [bytes_append, bytes_append, bytes_append, bytes_append, bytes_quote, exportLine,
    show bytes (lit "export ") = exportWord ++ [space] by decide,
    show bytes (lit "=") = [Lib.Shell.equals] by decide,
    show bytes (lit "\n") = [Lib.Shell.newline] by decide]
  simp only [pairBytes, Prod.map_apply', keyBytes, List.append_assoc]

theorem bytes_shellLines (pairs : List (Key × PyStr)) :
    bytes (pairs.flatMap shellLine) =
      (pairs.map pairBytes).flatMap fun p => exportLine p ++ [Lib.Shell.newline] := by
  rw [bytes_flatMap, List.flatMap_map]
  simp only [bytes_shellLine]

theorem forall_isName_pairBytes {pairs : List (Key × PyStr)} :
    ∀ p ∈ pairs.map pairBytes, isName p.1 :=
  List.forall_mem_map.mpr fun p _ => isName_keyBytes p.1

/-- The shell exports the pairs, and does nothing else. -/
theorem exports_shell {pairs : List (Key × PyStr)} (hz : ∀ p ∈ pairs, (0 : UInt8) ∉ bytes p.2) :
    exports (commandSubstitution (bytes (pairs.flatMap shellLine))) =
      some (pairs.map pairBytes) := by
  rw [bytes_shellLines]
  exact exports_script forall_isName_pairBytes (List.forall_mem_map.mpr hz)

/-- A line `K=V`. -/
def fileLine (p : Word × Word) : Word := p.1 ++ Lib.Shell.equals :: p.2

theorem bytes_envfileLine (p : Key × PyStr) :
    bytes (envfileLine p) = fileLine (pairBytes p) ++ [Lib.Shell.newline] := by
  unfold envfileLine
  rw [bytes_append, bytes_append, bytes_append,
    show bytes (lit "=") = [Lib.Shell.equals] by decide,
    show bytes (lit "\n") = [Lib.Shell.newline] by decide]
  simp only [pairBytes, Prod.map_apply', keyBytes, fileLine, List.append_assoc,
    List.singleton_append]

/-- A byte of a line that is in no name and is not the `=` is in the value. -/
theorem mem_of_mem_fileLine {p : Word × Word} (hk : isName p.1) {b : UInt8} (hb : b ∈ fileLine p)
    (hn : isPlain b = false) : b ∈ p.2 := by
  rw [isPlain, Bool.or_eq_false_iff, beq_eq_false_iff_ne] at hn
  rcases List.mem_append.mp hb with h | h
  · exact absurd h (notMem_of_isName hk hn.1)
  · exact List.mem_of_ne_of_mem hn.2 h

theorem readEnvFileLine_fileLine {p : Word × Word} (hk : isName p.1) (hr : returnByte ∉ p.2) :
    readEnvFileLine (fileLine p) = some [p] := by
  have hlast : (fileLine p).getLast? ≠ some returnByte := fun h =>
    hr (mem_of_mem_fileLine hk (List.mem_of_getLast? h) (by decide))
  have hne : fileLine p ≠ [] := List.append_ne_nil_of_right_ne_nil _ (List.cons_ne_nil _ _)
  have hhash : (fileLine p).head? ≠ some hash := by
    intro h
    obtain ⟨k, v⟩ := p
    cases k with
    | nil => cases hk
    | cons b bs =>
      cases h
      exact notMem_of_isName hk (by decide) List.mem_cons_self
  have hn : Lib.Shell.equals ∉ p.1 := notMem_of_isName hk (by decide)
  simp only [readEnvFileLine, if_neg hlast, hne, hhash, or_self, if_false]
  unfold fileLine
  rw [splitOnce_append hn, Option.map_some]

theorem mapM_readEnvFileLine {pairs : List (Word × Word)} (hk : ∀ p ∈ pairs, isName p.1)
    (hr : ∀ p ∈ pairs, returnByte ∉ p.2) :
    (pairs.map fileLine ++ [[]]).mapM readEnvFileLine =
      some (pairs.map (fun p => [p]) ++ [[]]) := by
  rw [List.mapM_append, mapM_map_eq_some fun p hp => readEnvFileLine_fileLine (hk p hp) (hr p hp)]
  rfl

/-- Docker reads back lines whose values are one line each. -/
theorem readEnvFile_lines {pairs : List (Word × Word)} (hk : ∀ p ∈ pairs, isName p.1)
    (hz : ∀ p ∈ pairs, (0 : UInt8) ∉ p.2) (hn : ∀ p ∈ pairs, Lib.Shell.newline ∉ p.2)
    (hr : ∀ p ∈ pairs, returnByte ∉ p.2) :
    readEnvFile (commandSubstitution (pairs.flatMap fun p => fileLine p ++ [Lib.Shell.newline]) ++
      [Lib.Shell.newline]) = some pairs := by
  have plain : ∀ {b : UInt8}, isPlain b = false → (∀ p ∈ pairs, b ∉ p.2) →
      ∀ p ∈ pairs, b ∉ fileLine p := fun hb h p hp hm =>
    h p hp (mem_of_mem_fileLine (hk p hp) hm hb)
  have hz := plain (by decide) hz
  have hn := plain (by decide) hn
  rcases List.eq_nil_or_concat' pairs with rfl | ⟨init, last, rfl⟩
  · decide
  have hne : fileLine last ≠ [] := List.append_ne_nil_of_right_ne_nil _ (List.cons_ne_nil _ _)
  have hend : (fileLine last).getLast hne ≠ Lib.Shell.newline := fun h =>
    hn last (by simp) (h ▸ List.getLast_mem hne)
  have hfile : commandSubstitution
        ((init ++ [last]).flatMap fun p => fileLine p ++ [Lib.Shell.newline]) ++
        [Lib.Shell.newline] =
      ((init ++ [last]).map fileLine).flatMap fun l => l ++ [Lib.Shell.newline] := by
    rw [commandSubstitution_lines hz hne hend, List.flatMap_map, List.flatMap_append,
      List.flatMap_singleton, List.append_assoc]
  have hflat : ∀ l : List (Word × Word), (l.map fun p => [p]).flatten = l := by
    intro l
    rw [← List.flatMap_def, List.flatMap_singleton']
  rw [hfile, readEnvFile, splitOn_terminated (List.forall_mem_map.mpr hn),
    mapM_readEnvFileLine hk hr, Option.map_some, List.flatten_concat, List.append_nil, hflat]

theorem bytes_envfileLines (pairs : List (Key × PyStr)) :
    bytes (pairs.flatMap envfileLine) =
      (pairs.map pairBytes).flatMap fun p => fileLine p ++ [Lib.Shell.newline] := by
  rw [bytes_flatMap, List.flatMap_map]
  simp only [bytes_envfileLine]

theorem isBad_eq_false_iff {v : PyStr} :
    isBad v = false ↔ Lib.Python.newline ∉ v ∧ carriageReturn ∉ v := by
  rw [isBad, Bool.or_eq_false_iff, decide_eq_false_iff_not, decide_eq_false_iff_not]

/-- A value that envfile mode takes is one line of bytes. -/
theorem line_of_not_isBad {v : PyStr} (h : isBad v = false) :
    Lib.Shell.newline ∉ bytes v ∧ returnByte ∉ bytes v := by
  obtain ⟨hn, hr⟩ := isBad_eq_false_iff.mp h
  exact ⟨fun hm => hn (mem_of_mem_bytes (d := '\n') (by decide) (by decide) hm),
    fun hm => hr (mem_of_mem_bytes (d := '\r') (by decide) (by decide) hm)⟩

/-- Envfile mode prints the pairs when it takes all of their values. -/
theorem render_envfile_eq_some_iff {name text : PyStr} {pairs : List (Key × PyStr)} :
    render .envfile name pairs = some text ↔
      (∀ p ∈ pairs, isBad p.2 = false) ∧ pairs.flatMap envfileLine = text := by
  have hbad : (¬ pairs.any (fun p => isBad p.2) = true) ↔ ∀ p ∈ pairs, isBad p.2 = false := by
    rw [Bool.not_eq_true, List.any_eq_false]
    simp only [Bool.not_eq_true]
  rw [render, Option.ite_none_left_eq_some, Option.some.injEq, hbad]

/-- Docker sets the pairs, in their order. -/
theorem readEnvFile_envfile {pairs : List (Key × PyStr)}
    (hz : ∀ p ∈ pairs, (0 : UInt8) ∉ bytes p.2) (hbad : ∀ p ∈ pairs, isBad p.2 = false) :
    readEnvFile (commandSubstitution (bytes (pairs.flatMap envfileLine)) ++ [Lib.Shell.newline]) =
      some (pairs.map pairBytes) := by
  rw [bytes_envfileLines]
  exact readEnvFile_lines forall_isName_pairBytes (List.forall_mem_map.mpr hz)
    (List.forall_mem_map.mpr fun p hp => (line_of_not_isBad (hbad p hp)).1)
    (List.forall_mem_map.mpr fun p hp => (line_of_not_isBad (hbad p hp)).2)

end Fiducia.Dotenv
