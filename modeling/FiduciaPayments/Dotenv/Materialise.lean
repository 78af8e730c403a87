import FiduciaPayments.Dotenv.Agreement
import FiduciaPayments.Dotenv.Quoted

/-!
# Env-files read back

`env-docker-env-file` writes the lines of envfile mode to `env/dec/<name>.env`,
and `env-encrypt` folds that file back as the dotenv stream of the environment.
Envfile mode prints a value as it is and `parse` takes quotes off, so a value is
read back as it was exactly when it is in no quotes of its own, and no bytes that
a stream escaped spell a character in it (`parseValue_reread_iff`). The stream is
read back, and leaves every loader its environment, exactly when that holds of
all of its values (`materialise_keeps_iff`).
-/

namespace Fiducia.Dotenv

open Lib.Python Lib.Text
open Lib.Shell (Word)

section
variable {names : List UInt8 → Option CodePoint}

/-! ## Values -/

theorem eq_of_isQuoted {mark : CodePoint} {v : PyStr} (h : isQuoted mark v = true) :
    v = mark :: (inner v ++ [mark]) := by
  simp only [isQuoted, Bool.and_eq_true, decide_eq_true_eq, beq_iff_eq] at h
  obtain ⟨⟨hlen, hhead⟩, hlast⟩ := h
  have hne : v ≠ [] := List.ne_nil_of_length_pos (by omega)
  obtain ⟨c, t, rfl⟩ := List.exists_cons_of_ne_nil hne
  have ht : t ≠ [] := fun e => by
    rw [e] at hlen
    simp at hlen
  rw [List.head?_cons, Option.some.injEq] at hhead
  have hend : t.getLast ht = mark := by
    rw [List.getLast?_eq_some_getLast (List.cons_ne_nil c t), List.getLast_cons ht,
      Option.some.injEq] at hlast
    exact hlast
  rw [inner, List.tail_cons, hhead, ← hend, List.dropLast_append_getLast]

/-- A value that is not in quotes is its own reading. -/
theorem parseValue_eq_self {v : PyStr} (hd : isQuoted doubleQuote v = false)
    (hs : isQuoted singleQuote v = false) : parseValue names v = some v := by
  rw [parseValue, hd, hs, if_neg Bool.false_ne_true, if_neg Bool.false_ne_true]

/-- The quotes of a text are two of its ASCII characters. -/
theorem asciiCount_of_isQuoted {mark : CodePoint} {v : PyStr} (hmark : mark.val < 0x80)
    (h : isQuoted mark v = true) : asciiCount v = asciiCount (inner v) + 2 := by
  conv_lhs => rw [eq_of_isQuoted h]
  rw [← List.singleton_append, asciiCount_append, asciiCount_append, asciiCount_singleton,
    if_pos hmark]
  omega

/-- A reading that takes quotes off has less ASCII characters. -/
theorem asciiCount_parseValue_lt {v w : PyStr} (h : parseValue names v = some w)
    (hq : isQuoted doubleQuote v = true ∨ isQuoted singleQuote v = true) :
    asciiCount w < asciiCount v := by
  unfold parseValue at h
  split at h
  · rename_i hd
    -- The codec has no more ASCII characters than there are in the quotes.
    obtain ⟨bs, hbs, hdecode⟩ := Option.bind_eq_some_iff.mp h
    obtain ⟨hs, rfl⟩ := encode_eq_some_iff.mp hbs
    have h₁ := asciiCount_decode_le hs hdecode
    have h₂ := asciiCount_unescape_le (inner v)
    have h₃ := asciiCount_of_isQuoted (by decide) hd
    omega
  · rename_i hd
    have hs := hq.resolve_left hd
    rw [if_pos hs] at h
    have h₃ := asciiCount_of_isQuoted (by decide) hs
    rw [Option.some.inj h] at h₃
    omega

/-- A value that is printed is read back as it was exactly when it is in no quotes
and no escaped bytes of it spell a character. -/
theorem parseValue_reread_iff {v : PyStr} (hv : ∀ c ∈ v, isPrinted c) :
    parseValue names (readAll (bytes v)) = some v ↔
      isQuoted doubleQuote v = false ∧ isQuoted singleQuote v = false ∧ ¬ Spells v := by
  rw [← readAll_bytes_eq_self_iff hv]
  refine ⟨fun h => ?_, fun ⟨hd, hs, hback⟩ => hback.symm ▸ parseValue_eq_self hd hs⟩
  have hcount := asciiCount_readAll_bytes hv
  have hquoted : ∀ mark, (mark = doubleQuote ∨ mark = singleQuote) →
      isQuoted mark (readAll (bytes v)) = false := by
    intro mark hmark
    by_contra hq
    rw [Bool.not_eq_false] at hq
    have hlt := asciiCount_parseValue_lt h (hmark.imp (fun e : mark = doubleQuote => e ▸ hq)
      fun e : mark = singleQuote => e ▸ hq)
    omega
  have hd := hquoted _ (.inl rfl)
  have hs := hquoted _ (.inr rfl)
  have hback := Option.some.inj ((parseValue_eq_self hd hs).symm.trans h)
  rw [hback] at hd hs
  exact ⟨hd, hs, hback⟩

/-! ## Lines -/

theorem not_sops_of_parseLine {line : PyStr} {p : Key × PyStr}
    (h : parseLine names line = some (some p)) : (lit "sops_").isPrefixOf p.1.val = false := by
  simp only [parseLine] at h
  generalize (if (lit "export ").isPrefixOf (rstripNewline line) then
    (rstripNewline line).drop 7 else rstripNewline line) = line' at h
  split at h
  · simp at h
  cases hm : matchLine line' with
  | none => simp [hm] at h
  | some kv =>
    simp only [hm] at h
    split at h
    · simp at h
    · rename_i hk
      obtain ⟨v, -, e⟩ := Option.map_eq_some_iff.mp h
      rw [← Option.some.inj e]
      exact Bool.eq_false_iff.mpr hk

/-- No pair is a row of sops' own. -/
theorem not_sops_of_parse : ∀ {ls : List PyStr} {pairs : List (Key × PyStr)},
    parse names ls = some pairs → ∀ p ∈ pairs, (lit "sops_").isPrefixOf p.1.val = false
  | [], pairs, h => by
    rw [← Option.some.inj h]
    exact nofun
  | line :: ls, pairs, h => by
    obtain ⟨pair, hl, h⟩ := Option.bind_eq_some_iff.mp h
    obtain ⟨out, ho, e⟩ := Option.bind_eq_some_iff.mp h
    rw [← Option.some.inj e]
    refine List.forall_mem_append.mpr ⟨fun p hp => ?_, not_sops_of_parse ho⟩
    rw [Option.mem_toList] at hp
    rw [hp] at hl
    exact not_sops_of_parseLine hl

theorem envfileLine_eq (p : Key × PyStr) :
    envfileLine p = (p.1.val ++ equals :: p.2) ++ [newline] := by
  show p.1.val ++ [equals] ++ p.2 ++ [newline] = _
  rw [List.append_assoc p.1.val, List.singleton_append]

theorem newline_notMem_assignment {p : Key × PyStr} (hn : newline ∉ p.2) :
    newline ∉ p.1.val ++ equals :: p.2 := by
  intro h
  rcases List.mem_append.mp h with h | h
  · exact notMem_key (by decide) h
  · exact hn (List.mem_of_ne_of_mem (by decide) h)

theorem rstripNewline_envfileLine {p : Key × PyStr} (hn : newline ∉ p.2) :
    rstripNewline (envfileLine p) = p.1.val ++ equals :: p.2 := by
  rw [envfileLine_eq, rstripNewline, List.rdropWhile_concat_pos _ _ _ (by decide),
    List.rdropWhile_eq_self_iff]
  intro h e
  apply newline_notMem_assignment hn
  rw [← of_decide_eq_true e]
  exact List.getLast_mem h

/-- The lines printed are the lines read. -/
theorem lines_envfile {pairs : List (Key × PyStr)} (hn : ∀ p ∈ pairs, newline ∉ p.2) :
    lines (pairs.flatMap envfileLine) = pairs.map envfileLine := by
  have hparts : (pairs.flatMap envfileLine).splitOn newline =
      pairs.map (fun p => p.1.val ++ equals :: p.2) ++ [[]] := by
    rw [← splitOn_terminated (List.forall_mem_map.mpr fun p hp =>
      newline_notMem_assignment (hn p hp)), List.flatMap_map, funext envfileLine_eq]
  simp only [lines, hparts, List.dropLast_concat, List.getLast?_concat, List.map_map,
    Function.comp_def, ← envfileLine_eq]
  exact List.append_nil _

/-- The lines printed of pairs are read back as them when every value, as it was
read again, is read as it was. -/
theorem parse_envfile_iff (reread : PyStr → PyStr) : ∀ {pairs : List (Key × PyStr)},
    (∀ p ∈ pairs, (lit "sops_").isPrefixOf p.1.val = false) →
    (∀ p ∈ pairs, newline ∉ reread p.2) →
    (parse names (pairs.map fun p => envfileLine (p.1, reread p.2)) = some pairs ↔
      ∀ p ∈ pairs, parseValue names (reread p.2) = some p.2)
  | [], _, _ => iff_of_true rfl nofun
  | p :: pairs, hk, hn => by
    obtain ⟨hk, hks⟩ := List.forall_mem_cons.mp hk
    obtain ⟨hn, hns⟩ := List.forall_mem_cons.mp hn
    have ih := parse_envfile_iff reread hks hns
    have hline : parseLine names (envfileLine (p.1, reread p.2)) =
        (parseValue names (reread p.2)).map fun v => some (p.1, v) :=
      parseLine_assignment hk hn (rstripNewline_envfileLine (p := (p.1, reread p.2)) hn)
    rw [List.map_cons, List.forall_mem_cons, ← ih, parse, hline]
    cases parseValue names (reread p.2) with
    | none => simp
    | some v =>
      cases parse names (pairs.map fun p => envfileLine (p.1, reread p.2)) with
      | none => simp
      | some out => simp [Prod.ext_iff]

end

/-- The printed lines, read again. -/
theorem readAll_envfile : ∀ {pairs : List (Key × PyStr)},
    readAll (bytes (pairs.flatMap envfileLine)) =
      (pairs.map fun p => (p.1, readAll (bytes p.2))).flatMap envfileLine
  | [] => rfl
  | p :: pairs => by
    have hkey : ∀ c ∈ p.1.val ++ lit "=", isScalar c := fun c hc => by
      rcases List.mem_append.mp hc with hc | hc
      · exact isScalar_of_ascii (lt_of_isKeyChar (isKeyChar_of_mem c hc))
      · exact isScalar_of_mem_lit hc
    have hend : ∀ c ∈ lit "\n", isScalar c := fun c hc => isScalar_of_mem_lit hc
    have hfirst : ∀ b ∈ (bytes (lit "\n" ++ pairs.flatMap envfileLine)).head?,
        ¬ Lib.Utf8.IsContinuation b := by
      intro b hb
      rw [bytes_append, show bytes (lit "\n") = [0x0A] by decide] at hb
      cases hb
      unfold Lib.Utf8.IsContinuation
      decide
    rw [List.flatMap_cons, List.map_cons, List.flatMap_cons, envfileLine, List.append_assoc,
      List.append_assoc, bytes_append, readAll_bytes_append hkey, bytes_append,
      readAll_append hfirst (Nat.le_refl _), bytes_append, readAll_bytes_append hend,
      readAll_envfile, envfileLine]
    simp only [List.append_assoc]

/-- The lines printed are read as lines of the values read again. -/
theorem lines_readAll_envfile {pairs : List (Key × PyStr)} (hn : ∀ p ∈ pairs, newline ∉ p.2) :
    (∀ p ∈ pairs, newline ∉ readAll (bytes p.2)) ∧
      lines (readAll (bytes (pairs.flatMap envfileLine))) =
        pairs.map fun p => envfileLine (p.1, readAll (bytes p.2)) := by
  have hn' : ∀ p ∈ pairs, newline ∉ readAll (bytes p.2) := fun p hp h =>
    hn p hp (mem_of_mem_readAll_bytes (d := '\n') (by decide) (by decide) h)
  refine ⟨hn', ?_⟩
  rw [readAll_envfile, lines_envfile (List.forall_mem_map.mpr hn'), List.map_map]
  rfl

/-! ## The environment after `env-encrypt` -/

/-- What a loader makes of a decrypted stream. -/
def load (errors : Errors) (names : List UInt8 → Option CodePoint) (mode : Mode) (name : PyStr)
    (stream : List UInt8) : Option (Word → Option Word) :=
  ((errors.decode stream).bind (mainWith names errors mode name)).bind
    (match mode with
      | .shell => envRun
      | .envfile => envDockerRun
      | .k8s => envK8sSecret)

theorem load_congr {errors : Errors} {names : List UInt8 → Option CodePoint}
    {stream stream' : List UInt8} {stdin stdin' : PyStr} (hs : errors.decode stream = some stdin)
    (hs' : errors.decode stream' = some stdin')
    (h : parse names (lines stdin) = parse names (lines stdin')) (mode : Mode) (name : PyStr) :
    load errors names mode name stream = load errors names mode name stream' := by
  simp only [load, mainWith, hs, hs', Option.bind_some, h]

/-- Whatever the error handler of the streams: `env-docker-env-file` writes a file
that is read back as the stream was, and whose encryption leaves every loader its
environment, exactly when no value of the stream is in quotes or has escaped bytes
that spell a character. A file of lines `K=V` is what sops decrypts after it
encrypted it. -/
theorem materialise_keeps_iff {errors : Errors} {names : List UInt8 → Option CodePoint}
    {name stdin : PyStr} {pairs : List (Key × PyStr)} {stream out : List UInt8}
    (sops : List UInt8 → List UInt8)
    (hsops : ∀ ps : List (Key × PyStr), (∀ p ∈ ps, (lit "sops_").isPrefixOf p.1.val = false ∧
      isBad p.2 = false ∧ ∀ c ∈ p.2, isPrinted c) →
        sops (bytes (ps.flatMap envfileLine)) = bytes (ps.flatMap envfileLine))
    (hstdin : errors.decode stream = some stdin) (hp : parse names (lines stdin) = some pairs)
    (hmain : mainWith names errors .envfile name stdin = some out) :
    ((∃ file, errors.decode out = some file ∧ parse names (lines file) = some pairs) ∧
      ∀ mode name, load errors names mode name (sops out) = load errors names mode name stream) ↔
    ∀ p ∈ pairs, isQuoted doubleQuote p.2 = false ∧ isQuoted singleQuote p.2 = false ∧
      ¬ Spells p.2 := by
  unfold mainWith at hmain
  rw [hp, Option.bind_some] at hmain
  obtain ⟨text, ht, hencode⟩ := Option.bind_eq_some_iff.mp hmain
  obtain ⟨hbad, rfl⟩ := render_envfile_eq_some_iff.mp ht
  have hfile := decode_of_encode hencode
  obtain ⟨rfl, hprinted⟩ := bytes_of_encode hencode
  have hvalue : ∀ p ∈ pairs, ∀ c ∈ p.2, isPrinted c := fun p hp c hc =>
    hprinted c (List.mem_flatMap.mpr
      ⟨p, hp, List.mem_append_left _ (List.mem_append_right _ hc)⟩)
  have hk := not_sops_of_parse hp
  have hsops := hsops pairs fun p hp => ⟨hk p hp, hbad p hp, hvalue p hp⟩
  obtain ⟨hn, hlines⟩ := lines_readAll_envfile fun p hp => (isBad_eq_false_iff.mp (hbad p hp)).1
  have hiff : parse names (lines (readAll (bytes (pairs.flatMap envfileLine)))) = some pairs ↔
      ∀ p ∈ pairs, isQuoted doubleQuote p.2 = false ∧ isQuoted singleQuote p.2 = false ∧
        ¬ Spells p.2 := by
    rw [hlines, parse_envfile_iff (fun v => readAll (bytes v)) hk hn]
    exact forall₂_congr fun p hp => parseValue_reread_iff (hvalue p hp)
  rw [hsops, ← hiff]
  constructor
  · rintro ⟨⟨file, hdecode, h⟩, -⟩
    obtain rfl := Option.some.inj (hfile.symm.trans hdecode)
    exact h
  · exact fun h => ⟨⟨_, hfile, h⟩, load_congr hfile hstdin (h.trans hp.symm)⟩

/-- Two escaped bytes are printed as those of `é`. -/
example : mainWith noNames .surrogateescape .envfile [] (lit "K=\"\\uDCC3\\uDCA9\"\n") =
    some [0x4B, 0x3D, 0xC3, 0xA9, 0x0A] := by decide +kernel

/-- The file written for `'"a"'` is read back as `a`. -/
theorem materialise_strips_quotes :
    parse noNames (lines (lit "K='\"a\"'\n")) = some [(keyK, lit "\"a\"")] ∧
      main noNames .envfile (lit "app-env") (lit "K='\"a\"'\n") = encode (lit "K=\"a\"\n") ∧
      parse noNames (lines (lit "K=\"a\"\n")) = some [(keyK, lit "a")] ∧
      (load .strict noNames .shell (lit "app-env") (bytes (lit "K='\"a\"'\n"))).map
        (· (keyBytes keyK)) = some (some (bytes (lit "\"a\""))) ∧
      (load .strict noNames .shell (lit "app-env") (bytes (lit "K=\"a\"\n"))).map
        (· (keyBytes keyK)) = some (some (bytes (lit "a"))) := by
  decide +kernel

theorem materialise_keeps_K :
    (∃ file, Errors.strict.decode (bytes (lit "K=a b\n")) = some file ∧
      parse noNames (lines file) = some [(keyK, lit "a b")]) ∧
      ∀ mode name, load .strict noNames mode name (bytes (lit "K=a b\n")) =
        load .strict noNames mode name (bytes (lit "K='a b'\n")) := by
  refine (materialise_keeps_iff id (fun _ _ => rfl)
    (by decide +kernel : Errors.strict.decode (bytes (lit "K='a b'\n")) = some (lit "K='a b'\n"))
    (by decide : parse noNames (lines (lit "K='a b'\n")) = some [(keyK, lit "a b")])
    (by decide : mainWith noNames .strict .envfile (lit "app-env") (lit "K='a b'\n") =
      some (bytes (lit "K=a b\n")))).mpr ?_
  exact List.forall_mem_singleton.mpr
    ⟨by decide, by decide, not_spells_of_isScalar fun c hc => isScalar_of_mem_lit hc⟩

end Fiducia.Dotenv
