import FiduciaPayments.Dotenv.Decoding
import FiduciaPayments.Dotenv.Loaders

/-!
# Double-quoted values

`parse` on a line `K=V` is `parseValue` on `V` (`parseLine_assignment`), which
for a value in double quotes is the codec on what is between them. So such a
value decodes by the documented rule exactly when it is ASCII and its escapes
are documented ones, and a value that was escaped and put in quotes is read
back exactly when it is ASCII (`quoted_follows_rule_iff`).
-/

namespace Fiducia.Dotenv

open Lib.Python Lib.Text

/-! ## A line `K=V` -/

section
variable {names : List UInt8 → Option CodePoint} {k : Key} {v line : PyStr}

theorem notMem_key {c : CodePoint} (h : isKeyChar c = false) : c ∉ k.val := fun hm => by
  rw [isKeyChar_of_mem c hm] at h
  simp at h

/-- A key starts the line, and is no space and no `#`. -/
theorem exists_key_cons (k : Key) : ∃ c s, k.val = c :: s ∧ isSpace c = false ∧ c ≠ 0x23 := by
  obtain ⟨k, hk⟩ := k
  cases k with
  | nil => simp [isKey] at hk
  | cons c s =>
    have hc : isKeyStart c := (Bool.and_eq_true_iff.mp hk).1
    simp only [isKeyStart, Bool.or_eq_true, Bool.and_eq_true, decide_eq_true_eq, beq_iff_eq] at hc
    refine ⟨c, s, rfl, ?_, fun e => ?_⟩
    · rw [← Bool.not_eq_true]
      simp only [isSpace, Bool.or_eq_true, Bool.and_eq_true, decide_eq_true_eq, beq_iff_eq]
      omega
    · rw [e] at hc
      exact absurd hc (by decide)

/-- An assignment is no line that begins with `export `. -/
theorem not_export : (lit "export ").isPrefixOf (k.val ++ equals :: v) = false := by
  rw [← Bool.not_eq_true, List.isPrefixOf_iff_prefix]
  intro ⟨t, ht⟩
  have hspace : (0x20 : CodePoint) ∉ k.val := notMem_key (by decide)
  rcases List.append_eq_append_iff.mp ht with ⟨a, hk, -⟩ | ⟨a, he, ha⟩
  · exact hspace (hk ▸ List.mem_append_left a (by decide))
  · cases a with
    | nil => exact hspace (by rw [List.append_nil] at he; rw [← he]; decide)
    | cons c a =>
      have hc : equals = c := (List.cons.inj ha).1
      have hm : equals ∈ lit "export " := by
        rw [he, hc]
        simp
      exact absurd hm (by decide)

theorem matchLine_assignment (hv : newline ∉ v) : matchLine (k.val ++ equals :: v) = some (k, v) := by
  unfold matchLine
  rw [splitOnce_append (notMem_key (by decide))]
  simp only [k.property, dif_pos, if_neg hv]

/-- A line `K=V` has the value of `V`. -/
theorem parseLine_assignment (hk : (lit "sops_").isPrefixOf k.val = false) (hv : newline ∉ v)
    (hline : rstripNewline line = k.val ++ equals :: v) :
    parseLine names line = (parseValue names v).map fun v => some (k, v) := by
  obtain ⟨c, s, hcons, hspace, hhash⟩ := exists_key_cons k
  have hstrip : strip (k.val ++ equals :: v) ≠ [] := by
    rw [strip, ne_eq, trimBy_eq_nil_iff]
    intro h
    have := h c (by rw [hcons]; simp)
    rw [hspace] at this
    simp at this
  have hcomment : ¬ (lit "#").isPrefixOf (lstrip (k.val ++ equals :: v)) = true := by
    rw [lstrip, hcons, List.cons_append, List.dropWhile_cons_of_neg (by simp [hspace]),
      List.isPrefixOf_iff_prefix]
    exact fun h => hhash (List.cons_prefix_cons.mp h).1.symm
  unfold parseLine
  simp only [hline, hstrip, hcomment, or_self, if_false, not_export, matchLine_assignment hv, hk,
    Bool.false_eq_true]

theorem parse_singleton (line : PyStr) :
    parse names [line] = (parseLine names line).map Option.toList := by
  unfold parse parse
  cases parseLine names line with
  | none => rfl
  | some pair => exact congrArg some (List.append_nil _)

/-! ## Quotes -/

/-- `"s"` -/
def quoted (s : PyStr) : PyStr := doubleQuote :: (s ++ [doubleQuote])

theorem parseValue_quoted (s : PyStr) :
    parseValue names (quoted s) = (encode s).bind (Lib.UnicodeEscape.decode names) := by
  have hlast : (quoted s).getLast? = some doubleQuote := by
    rw [quoted, ← List.cons_append]
    exact List.getLast?_concat
  have hq : isQuoted doubleQuote (quoted s) = true := by
    unfold isQuoted
    rw [hlast]
    simp [quoted]
  have hi : inner (quoted s) = s := by
    simp [inner, quoted]
  unfold parseValue
  rw [if_pos hq, hi]

theorem newline_notMem_quoted {s : PyStr} (h : newline ∉ s) : newline ∉ quoted s := by
  unfold quoted
  simp only [List.mem_cons, List.mem_append, h, List.not_mem_nil, or_false]
  decide

theorem parse_quoted_iff {s : PyStr} (hk : (lit "sops_").isPrefixOf k.val = false)
    (hs : newline ∉ s) (hline : rstripNewline line = k.val ++ equals :: quoted s) :
    parse names [line] = some [(k, unescape s)] ↔ IsAscii s ∧ onlyDocumented false s = true := by
  have hrule : (encode s).bind (Lib.UnicodeEscape.decode names) = some (unescape s) ↔
      IsAscii s ∧ onlyDocumented false s = true := decode_eq_unescape_iff
  rw [← hrule, parse_singleton,
    parseLine_assignment hk (newline_notMem_quoted hs) hline, parseValue_quoted]
  cases (encode s).bind (Lib.UnicodeEscape.decode names) with
  | none => simp
  | some v => simp

/-! ## Escaping -/

/-- The escape of a character. -/
def escapeChar (c : CodePoint) : PyStr :=
  if c = backslash then lit "\\\\"
  else if c = newline then lit "\\n"
  else if c = 0x09 then lit "\\t"
  else if c = carriageReturn then lit "\\r"
  else [c]

/-- Backslash, newline, tab and carriage return escaped. -/
def escape (v : PyStr) : PyStr := v.flatMap escapeChar

theorem foldl_escapeChar (out : PyStr) (c : CodePoint) :
    (escapeChar c).foldl Reader.step { out, escaped := false } =
      { out := out ++ [c], escaped := false } := by
  unfold escapeChar
  split
  · rename_i hc
    rw [hc]
    rfl
  split
  · rename_i hc
    rw [hc]
    rfl
  split
  · rename_i hc
    rw [hc]
    rfl
  split
  · rename_i hc
    rw [hc]
    rfl
  · rename_i hc _ _ _
    show [c].foldl Reader.step { out, escaped := false } = _
    rw [List.foldl_cons, Reader.step_plain rfl hc]
    rfl

theorem foldl_escape : ∀ (v out : PyStr),
    (escape v).foldl Reader.step { out, escaped := false } = { out := out ++ v, escaped := false }
  | [], out => by rw [List.append_nil]; rfl
  | c :: v, out => by
    rw [escape, List.flatMap_cons, List.foldl_append, foldl_escapeChar, ← escape, foldl_escape,
      List.append_assoc, List.singleton_append]

theorem unescape_escape (v : PyStr) : unescape (escape v) = v := by
  unfold unescape
  rw [Reader.start, foldl_escape]
  rfl

theorem onlyDocumented_escape : ∀ v : PyStr, onlyDocumented false (escape v) = true
  | [] => rfl
  | c :: v => by
    have ih := onlyDocumented_escape v
    rw [escape, List.flatMap_cons, ← escape]
    unfold escapeChar
    split
    · exact ih
    split
    · exact ih
    split
    · exact ih
    split
    · exact ih
    · rename_i hc _ _ _
      simpa [onlyDocumented, hc] using ih

theorem newline_notMem_escape (v : PyStr) : newline ∉ escape v := by
  intro h
  obtain ⟨c, -, hc⟩ := List.mem_flatMap.mp h
  unfold escapeChar at hc
  split at hc
  · exact absurd hc (by decide)
  split at hc
  · exact absurd hc (by decide)
  split at hc
  · exact absurd hc (by decide)
  split at hc
  · exact absurd hc (by decide)
  · rename_i hn _ _
    exact hn (List.mem_singleton.mp hc).symm

end

/-- A double-quoted value decodes by the documented rule exactly when it is
ASCII and its escapes are documented. A value that is escaped and put in quotes
is read back exactly when it is ASCII. -/
theorem quoted_follows_rule_iff (names : List UInt8 → Option CodePoint) (k : Key)
    (hk : (lit "sops_").isPrefixOf k.val = false) :
    (∀ s line, newline ∉ s → rstripNewline line = k.val ++ equals :: quoted s →
      (parse names [line] = some [(k, unescape s)] ↔
        IsAscii s ∧ onlyDocumented false s = true)) ∧
    ∀ v line, rstripNewline line = k.val ++ equals :: quoted (escape v) →
      (parse names [line] = some [(k, v)] ↔ IsAscii v) := by
  refine ⟨fun s line hs hline => parse_quoted_iff hk hs hline, fun v line hline => ?_⟩
  have h : parse names [line] = some [(k, unescape (escape v))] ↔
      IsAscii (escape v) ∧ onlyDocumented false (escape v) = true :=
    parse_quoted_iff hk (newline_notMem_escape v) hline
  rw [unescape_escape] at h
  rw [h, and_iff_left (onlyDocumented_escape v), ← isAscii_unescape_iff, unescape_escape]

def keyK : Key := ⟨lit "K", by decide⟩

/-- A character that is not ASCII is read as the two of its bytes. -/
theorem quoted_value_garbled :
    newline ∉ lit "é" ∧ unescape (lit "é") = lit "é" ∧ escape (lit "é") = lit "é" ∧
      rstripNewline (lit "K=\"é\"\n") = keyK.val ++ equals :: quoted (lit "é") ∧
      parse (fun _ => none) [lit "K=\"é\"\n"] = some [(keyK, lit "Ã©")] := by
  decide

/-- The rule, on a line with documented escapes. -/
theorem quoted_follows_rule_K :
    parse (fun _ => none) [lit "K=\"a\\tb\\\\n\"\n"] = some [(keyK, lit "a\tb\\n")] ∧
      parse (fun _ => none) [lit "K=\"a\\tb\\\\n\"\n"] = some [(keyK, unescape (lit "a\\tb\\\\n"))] :=
  have h := quoted_follows_rule_iff (fun _ => none) keyK (by decide)
  ⟨(h.2 (lit "a\tb\\n") _ (by decide)).mpr (by decide),
    (h.1 (lit "a\\tb\\\\n") _ (by decide) (by decide)).mpr (by decide)⟩

end Fiducia.Dotenv
