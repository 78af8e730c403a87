import FiduciaPayments.Dotenv.Escapes

/-!
# The codec behind the rule

The codec and the rule for escapes are run side by side, a character at a time.
An escape that the rule has too gives both a character, and any other gives the
codec one where the rule has two or more. So the codec never has more ASCII
characters than the rule (`behind_run`), one that it owes for an unfinished
escape included; an escape that is the codec's only leaves it behind for good
(`behind_escape`).
-/

namespace Fiducia.Dotenv

open Lib.Python Lib.Run
open Lib.UnicodeEscape (Decoder Pending decode step latin1 stepPlain stepEscape)

/-! ## Behind the rule -/

/-- Inside an escape of several characters the codec owes one. -/
def owed : Pending → Nat
  | .none | .escape => 0
  | _ => 1

/-- Outside these escapes, both have read a backslash or neither has. The rule
reads a name like any text. -/
def InStep : Pending → Bool → Prop
  | .escape, escaped => escaped = true
  | .name _, _ => True
  | _, escaped => escaped = false

/-- The codec is in step with the rule, and has at least `k` fewer ASCII
characters. -/
structure Behind (k : Nat) (d : Decoder) (r : Reader) : Prop where
  inStep : InStep d.pending r.escaped
  le : asciiCount d.out + owed d.pending + k ≤ asciiCount r.out

section
variable {names : List UInt8 → Option CodePoint} {c : CodePoint} {r : Reader} {k : Nat}

theorem Behind.of_succ {d : Decoder} (h : Behind (k + 1) d r) : Behind k d r :=
  ⟨h.inStep, by have := h.le; omega⟩

theorem Reader.step_plain (h : r.escaped = false) (hc : c ≠ backslash) :
    r.step c = { out := r.out ++ [c], escaped := false } := by
  simp [Reader.step, h, hc]

theorem Reader.step_backslash (h : r.escaped = false) :
    r.step backslash = { out := r.out, escaped := true } := by
  simp [Reader.step, h]

/-- A backslash that begins no documented escape is itself. -/
theorem Reader.step_unknown (h : r.escaped = true) (hd : documented c = none) :
    r.step c = { out := r.out ++ [backslash, c], escaped := false } := by
  simp [Reader.step, h, hd]

theorem Reader.asciiCount_step_unknown (h : r.escaped = true) (hd : documented c = none) :
    asciiCount (r.step c).out = asciiCount r.out + 1 + asciiCount [c] := by
  rw [Reader.step_unknown h hd, show [backslash, c] = [backslash] ++ [c] from rfl,
    ← List.append_assoc, asciiCount_append, asciiCount_append]
  rfl

/-- The rule loses no ASCII character it has. -/
theorem Reader.asciiCount_le_step : asciiCount r.out ≤ asciiCount (r.step c).out := by
  unfold Reader.step
  split
  · split <;> simp
  · split <;> simp

/-- An ASCII character outside escapes. -/
theorem behind_plain (hc : c.val < 0x80) (h : r.escaped = false) {out : PyStr}
    (hle : asciiCount out + k ≤ asciiCount r.out) :
    Behind k (stepPlain { out, pending := .none } (UInt8.ofNat c.val)) (r.step c) := by
  unfold stepPlain
  by_cases hb : c = backslash
  · rw [if_pos ((byte_eq_backslash_iff hc).mpr hb), hb, Reader.step_backslash h]
    exact ⟨rfl, hle⟩
  · rw [if_neg (mt (byte_eq_backslash_iff hc).mp hb), Reader.step_plain h hb,
      Lib.UnicodeEscape.latin1_ofNat hc]
    refine ⟨rfl, ?_⟩
    show asciiCount (out ++ [c]) + 0 + k ≤ asciiCount (r.out ++ [c])
    rw [asciiCount_append, asciiCount_append]
    omega

/-- An escape that is the codec's only gives it one character at most, where the
rule has two. -/
theorem behind_undocumented (hc : c.val < 0x80) (h : r.escaped = true) (hd : documented c = none)
    (hu : isUndocumented c = true) {out : PyStr} (hle : asciiCount out + k ≤ asciiCount r.out) :
    Behind (k + 1) (stepEscape { out, pending := .escape } (UInt8.ofNat c.val)) (r.step c) := by
  have hcount : asciiCount (r.step c).out = asciiCount r.out + 2 := by
    rw [Reader.asciiCount_step_unknown h hd, asciiCount_singleton, if_pos hc]
  have hesc : (r.step c).escaped = false := by rw [Reader.step_unknown h hd]
  rcases stepEscape_undocumented hc hd hu out with ⟨m, he⟩ | ⟨pending, he, hescape, hname⟩
  · have := asciiCount_singleton_le m
    rw [he]
    refine ⟨hesc, ?_⟩
    show asciiCount (out ++ [m]) + 0 + (k + 1) ≤ asciiCount (r.step c).out
    rw [asciiCount_append]
    omega
  · have howed : owed pending ≤ 1 := by
      unfold owed
      split <;> omega
    rw [he]
    refine ⟨?_, ?_⟩
    · show InStep pending (r.step c).escaped
      rw [hesc]
      unfold InStep
      split
      · exact absurd rfl hescape
      · trivial
      · rfl
    · show asciiCount out + owed pending + (k + 1) ≤ asciiCount (r.step c).out
      omega

/-- An ASCII character after a backslash. An escape that is the codec's only
loses a character. -/
theorem behind_escape (hc : c.val < 0x80) (h : r.escaped = true) {out : PyStr}
    (hle : asciiCount out + k ≤ asciiCount r.out) :
    Behind (if isUndocumented c then k + 1 else k)
      (stepEscape { out, pending := .escape } (UInt8.ofNat c.val)) (r.step c) := by
  have h1 : asciiCount [c] = 1 := by rw [asciiCount_singleton, if_pos hc]
  cases hd : documented c with
  | some m =>
    have hm : asciiCount [m] = 1 := by rw [asciiCount_singleton, if_pos (documented_ascii hd)]
    have hu : isUndocumented c = false := ((escape_table hc).1.resolve_left (by simp [hd])).2
    rw [hu, stepEscape_documented hc hd]
    unfold Reader.step
    simp only [h, hd, if_true]
    refine ⟨rfl, ?_⟩
    show asciiCount (out ++ [m]) + 0 + k ≤ asciiCount (r.out ++ [m])
    rw [asciiCount_append, asciiCount_append]
    omega
  | none =>
    cases hu : isUndocumented c with
    | true => exact behind_undocumented hc h hd hu hle
    | false =>
      rw [stepEscape_unknown hc hd hu]
      refine ⟨by rw [Reader.step_unknown h hd]; rfl, ?_⟩
      show asciiCount (out ++ [backslash] ++ [c]) + 0 + k ≤ asciiCount (r.step c).out
      rw [Reader.asciiCount_step_unknown h hd, asciiCount_append, asciiCount_append,
        show asciiCount [backslash] = 1 from rfl]
      omega

/-- A value is one character. -/
theorem behind_value {d d' : Decoder} {r' : Reader} {value : Nat} (h : r'.escaped = false)
    (hle : asciiCount d.out + 1 + k ≤ asciiCount r'.out) (hv : d.emitValue value = some d') :
    Behind k d' r' ∧ d'.pending = .none := by
  unfold Decoder.emitValue at hv
  split at hv <;> cases hv
  rename_i hlt
  have := asciiCount_singleton_le ⟨value, hlt⟩
  refine ⟨⟨h, ?_⟩, rfl⟩
  show asciiCount (d.out ++ [_]) + 0 + k ≤ asciiCount r'.out
  rw [asciiCount_append]
  omega

/-- A character that ends no escape: the rule goes on outside escapes. -/
theorem Reader.step_inside (h : r.escaped = false) (hc : c ≠ backslash) :
    (r.step c).escaped = false ∧ asciiCount r.out ≤ asciiCount (r.step c).out := by
  refine ⟨?_, Reader.asciiCount_le_step⟩
  rw [Reader.step_plain h hc]

/-- A closing brace ends an escape for the rule as well. -/
theorem Reader.step_closeBrace (hc : c.val = 0x7D) : (r.step c).escaped = false := by
  have hd : documented c = none := by
    unfold documented
    rw [hc]
    rfl
  have hb : c ≠ backslash := fun e => absurd (e ▸ hc) (by decide)
  unfold Reader.step
  rw [hd, if_neg hb]
  split
  · rfl
  · rename_i h
    exact Bool.eq_false_iff.mpr h

/-- A character that continues an escape is no backslash, and the rule has it. -/
theorem behind_inside (hc : c ≠ backslash) (h : r.escaped = false) {out : PyStr}
    (hle : asciiCount out + 1 + k ≤ asciiCount r.out) :
    (r.step c).escaped = false ∧ asciiCount out + 1 + k ≤ asciiCount (r.step c).out := by
  obtain ⟨hr, hmono⟩ := Reader.step_inside h hc
  exact ⟨hr, by omega⟩

/-- A digit of an octal escape, or the character after its last. -/
theorem behind_octal (hc : c.val < 0x80) (h : r.escaped = false) {out : PyStr}
    (hle : asciiCount out + 1 + k ≤ asciiCount r.out) {value left : Nat} {d' : Decoder}
    (hs : step names { out, pending := .octal value left } (UInt8.ofNat c.val) = some d') :
    Behind k d' (r.step c) := by
  simp only [step] at hs
  split at hs
  · rename_i n ho
    have hb : c ≠ backslash := fun e => by
      rw [e, show Lib.UnicodeEscape.octalDigit (UInt8.ofNat backslash.val) = none by decide] at ho
      simp at ho
    obtain ⟨hr, hle⟩ := behind_inside hb h hle
    split at hs
    · exact (behind_value hr hle hs).1
    · cases hs
      exact ⟨hr, hle⟩
  · obtain ⟨d₁, hd₁, rfl⟩ := Option.map_eq_some_iff.mp hs
    obtain ⟨⟨-, hle₁⟩, hp₁⟩ := behind_value h hle hd₁
    obtain ⟨out₁, pending₁⟩ := d₁
    cases hp₁
    exact behind_plain hc h hle₁

/-- A digit of a hexadecimal escape. -/
theorem behind_hex (h : r.escaped = false) {out : PyStr}
    (hle : asciiCount out + 1 + k ≤ asciiCount r.out) {value left : Nat} {d' : Decoder}
    (hs : step names { out, pending := .hex value left } (UInt8.ofNat c.val) = some d') :
    Behind k d' (r.step c) := by
  obtain ⟨n, hn, hs⟩ := Option.bind_eq_some_iff.mp hs
  have hb : c ≠ backslash := fun e => by
    rw [e, show Lib.UnicodeEscape.hexDigit (UInt8.ofNat backslash.val) = none by decide] at hn
    simp at hn
  obtain ⟨hr, hle⟩ := behind_inside hb h hle
  split at hs
  · exact (behind_value hr hle hs).1
  · cases hs
    exact ⟨hr, hle⟩

/-- A character of a name, or the brace after it. -/
theorem behind_name (hc : c.val < 0x80) {out : PyStr}
    (hle : asciiCount out + 1 + k ≤ asciiCount r.out) {read : List UInt8} {d' : Decoder}
    (hs : step names { out, pending := .name read } (UInt8.ofNat c.val) = some d') :
    Behind k d' (r.step c) := by
  have hmono := Reader.asciiCount_le_step (c := c) (r := r)
  simp only [step] at hs
  split at hs
  · rename_i hclose
    have hv : c.val = 0x7D := by
      have := congrArg UInt8.toNat hclose
      rwa [UInt8.toNat_ofNat', Nat.mod_eq_of_lt (by omega)] at this
    split at hs
    · simp at hs
    · obtain ⟨m, -, rfl⟩ := Option.map_eq_some_iff.mp hs
      refine ⟨Reader.step_closeBrace hv, ?_⟩
      show asciiCount (out ++ [m]) + 0 + k ≤ asciiCount (r.step c).out
      have := asciiCount_singleton_le m
      rw [asciiCount_append]
      omega
  · cases hs
    refine ⟨trivial, ?_⟩
    show asciiCount out + 1 + k ≤ asciiCount (r.step c).out
    omega

/-- An ASCII character keeps the codec behind. -/
theorem behind_step (hc : c.val < 0x80) {d d' : Decoder} (h : Behind k d r)
    (hs : step names d (UInt8.ofNat c.val) = some d') : Behind k d' (r.step c) := by
  obtain ⟨out, pending⟩ := d
  obtain ⟨hin, hle⟩ := h
  cases pending with
  | none =>
    cases hs
    exact behind_plain hc hin hle
  | escape =>
    cases hs
    have he := behind_escape hc hin hle
    split at he
    · exact he.of_succ
    · exact he
  | octal value left => exact behind_octal hc hin hle hs
  | hex value left => exact behind_hex hin hle hs
  | named =>
    have hmono := Reader.asciiCount_le_step (c := c) (r := r)
    have hle : asciiCount out + 1 + k ≤ asciiCount r.out := hle
    simp only [step] at hs
    split at hs <;> cases hs
    refine ⟨trivial, ?_⟩
    show asciiCount out + 1 + k ≤ asciiCount (r.step c).out
    omega
  | name read => exact behind_name hc hle hs

/-! ## One character that is not ASCII -/

theorem asciiCount_latin1 {bs : List UInt8} (h : ∀ b ∈ bs, 0x80 ≤ b.toNat) :
    asciiCount (bs.map latin1) = 0 := by
  refine List.countP_eq_zero.mpr (List.forall_mem_map.mpr fun b hb => ?_)
  have := h b hb
  rw [decide_eq_true_iff, Lib.UnicodeEscape.latin1_val]
  omega

/-- The bytes of such a character. -/
theorem exists_bytes (hscalar : isScalar c) (hc : 0x80 ≤ c.val) :
    ∃ b bs, bytes [c] = b :: bs ∧ ∀ x ∈ b :: bs, 0x80 ≤ x.toNat := by
  have hne : bytes [c] ≠ [] := fun h => by
    have := (length_bytes_singleton hscalar).1
    rw [h] at this
    simp at this
  obtain ⟨b, bs, hb⟩ := List.exists_cons_of_ne_nil hne
  exact ⟨b, bs, hb, hb ▸ le_of_mem_bytes_singleton hscalar hc⟩

/-- Such a character adds no ASCII character to either, but the backslash
before it. -/
theorem behind_high (hscalar : isScalar c) (hc : 0x80 ≤ c.val) {d d' : Decoder}
    (h : Behind k d r) (hs : run (step names) d (bytes [c]) = some d') :
    Behind k d' (r.step c) := by
  obtain ⟨out, pending⟩ := d
  obtain ⟨hin, hle⟩ := h
  obtain ⟨b, bs, hb, hhigh⟩ := exists_bytes hscalar hc
  rw [hb] at hs
  have hslash := ne_backslash_of_high hc
  have hmono := Reader.asciiCount_le_step (c := c) (r := r)
  have hzero := asciiCount_latin1 hhigh
  cases pending with
  | none =>
    rw [Lib.UnicodeEscape.run_high_plain _ hhigh] at hs
    cases hs
    refine ⟨(Reader.step_inside hin hslash).1, ?_⟩
    show asciiCount (out ++ _) + 0 + k ≤ _
    have hle : asciiCount out + 0 + k ≤ asciiCount r.out := hle
    rw [asciiCount_append, hzero]
    omega
  | escape =>
    rw [Lib.UnicodeEscape.run_high_escape _ hhigh] at hs
    cases hs
    have hd := documented_high hc
    have hin : r.escaped = true := hin
    refine ⟨by rw [Reader.step_unknown hin hd]; rfl, ?_⟩
    show asciiCount (out ++ ([backslash] ++ (b :: bs).map latin1)) + 0 + k ≤
      asciiCount (r.step c).out
    have hle : asciiCount out + 0 + k ≤ asciiCount r.out := hle
    rw [Reader.asciiCount_step_unknown hin hd, asciiCount_append, asciiCount_append, hzero,
      show asciiCount [backslash] = 1 from rfl]
    omega
  | octal value left =>
    rw [Lib.UnicodeEscape.run_high_octal _ _ _ hhigh] at hs
    obtain ⟨d₁, hd₁, rfl⟩ := Option.map_eq_some_iff.mp hs
    obtain ⟨⟨-, hle₁⟩, hp₁⟩ := behind_value hin hle hd₁
    rw [hp₁] at hle₁
    have hle₁ : asciiCount d₁.out + 0 + k ≤ asciiCount r.out := hle₁
    refine ⟨(Reader.step_inside hin hslash).1, ?_⟩
    show asciiCount (d₁.out ++ _) + 0 + k ≤ _
    rw [asciiCount_append, hzero]
    omega
  | hex value left =>
    rw [Lib.UnicodeEscape.run_high_none (hhigh b List.mem_cons_self) (.inr ⟨value, left, rfl⟩)] at hs
    simp at hs
  | named =>
    rw [Lib.UnicodeEscape.run_high_none (hhigh b List.mem_cons_self) (.inl rfl)] at hs
    simp at hs
  | name read =>
    rw [Lib.UnicodeEscape.run_high_name _ _ hhigh] at hs
    cases hs
    have hle : asciiCount out + 1 + k ≤ asciiCount r.out := hle
    exact ⟨trivial, by show asciiCount out + 1 + k ≤ asciiCount (r.step c).out; omega⟩

/-- Every character keeps the codec behind. -/
theorem behind_char (hscalar : isScalar c) {d d' : Decoder} (h : Behind k d r)
    (hs : run (step names) d (bytes [c]) = some d') : Behind k d' (r.step c) := by
  by_cases hc : c.val < 0x80
  · rw [Lib.UnicodeEscape.run_ascii hc] at hs
    exact behind_step hc h hs
  · exact behind_high hscalar (by omega) h hs

/-- So does every text. -/
theorem behind_run : ∀ {s : PyStr} {d d' : Decoder} {r : Reader}, (∀ c ∈ s, isScalar c) →
    Behind k d r → run (step names) d (bytes s) = some d' →
    Behind k d' (s.foldl Reader.step r)
  | [], _, _, _, _, h, hs => by
    cases hs
    exact h
  | c :: s, d, d', r, hscalar, h, hs => by
    obtain ⟨hc, hscalar⟩ := List.forall_mem_cons.mp hscalar
    rw [bytes_cons, run_append] at hs
    obtain ⟨d₁, h₁, hs⟩ := Option.bind_eq_some_iff.mp hs
    rw [List.foldl_cons]
    exact behind_run hscalar (behind_char hc h h₁) hs

end

end Fiducia.Dotenv
