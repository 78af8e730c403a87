import FiduciaPayments.Lib.Text
import FiduciaPayments.Lib.Utf8
import Mathlib.Algebra.GroupWithZero.Nat
import Mathlib.Data.Fin.Basic
import Mathlib.Order.Fin.Basic

/-!
# Python's `str`

A `str` is a list of code points, in which a surrogate may stand alone. Only a
text without surrogates has a UTF-8 encoding (`encode_eq_some_iff`), which
determines it (`bytes_injOn`); a stream may take some surrogates for bytes
(`codeBytes`). An ASCII byte of the encoding is an ASCII
character of the text (`val_of_toChar_eq`). A text has as many bytes as
characters only when all of them are ASCII (`length_bytes`).

A text that is cut has the lines before its last line end (`lines_append`) and a
part of the next line (`exists_first_line`).
-/

namespace Lib.Python

open Lib.Text

abbrev CodePoint := Fin 0x110000

instance neZeroCodePoints : NeZero 0x110000 := ⟨by decide⟩

/-- Python's `str`. -/
abbrev PyStr := List CodePoint

def ofChar (c : Char) : CodePoint := Fin.ofNat 0x110000 c.toNat

/-- A string literal. -/
def lit (s : String) : PyStr := s.toList.map ofChar

abbrev newline : CodePoint := 0x0A
abbrev carriageReturn : CodePoint := 0x0D
abbrev doubleQuote : CodePoint := 0x22
abbrev singleQuote : CodePoint := 0x27
abbrev equals : CodePoint := 0x3D
abbrev backslash : CodePoint := 0x5C

/-! ## Whitespace and lines -/

/-- `str.isspace` of one character. -/
def isSpace (c : CodePoint) : Bool :=
  let n := c.val
  (0x09 ≤ n && n ≤ 0x0D) || (0x1C ≤ n && n ≤ 0x20) || n == 0x85 || n == 0xA0 || n == 0x1680 ||
    (0x2000 ≤ n && n ≤ 0x200A) || n == 0x2028 || n == 0x2029 || n == 0x202F || n == 0x205F ||
    n == 0x3000

/-- `str.strip()`. -/
def strip (s : PyStr) : PyStr := trimBy isSpace s

/-- `str.lstrip()`. -/
def lstrip (s : PyStr) : PyStr := s.dropWhile isSpace

/-- `str.rstrip("\n")`. -/
def rstripNewline (s : PyStr) : PyStr := s.rdropWhile (· = newline)

/-- The lines of `sys.stdin`, with their `\n`. Only `\n` ends a line. -/
def lines (text : PyStr) : List PyStr :=
  let parts := text.splitOn newline
  parts.dropLast.map (· ++ [newline]) ++ parts.getLast?.toList.filter (· ≠ [])

theorem rstripNewline_of_notMem {s : PyStr} (h : newline ∉ s) : rstripNewline s = s := by
  rw [rstripNewline, List.rdropWhile_eq_self_iff]
  exact fun hne e => h (of_decide_eq_true e ▸ List.getLast_mem hne)

/-- The lines before a line end, and those after it. -/
theorem lines_append (x r : PyStr) :
    lines (x ++ newline :: r) = (x.splitOn newline).map (· ++ [newline]) ++ lines r := by
  have hne : r.splitOn newline ≠ [] := List.splitOn_ne_nil _ _
  rw [lines, List.splitOn_append_cons_self, lines]
  simp only [List.dropLast_append_of_ne_nil hne, List.getLast?_append_of_ne_nil _ hne,
    List.map_append, List.append_assoc]

theorem lines_of_notMem {q : PyStr} (hq : newline ∉ q) : lines q = [q].filter (· ≠ []) := by
  rw [lines, List.splitOn_eq_singleton hq]
  rfl

/-- The last line of a text is what is after its last line end. -/
theorem exists_last_line (s : PyStr) :
    newline ∉ s ∨ ∃ x q, s = x ++ newline :: q ∧ newline ∉ q := by
  by_cases h : newline ∈ s
  · obtain ⟨a, b, hs, ha⟩ := List.eq_append_cons_of_mem (List.mem_reverse.mpr h)
    refine .inr ⟨b.reverse, a.reverse, ?_, fun h => ha (List.mem_reverse.mp h)⟩
    rw [← List.reverse_reverse s, hs, List.reverse_append, List.reverse_cons, List.append_assoc,
      List.singleton_append]
  · exact .inl h

/-- A part of a line at its front is a part of the first line of a text. -/
theorem exists_first_line {q r : PyStr} (hq : newline ∉ q) (hne : q ≠ []) :
    ∃ l ls, lines (q ++ r) = l :: ls ∧ q <+: rstripNewline l ∧ newline ∉ rstripNewline l := by
  by_cases h : newline ∈ r
  · obtain ⟨y, z, rfl, hy⟩ := List.eq_append_cons_of_mem h
    have hqy : newline ∉ q ++ y := fun h => (List.mem_append.mp h).elim hq hy
    have hstrip : rstripNewline (q ++ y ++ [newline]) = q ++ y := by
      rw [rstripNewline, List.rdropWhile_concat_pos _ _ _ (by decide)]
      exact rstripNewline_of_notMem hqy
    refine ⟨q ++ y ++ [newline], lines z, ?_, ?_, ?_⟩
    · rw [← List.append_assoc, lines_append, List.splitOn_eq_singleton hqy]
      rfl
    · rw [hstrip]
      exact List.prefix_append q y
    · rwa [hstrip]
  · have hqr : newline ∉ q ++ r := fun h' => (List.mem_append.mp h').elim hq h
    refine ⟨q ++ r, [], ?_, ?_, ?_⟩
    · rw [lines_of_notMem hqr, List.filter_cons_of_pos (by simp [hne]), List.filter_nil]
    · rw [rstripNewline_of_notMem hqr]
      exact List.prefix_append q r
    · rwa [rstripNewline_of_notMem hqr]

/-! ## Encoding -/

/-- A code point that is a character, and not a surrogate. -/
def isScalar (c : CodePoint) : Bool := c.val < 0xD800 || 0xDFFF < c.val

def toChar (c : CodePoint) : Char := Char.ofNat c.val

/-- A surrogate that stands for a byte, from `0x80` on, that was not decoded. -/
def isEscaped (c : CodePoint) : Bool := 0xDC80 ≤ c.val && c.val ≤ 0xDCFF

/-- The UTF-8 bytes of a character, and the byte that an escaped surrogate
stands for. -/
def codeBytes (c : CodePoint) : List UInt8 :=
  if isEscaped c then [UInt8.ofNat (c.val - 0xDC00)] else String.utf8EncodeChar (toChar c)

/-- The bytes of a text of characters and escaped surrogates. -/
def bytes (s : PyStr) : List UInt8 := s.flatMap codeBytes

/-- `str.encode()`; a surrogate raises. -/
def encode (s : PyStr) : Option (List UInt8) := if s.all isScalar then some (bytes s) else none

theorem toChar_ofChar (c : Char) : toChar (ofChar c) = c := by
  have hc : c.toNat < 0x110000 := by
    rcases c.valid with h | ⟨-, h⟩
    · exact Nat.lt_trans h (by decide)
    · exact h
  unfold toChar ofChar
  rw [Fin.val_ofNat, Nat.mod_eq_of_lt hc, Char.ofNat_toNat]

theorem toNat_toChar {c : CodePoint} (h : isScalar c) : (toChar c).toNat = c.val := by
  have hv : c.val.isValidChar := by
    have := c.isLt
    simp only [isScalar, Bool.or_eq_true, decide_eq_true_eq] at h
    rw [Nat.isValidChar]
    omega
  unfold toChar
  rw [Char.ofNat, dif_pos hv]
  rfl

theorem isScalar_of_ascii {c : CodePoint} (h : c.val < 0x80) : isScalar c := by
  simp only [isScalar, Bool.or_eq_true, decide_eq_true_eq]
  omega

theorem isScalar_ofChar (c : Char) : isScalar (ofChar c) := by
  have hval : (ofChar c).val = c.toNat := by
    rw [ofChar, Fin.val_ofNat, Nat.mod_eq_of_lt]
    rcases c.valid with h | ⟨-, h⟩
    · exact Nat.lt_trans h (by decide)
    · exact h
  simp only [isScalar, hval, Bool.or_eq_true, decide_eq_true_eq]
  rcases c.valid with h | ⟨h, -⟩
  · exact .inl h
  · exact .inr h

/-- A literal has no surrogate. -/
theorem isScalar_of_mem_lit {s : String} {c : CodePoint} (h : c ∈ lit s) : isScalar c := by
  obtain ⟨d, -, rfl⟩ := List.mem_map.mp h
  exact isScalar_ofChar d

/-- A code point that is shown as a character other than NUL is that
character. -/
theorem val_of_toChar_eq {c : CodePoint} {d : Char} (hd : d ≠ Char.ofNat 0) (h : toChar c = d) :
    c.val = d.toNat := by
  by_cases hc : isScalar c
  · rw [← h, toNat_toChar hc]
  · have hv : ¬ c.val.isValidChar := by
      simp only [isScalar, Bool.or_eq_true, decide_eq_true_eq] at hc
      rw [Nat.isValidChar]
      omega
    rw [toChar, Char.ofNat, dif_neg hv] at h
    exact absurd h.symm hd

theorem isEscaped_of_isScalar {c : CodePoint} (h : isScalar c) : isEscaped c = false := by
  simp only [isScalar, Bool.or_eq_true, decide_eq_true_eq] at h
  simp only [isEscaped, Bool.and_eq_false_iff, decide_eq_false_iff_not]
  omega

theorem codeBytes_of_isScalar {c : CodePoint} (h : isScalar c) :
    codeBytes c = String.utf8EncodeChar (toChar c) := by
  rw [codeBytes, isEscaped_of_isScalar h, if_neg Bool.false_ne_true]

theorem codeBytes_ofChar (c : Char) : codeBytes (ofChar c) = String.utf8EncodeChar c := by
  rw [codeBytes_of_isScalar (isScalar_ofChar c), toChar_ofChar]

theorem codeBytes_ne_nil (c : CodePoint) : codeBytes c ≠ [] := by
  unfold codeBytes
  split
  · exact List.cons_ne_nil _ _
  · exact String.utf8EncodeChar_ne_nil

@[simp] theorem bytes_append (s t : PyStr) : bytes (s ++ t) = bytes s ++ bytes t :=
  List.flatMap_append

theorem bytes_singleton (c : CodePoint) : bytes [c] = codeBytes c := List.flatMap_singleton _ _

theorem bytes_cons (c : CodePoint) (s : PyStr) : bytes (c :: s) = bytes [c] ++ bytes s :=
  bytes_append [c] s

theorem bytes_flatMap {α : Type*} (f : α → PyStr) (l : List α) :
    bytes (l.flatMap f) = l.flatMap fun a => bytes (f a) :=
  List.flatMap_assoc

/-- The bytes of a text without surrogates are its encoding. -/
theorem bytes_of_isScalar {s : PyStr} (hs : ∀ c ∈ s, isScalar c) :
    bytes s = Utf8.utf8 (s.map toChar) := by
  rw [bytes, Utf8.utf8, List.flatMap_map]
  exact List.flatMap_congr fun c hc => codeBytes_of_isScalar (hs c hc)

theorem bytes_map_ofChar (t : List Char) : bytes (t.map ofChar) = Utf8.utf8 t := by
  rw [bytes, Utf8.utf8, List.flatMap_map]
  exact List.flatMap_congr fun c _ => codeBytes_ofChar c

/-- Below `0x80` a code point is its byte. -/
theorem bytes_of_ascii : ∀ {s : PyStr}, (∀ c ∈ s, c.val < 0x80) →
    bytes s = s.map fun c => UInt8.ofNat c.val
  | [], _ => rfl
  | c :: s, h => by
    obtain ⟨hc, hs⟩ := List.forall_mem_cons.mp h
    have hscalar := isScalar_of_ascii hc
    have hn : (toChar c).toNat = c.val := toNat_toChar hscalar
    rw [bytes_cons, bytes_of_ascii hs, bytes_singleton, codeBytes_of_isScalar hscalar,
      Utf8.encodeChar_of_ascii (by omega), hn, List.map_cons, List.singleton_append]

theorem encode_eq_some_iff {s : PyStr} {bs : List UInt8} :
    encode s = some bs ↔ (∀ c ∈ s, isScalar c) ∧ bytes s = bs := by
  unfold encode
  rw [Option.ite_none_right_eq_some, List.all_eq_true, Option.some.injEq]

/-- The encoding determines a text without surrogates. -/
theorem bytes_injOn {s t : PyStr} (hs : ∀ c ∈ s, isScalar c) (ht : ∀ c ∈ t, isScalar c)
    (h : bytes s = bytes t) : s = t := by
  rw [bytes_of_isScalar hs, bytes_of_isScalar ht] at h
  have hm := Utf8.utf8_injective h
  have back : ∀ u : PyStr, (∀ c ∈ u, isScalar c) →
      (u.map toChar).map ofChar = u := fun u hu => by
    rw [List.map_map]
    apply (List.map_congr_left ?_).trans (List.map_id u)
    intro c hc
    rw [Function.comp_apply, ofChar, toNat_toChar (hu c hc), id]
    exact Fin.ext (Nat.mod_eq_of_lt c.isLt)
  rw [← back s hs, hm, back t ht]

/-- An ASCII byte of a code point is that code point, if it is shown as a
character at all. -/
theorem toChar_of_mem_codeBytes {c : CodePoint} {d : Char} (hd : d.toNat < 0x80)
    (h : UInt8.ofNat d.toNat ∈ codeBytes c) : toChar c = d := by
  have hbyte : ∀ n, n < 256 → (UInt8.ofNat n).toNat = n := fun n hn => by
    rw [UInt8.toNat_ofNat', Nat.mod_eq_of_lt hn]
  unfold codeBytes at h
  split at h
  · rename_i hc
    simp only [isEscaped, Bool.and_eq_true, decide_eq_true_eq] at hc
    have e := congrArg UInt8.toNat (List.mem_singleton.mp h)
    rw [hbyte _ (by omega), hbyte _ (by omega)] at e
    omega
  · have hmem : UInt8.ofNat d.toNat ∈ Utf8.utf8 [toChar c] := by
      rwa [Utf8.utf8, List.flatMap_singleton]
    exact (List.mem_singleton.mp ((Utf8.mem_utf8_iff_of_ascii hd).mp hmem)).symm

/-- An ASCII byte of the encoding, other than NUL, is its character in the
text. -/
theorem mem_of_mem_bytes {s : PyStr} {d : Char} (h0 : d ≠ Char.ofNat 0) (hd : d.toNat < 0x80)
    (h : UInt8.ofNat d.toNat ∈ bytes s) : ofChar d ∈ s := by
  obtain ⟨c, hc, h⟩ := List.mem_flatMap.mp h
  have hv := val_of_toChar_eq h0 (toChar_of_mem_codeBytes hd h)
  rwa [show ofChar d = c from Fin.ext (by rw [ofChar, ← hv]; exact Nat.mod_eq_of_lt c.isLt)]

/-- A NUL byte is a NUL in a text without surrogates. -/
theorem zero_mem_of_mem_bytes {s : PyStr} (hs : ∀ c ∈ s, isScalar c) (h : (0 : UInt8) ∈ bytes s) :
    (0 : CodePoint) ∈ s := by
  obtain ⟨c, hc, h⟩ := List.mem_flatMap.mp h
  have hv := toNat_toChar (hs c hc)
  rw [toChar_of_mem_codeBytes (d := Char.ofNat 0) (by decide) h] at hv
  rwa [show (0 : CodePoint) = c from Fin.ext hv]

/-! ## ASCII -/

/-- Every character is ASCII. -/
def IsAscii (s : PyStr) : Prop := ∀ c ∈ s, c.val < 0x80

instance (s : PyStr) : Decidable (IsAscii s) :=
  decidable_of_iff (s.all fun c => c.val < 0x80) (by simp [IsAscii])

/-- How many characters are ASCII. -/
def asciiCount (s : PyStr) : Nat := s.countP fun c => c.val < 0x80

@[simp] theorem asciiCount_nil : asciiCount [] = 0 := rfl

@[simp] theorem asciiCount_append (s t : PyStr) :
    asciiCount (s ++ t) = asciiCount s + asciiCount t :=
  List.countP_append

theorem asciiCount_singleton (c : CodePoint) :
    asciiCount [c] = if c.val < 0x80 then 1 else 0 := by
  simp [asciiCount, List.countP_cons]

theorem asciiCount_singleton_le (c : CodePoint) : asciiCount [c] ≤ 1 := by
  rw [asciiCount_singleton]
  split <;> omega

/-- ASCII bytes are the encoding of a text. -/
theorem exists_encode {bs : List UInt8} (h : ∀ b ∈ bs, b.toNat < 0x80) :
    ∃ s, encode s = some bs := by
  have hval : ∀ b ∈ bs, (Fin.ofNat 0x110000 b.toNat : CodePoint).val = b.toNat := fun b hb =>
    Nat.mod_eq_of_lt (Nat.lt_trans (h b hb) (by decide))
  have hascii : ∀ c ∈ bs.map fun b => (Fin.ofNat 0x110000 b.toNat : CodePoint), c.val < 0x80 :=
    List.forall_mem_map.mpr fun b hb => (hval b hb).symm ▸ h b hb
  refine ⟨bs.map fun b => Fin.ofNat 0x110000 b.toNat, encode_eq_some_iff.mpr
    ⟨fun c hc => isScalar_of_ascii (hascii c hc), ?_⟩⟩
  rw [bytes_of_ascii hascii, List.map_map]
  refine (List.map_congr_left fun b hb => ?_).trans (List.map_id bs)
  rw [Function.comp_apply, hval b hb, UInt8.ofNat_toNat, id]

theorem bytes_singleton_of_ascii {c : CodePoint} (h : c.val < 0x80) :
    bytes [c] = [UInt8.ofNat c.val] :=
  bytes_of_ascii (List.forall_mem_singleton.mpr h)

theorem le_of_mem_bytes_singleton {c : CodePoint} (hs : isScalar c) (h : 0x80 ≤ c.val) :
    ∀ b ∈ bytes [c], 0x80 ≤ b.toNat := by
  intro b hb
  rw [bytes_singleton, codeBytes_of_isScalar hs] at hb
  exact Utf8.le_of_mem_encodeChar (by rwa [toNat_toChar hs]) hb

theorem length_bytes_singleton {c : CodePoint} (hs : isScalar c) :
    1 ≤ (bytes [c]).length ∧ (0x80 ≤ c.val → 2 ≤ (bytes [c]).length) := by
  by_cases h : c.val < 0x80
  · rw [bytes_singleton_of_ascii h]
    exact ⟨Nat.le_refl 1, fun h' => absurd h (by omega)⟩
  · have h2 : 2 ≤ (bytes [c]).length := by
      rw [bytes_singleton, codeBytes_of_isScalar hs]
      exact Utf8.two_le_length_encodeChar (by rw [toNat_toChar hs]; omega)
    exact ⟨by omega, fun _ => h2⟩

/-- A text has as many bytes as characters only when it is ASCII. -/
theorem length_bytes {s : PyStr} (hs : ∀ c ∈ s, isScalar c) :
    s.length ≤ (bytes s).length ∧ ((bytes s).length = s.length → IsAscii s) := by
  induction s with
  | nil => exact ⟨Nat.le_refl _, fun _ => nofun⟩
  | cons c s ih =>
    obtain ⟨hc, hs⟩ := List.forall_mem_cons.mp hs
    obtain ⟨hle, hascii⟩ := ih hs
    obtain ⟨h1, h2⟩ := length_bytes_singleton hc
    rw [bytes_cons, List.length_append, List.length_cons]
    refine ⟨by omega, fun h => List.forall_mem_cons.mpr ⟨?_, hascii (by omega)⟩⟩
    by_contra hn
    have := h2 (by omega)
    omega

end Lib.Python
