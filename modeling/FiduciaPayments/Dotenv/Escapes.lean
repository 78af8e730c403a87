import FiduciaPayments.Dotenv.Render

/-!
# The documented escapes

The documentation of `.just/dotenv.py` has four escapes in a double-quoted
value, and everything else literal: `unescape`. `parse` decodes the value with
the `unicode_escape` codec, which knows the same four (`stepEscape_documented`)
and more (`isUndocumented`); a backslash before any other character is itself to
both (`stepEscape_unknown`).
-/

namespace Fiducia.Dotenv

open Lib.Python
open Lib.UnicodeEscape (Decoder stepEscape)

/-! ## The documented rule -/

/-- The character of a documented escape. -/
def documented (c : CodePoint) : Option CodePoint :=
  match c.val with
  | 0x6E => some newline
  | 0x74 => some 0x09
  | 0x72 => some carriageReturn
  | 0x5C => some backslash
  | _ => none

/-- A reader of escapes, and whether a backslash was read. -/
structure Reader where
  out : PyStr
  escaped : Bool

namespace Reader

def start : Reader := { out := [], escaped := false }

/-- One character. A backslash that begins no documented escape is itself. -/
def step (r : Reader) (c : CodePoint) : Reader :=
  if r.escaped then
    match documented c with
    | some d => { out := r.out ++ [d], escaped := false }
    | none => { out := r.out ++ [backslash, c], escaped := false }
  else if c = backslash then { r with escaped := true }
  else { r with out := r.out ++ [c] }

/-- The text read, with a last backslash. -/
def finish (r : Reader) : PyStr := if r.escaped then r.out ++ [backslash] else r.out

end Reader

/-- `\n`, `\t`, `\r` and `\\` expanded in one pass, and the rest literal. -/
def unescape (s : PyStr) : PyStr := (s.foldl Reader.step .start).finish

/-- A character that begins an escape of the codec only. -/
def isUndocumented (c : CodePoint) : Bool :=
  [0x0A, 0x22, 0x27, 0x30, 0x31, 0x32, 0x33, 0x34, 0x35, 0x36, 0x37, 0x4E, 0x55, 0x61, 0x62, 0x66,
    0x75, 0x76, 0x78].contains c.val

/-- No backslash begins an escape of the codec only, and none is the last
character; `escaped` says whether one was just read. -/
def onlyDocumented : Bool → PyStr → Bool
  | escaped, [] => !escaped
  | false, c :: s => onlyDocumented (c = backslash) s
  | true, c :: s => !isUndocumented c && onlyDocumented false s

/-! ## One ASCII character -/

section
variable {names : List UInt8 → Option CodePoint} {c : CodePoint}

theorem byte_eq_backslash_iff (h : c.val < 0x80) :
    UInt8.ofNat c.val = Lib.UnicodeEscape.backslash ↔ c = backslash := by
  rw [← UInt8.toNat_inj, UInt8.toNat_ofNat', Nat.mod_eq_of_lt (by omega), Fin.ext_iff]
  rfl

theorem documented_ascii {m : CodePoint} (h : documented c = some m) : m.val < 0x80 := by
  unfold documented at h
  split at h <;> cases h <;> decide

/-- The codec knows the documented escapes, and no others but the
undocumented. -/
theorem escape_table (h : c.val < 0x80) :
    (documented c = none ∨
      Lib.UnicodeEscape.letter (UInt8.ofNat c.val) = documented c ∧ isUndocumented c = false) ∧
    (documented c = none →
      (isUndocumented c = false ↔
        Lib.UnicodeEscape.letter (UInt8.ofNat c.val) = none ∧
        Lib.UnicodeEscape.octalDigit (UInt8.ofNat c.val) = none ∧
        Lib.UnicodeEscape.hexLength (UInt8.ofNat c.val) = none ∧
        UInt8.ofNat c.val ≠ 0x0A ∧ UInt8.ofNat c.val ≠ 0x4E)) := by
  have known : ∀ n < 0x80, documented (Fin.ofNat 0x110000 n) = none ∨
      Lib.UnicodeEscape.letter (UInt8.ofNat n) = documented (Fin.ofNat 0x110000 n) ∧
        isUndocumented (Fin.ofNat 0x110000 n) = false := by
    decide +kernel
  have others : ∀ n < 0x80, documented (Fin.ofNat 0x110000 n) = none →
      (isUndocumented (Fin.ofNat 0x110000 n) = false ↔
        Lib.UnicodeEscape.letter (UInt8.ofNat n) = none ∧
        Lib.UnicodeEscape.octalDigit (UInt8.ofNat n) = none ∧
        Lib.UnicodeEscape.hexLength (UInt8.ofNat n) = none ∧
        UInt8.ofNat n ≠ 0x0A ∧ UInt8.ofNat n ≠ 0x4E) := by
    decide +kernel
  have hc := And.intro (known c.val h) (others c.val h)
  rwa [show Fin.ofNat 0x110000 c.val = c from Fin.ext (Nat.mod_eq_of_lt c.isLt)] at hc

/-- A documented escape is read by the codec as it is by the rule. -/
theorem stepEscape_documented {m : CodePoint} (hc : c.val < 0x80) (h : documented c = some m)
    (d : Decoder) : stepEscape d (UInt8.ofNat c.val) = d.emit m := by
  have hl := ((escape_table hc).1.resolve_left (by simp [h])).1
  unfold stepEscape
  rw [hl, h]

/-- What is no escape stands for itself. -/
theorem stepEscape_unknown (hc : c.val < 0x80) (h : documented c = none)
    (hu : isUndocumented c = false) (d : Decoder) :
    stepEscape d (UInt8.ofNat c.val) = (d.emit backslash).emit c := by
  obtain ⟨hl, ho, hx, hn, hN⟩ := ((escape_table hc).2 h).mp hu
  unfold stepEscape
  rw [hl, ho, hx]
  simp only [if_neg hn, if_neg hN, Lib.UnicodeEscape.latin1_ofNat hc]
  rfl

/-- Any other escape of the codec has at most one character. -/
theorem stepEscape_undocumented (hc : c.val < 0x80) (h : documented c = none)
    (hu : isUndocumented c = true) (out : PyStr) :
    (∃ m, stepEscape { out, pending := .escape } (UInt8.ofNat c.val) =
        { out := out ++ [m], pending := .none }) ∨
      ∃ pending, stepEscape { out, pending := .escape } (UInt8.ofNat c.val) = { out, pending } ∧
        pending ≠ .escape ∧ ∀ read, pending ≠ .name read := by
  unfold stepEscape
  split
  · exact .inl ⟨_, rfl⟩
  · exact .inr ⟨_, rfl, nofun, nofun⟩
  · exact .inr ⟨_, rfl, nofun, nofun⟩
  · rename_i hl ho hx
    split
    · exact .inr ⟨_, rfl, nofun, nofun⟩
    · rename_i hn
      split
      · exact .inr ⟨_, rfl, nofun, nofun⟩
      · rename_i hN
        rw [((escape_table hc).2 h).mpr ⟨hl, ho, hx, hn, hN⟩] at hu
        simp at hu

theorem isUndocumented_high (hc : 0x80 ≤ c.val) : isUndocumented c = false := by
  rw [isUndocumented, ← Bool.not_eq_true, List.contains_iff_mem]
  intro h
  simp only [List.mem_cons, List.not_mem_nil, or_false] at h
  omega

theorem documented_high (hc : 0x80 ≤ c.val) : documented c = none := by
  unfold documented
  split <;> first | rfl | (rename_i h; omega)

theorem ne_backslash_of_high (hc : 0x80 ≤ c.val) : c ≠ backslash := fun e => by
  rw [e] at hc
  exact absurd hc (by decide)

/-- One character of a text, and the rest. -/
theorem onlyDocumented_cons {r : Reader} {s : PyStr} :
    onlyDocumented r.escaped (c :: s) = true ↔
      (r.escaped = true → isUndocumented c = false) ∧
        onlyDocumented (r.step c).escaped s = true := by
  obtain ⟨out, escaped⟩ := r
  cases escaped with
  | false =>
    have hr : (Reader.step { out, escaped := false } c).escaped = decide (c = backslash) := by
      unfold Reader.step
      by_cases hc : c = backslash
      · simp [hc]
      · simp [hc]
    rw [hr]
    simp [onlyDocumented]
  | true =>
    have hr : (Reader.step { out, escaped := true } c).escaped = false := by
      unfold Reader.step
      rw [if_pos rfl]
      split <;> rfl
    rw [hr]
    simp [onlyDocumented]

end

end Fiducia.Dotenv
