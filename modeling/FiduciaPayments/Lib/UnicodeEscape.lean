import FiduciaPayments.Lib.Python
import FiduciaPayments.Lib.Run

/-!
# Python's `unicode_escape` codec

Bytes are Latin-1 characters, and a backslash begins an escape: of one letter,
of up to three octal digits, of a fixed number of hexadecimal digits, or of a
character's name. An escape that is not known stands for itself; one that is
cut short, or names no character, raises. The bytes of a character that is not
ASCII are several Latin-1 characters (`run_high_plain`).
-/

namespace Lib.UnicodeEscape

open Lib.Python Lib.Run

/-- What is left to read of an escape. -/
inductive Pending where
  | none
  /-- A backslash was read. -/
  | escape
  /-- An octal value, and how many digits may follow. -/
  | octal (value left : Nat)
  /-- A hexadecimal value, and how many digits must follow. -/
  | hex (value left : Nat)
  /-- `\N` was read. -/
  | named
  /-- The name read so far. -/
  | name (read : List UInt8)

structure Decoder where
  out : PyStr
  pending : Pending

def Decoder.start : Decoder := { out := [], pending := .none }

namespace Decoder

/-- The escape is done. -/
def emit (d : Decoder) (c : CodePoint) : Decoder := { out := d.out ++ [c], pending := .none }

/-- A value that is a code point. -/
def emitValue (d : Decoder) (value : Nat) : Option Decoder :=
  if h : value < 0x110000 then some (d.emit ⟨value, h⟩) else none

end Decoder

def latin1 (b : UInt8) : CodePoint := Fin.ofNat 0x110000 b.toNat

abbrev backslash : UInt8 := 0x5C
abbrev openBrace : UInt8 := 0x7B
abbrev closeBrace : UInt8 := 0x7D

def octalDigit (b : UInt8) : Option Nat :=
  if 0x30 ≤ b ∧ b ≤ 0x37 then some (b.toNat - 0x30) else none

def hexDigit (b : UInt8) : Option Nat :=
  if 0x30 ≤ b ∧ b ≤ 0x39 then some (b.toNat - 0x30)
  else if 0x61 ≤ b ∧ b ≤ 0x66 then some (b.toNat - 0x61 + 10)
  else if 0x41 ≤ b ∧ b ≤ 0x46 then some (b.toNat - 0x41 + 10)
  else none

/-- The character of an escape of one letter. -/
def letter (b : UInt8) : Option CodePoint :=
  match b.toNat with
  | 0x5C => some 0x5C
  | 0x27 => some 0x27
  | 0x22 => some 0x22
  | 0x61 => some 0x07
  | 0x62 => some 0x08
  | 0x66 => some 0x0C
  | 0x6E => some 0x0A
  | 0x72 => some 0x0D
  | 0x74 => some 0x09
  | 0x76 => some 0x0B
  | _ => none

/-- How many digits a hexadecimal escape has. -/
def hexLength (b : UInt8) : Option Nat :=
  match b.toNat with
  | 0x78 => some 2
  | 0x75 => some 4
  | 0x55 => some 8
  | _ => none

/-- A byte outside escapes. -/
def stepPlain (d : Decoder) (b : UInt8) : Decoder :=
  if b = backslash then { d with pending := .escape } else d.emit (latin1 b)

/-- The byte after a backslash. -/
def stepEscape (d : Decoder) (b : UInt8) : Decoder :=
  match letter b, octalDigit b, hexLength b with
  | some c, _, _ => d.emit c
  | none, some value, _ => { d with pending := .octal value 2 }
  | none, none, some n => { d with pending := .hex 0 n }
  | none, none, none =>
    -- An escaped line end is nothing, and an unknown escape is itself.
    if b = 0x0A then { d with pending := .none }
    else if b = 0x4E then { d with pending := .named }
    else (d.emit (latin1 backslash)).emit (latin1 b)

/-- One byte, with the characters that have names given by `names`. -/
def step (names : List UInt8 → Option CodePoint) (d : Decoder) (b : UInt8) : Option Decoder :=
  match d.pending with
  | .none => some (stepPlain d b)
  | .escape => some (stepEscape d b)
  | .octal value left =>
    match octalDigit b with
    | some n =>
      if left = 1 then d.emitValue (value * 8 + n)
      else some { d with pending := .octal (value * 8 + n) (left - 1) }
    | none => (d.emitValue value).map fun d => stepPlain d b
  | .hex value left =>
    (hexDigit b).bind fun n =>
      if left = 1 then d.emitValue (value * 16 + n)
      else some { d with pending := .hex (value * 16 + n) (left - 1) }
  | .named => if b = openBrace then some { d with pending := .name [] } else none
  | .name read =>
    if b = closeBrace then (if read = [] then none else (names read).map d.emit)
    else some { d with pending := .name (read ++ [b]) }

/-- `bytes.decode("unicode_escape")`. -/
def decode (names : List UInt8 → Option CodePoint) (bs : List UInt8) : Option PyStr :=
  (run (step names) .start bs).bind fun d =>
    match d.pending with
    | .none => some d.out
    | .octal value _ => (d.emitValue value).map Decoder.out
    | _ => none

/-! ## The bytes of a character -/

theorem latin1_ofNat {c : CodePoint} (h : c.val < 0x80) : latin1 (UInt8.ofNat c.val) = c := by
  refine Fin.ext ?_
  rw [latin1, Fin.val_ofNat, UInt8.toNat_ofNat', Nat.mod_eq_of_lt (by omega : c.val < 2 ^ 8),
    Nat.mod_eq_of_lt c.isLt]

theorem latin1_val (b : UInt8) : (latin1 b).val = b.toNat := by
  have := b.toNat_lt
  rw [latin1, Fin.val_ofNat, Nat.mod_eq_of_lt (by omega)]

/-- A byte that is not ASCII has no part in an escape. -/
theorem high_byte {b : UInt8} (h : 0x80 ≤ b.toNat) :
    (letter b = none ∧ octalDigit b = none ∧ hexLength b = none ∧ hexDigit b = none) ∧
      b ≠ 0x0A ∧ b ≠ 0x4E ∧ b ≠ backslash ∧ b ≠ openBrace ∧ b ≠ closeBrace := by
  have table : ∀ n < 256, 0x80 ≤ n →
      (letter (UInt8.ofNat n) = none ∧ octalDigit (UInt8.ofNat n) = none ∧
        hexLength (UInt8.ofNat n) = none ∧ hexDigit (UInt8.ofNat n) = none) ∧
      UInt8.ofNat n ≠ 0x0A ∧ UInt8.ofNat n ≠ 0x4E ∧ UInt8.ofNat n ≠ backslash ∧
        UInt8.ofNat n ≠ openBrace ∧ UInt8.ofNat n ≠ closeBrace := by decide +kernel
  have hb := table b.toNat b.toNat_lt h
  rwa [UInt8.ofNat_toNat] at hb

section
variable {names : List UInt8 → Option CodePoint}

/-- What is decoded is what a run leaves, unless it leaves an escape cut short. -/
theorem decode_of_run {bs : List UInt8} {d : Decoder} (h : run (step names) .start bs = some d) :
    decode names bs =
      match d.pending with
      | .none => some d.out
      | .octal value _ => (d.emitValue value).map Decoder.out
      | _ => none := by
  unfold decode
  rw [h]
  rfl

theorem decode_of_run_none {bs : List UInt8} (h : run (step names) .start bs = none) :
    decode names bs = none := by
  unfold decode
  rw [h]
  rfl

theorem run_ascii {c : CodePoint} (h : c.val < 0x80) (d : Decoder) :
    run (step names) d (bytes [c]) = step names d (UInt8.ofNat c.val) := by
  rw [bytes_singleton_of_ascii h, run_singleton]

/-- Outside escapes such bytes are Latin-1 characters. -/
theorem run_high_plain (out : PyStr) : ∀ {bs : List UInt8}, (∀ b ∈ bs, 0x80 ≤ b.toNat) →
    run (step names) { out, pending := .none } bs =
      some { out := out ++ bs.map latin1, pending := .none }
  | [], _ => by rw [List.map_nil, List.append_nil]; rfl
  | b :: bs, h => by
    obtain ⟨hb, hbs⟩ := List.forall_mem_cons.mp h
    have hs : step names { out, pending := .none } b =
        some { out := out ++ [latin1 b], pending := .none } := by
      simp only [step, stepPlain, if_neg (high_byte hb).2.2.2.1]
      rfl
    rw [run, hs, Option.bind_some, run_high_plain _ hbs, List.append_assoc, List.map_cons,
      List.singleton_append]

/-- After a backslash they are too, and so is the backslash. -/
theorem run_high_escape (out : PyStr) {b : UInt8} {bs : List UInt8}
    (h : ∀ x ∈ b :: bs, 0x80 ≤ x.toNat) :
    run (step names) { out, pending := .escape } (b :: bs) =
      some { out := out ++ latin1 backslash :: (b :: bs).map latin1, pending := .none } := by
  obtain ⟨hb, hbs⟩ := List.forall_mem_cons.mp h
  obtain ⟨⟨hl, ho, hx, -⟩, hn, hN, -⟩ := high_byte hb
  have hs : step names { out, pending := .escape } b =
      some { out := out ++ [latin1 backslash] ++ [latin1 b], pending := .none } := by
    simp only [step, stepEscape, hl, ho, hx, if_neg hn, if_neg hN]
    rfl
  rw [run, hs, Option.bind_some, run_high_plain _ hbs]
  simp only [List.append_assoc, List.map_cons, List.cons_append, List.nil_append]

/-- They are read as part of a name. -/
theorem run_high_name (out : PyStr) : ∀ {bs : List UInt8} (read : List UInt8),
    (∀ b ∈ bs, 0x80 ≤ b.toNat) →
    run (step names) { out, pending := .name read } bs =
      some { out, pending := .name (read ++ bs) }
  | [], read, _ => by rw [List.append_nil]; rfl
  | b :: bs, read, h => by
    obtain ⟨hb, hbs⟩ := List.forall_mem_cons.mp h
    have hs : step names { out, pending := .name read } b =
        some { out, pending := .name (read ++ [b]) } := by
      simp only [step, if_neg (high_byte hb).2.2.2.2.2]
    rw [run, hs, Option.bind_some, run_high_name _ _ hbs, List.append_assoc, List.singleton_append]

/-- They end an octal escape. -/
theorem run_high_octal (out : PyStr) (value left : Nat) {b : UInt8} {bs : List UInt8}
    (h : ∀ x ∈ b :: bs, 0x80 ≤ x.toNat) :
    run (step names) { out, pending := .octal value left } (b :: bs) =
      (Decoder.emitValue { out, pending := .octal value left } value).map fun d =>
        { out := d.out ++ (b :: bs).map latin1, pending := .none } := by
  obtain ⟨hb, hbs⟩ := List.forall_mem_cons.mp h
  obtain ⟨⟨-, ho, -⟩, -, -, hslash, -⟩ := high_byte hb
  rw [run]
  simp only [step, ho, Decoder.emitValue]
  split
  · simp only [Option.map_some, Option.bind_some, stepPlain, if_neg hslash]
    rw [Decoder.emit, Decoder.emit, run_high_plain _ hbs, List.append_assoc, List.map_cons,
      List.singleton_append]
  · rfl

/-- They cut other escapes short. -/
theorem run_high_none {d : Decoder} {b : UInt8} {bs : List UInt8} (h : 0x80 ≤ b.toNat)
    (hd : d.pending = .named ∨ ∃ value left, d.pending = .hex value left) :
    run (step names) d (b :: bs) = none := by
  obtain ⟨⟨-, -, -, hx⟩, -, -, -, hopen, -⟩ := high_byte h
  rw [run]
  rcases hd with hd | ⟨value, left, hd⟩
  · simp only [step, hd, if_neg hopen, Option.bind_none]
  · simp only [step, hd, hx, Option.bind_none]

end

end Lib.UnicodeEscape
