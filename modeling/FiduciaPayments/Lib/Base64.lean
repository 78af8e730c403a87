import Mathlib.Tactic.Common

/-!
# Base64

The standard alphabet with padding. `decode_encode`: what is encoded is
decoded; `encode_ascii`: the encoding is text without blanks or controls.
-/

namespace Lib.Base64

/-- The character of a 6-bit value. -/
def sextet (n : Nat) : Char :=
  if n < 26 then Char.ofNat ('A'.toNat + n)
  else if n < 52 then Char.ofNat ('a'.toNat + (n - 26))
  else if n < 62 then Char.ofNat ('0'.toNat + (n - 52))
  else if n = 62 then '+' else '/'

/-- The 6-bit value of a character. -/
def sextetValue (c : Char) : Option Nat := (List.range 64).find? fun n => sextet n = c

/-- Three bytes are four characters; one or two left over are padded with
`=`. -/
def encode : List UInt8 → List Char
  | [] => []
  | [a] => [sextet (a.toNat / 4), sextet (a.toNat % 4 * 16), '=', '=']
  | [a, b] =>
    [sextet (a.toNat / 4), sextet (a.toNat % 4 * 16 + b.toNat / 16), sextet (b.toNat % 16 * 4), '=']
  | a :: b :: c :: rest =>
    sextet (a.toNat / 4) :: sextet (a.toNat % 4 * 16 + b.toNat / 16) ::
      sextet (b.toNat % 16 * 4 + c.toNat / 64) :: sextet (c.toNat % 64) :: encode rest

/-- The bytes of a padded group of two or three characters. -/
def decodePadded (w x : Nat) : Option Nat → Option (List UInt8)
  | none => if x % 16 = 0 then some [UInt8.ofNat (w * 4 + x / 16)] else none
  | some y =>
    if y % 4 = 0 then some [UInt8.ofNat (w * 4 + x / 16), UInt8.ofNat (x % 16 * 16 + y / 4)]
    else none

/-- The bytes of an encoding: padding only at the end, and no stray bits. -/
def decode : List Char → Option (List UInt8)
  | [] => some []
  | c₀ :: c₁ :: c₂ :: c₃ :: rest =>
    match sextetValue c₀, sextetValue c₁ with
    | some w, some x =>
      if c₃ = '=' then
        if rest ≠ [] then none
        else if c₂ = '=' then decodePadded w x none
        else (sextetValue c₂).bind fun y => decodePadded w x (some y)
      else
        match sextetValue c₂, sextetValue c₃, decode rest with
        | some y, some z, some bs =>
          some (UInt8.ofNat (w * 4 + x / 16) :: UInt8.ofNat (x % 16 * 16 + y / 4) ::
            UInt8.ofNat (y % 4 * 64 + z) :: bs)
        | _, _, _ => none
    | _, _ => none
  | _ => none

theorem sextetValue_sextet : ∀ n < 64, sextetValue (sextet n) = some n := by decide

theorem sextet_ne_pad : ∀ n < 64, sextet n ≠ '=' := by decide

theorem toNat_sextet : ∀ n < 64, 0x2b ≤ (sextet n).toNat ∧ (sextet n).toNat < 0x80 := by decide

theorem ofNat_eq {b : UInt8} {n : Nat} (h : n = b.toNat) : UInt8.ofNat n = b := by
  rw [h, UInt8.ofNat_toNat]

/-- What is encoded is decoded. -/
theorem decode_encode : ∀ bs : List UInt8, decode (encode bs) = some bs
  | [] => rfl
  | [a] => by
    have ha := a.toNat_lt
    unfold encode decode
    rw [sextetValue_sextet _ (by omega), sextetValue_sextet _ (by omega)]
    simp only [ne_eq, not_true_eq_false, ite_false, ite_true, decodePadded]
    rw [if_pos (by omega), ofNat_eq (b := a) (by omega)]
  | [a, b] => by
    have ha := a.toNat_lt
    have hb := b.toNat_lt
    unfold encode decode
    rw [sextetValue_sextet _ (by omega), sextetValue_sextet _ (by omega)]
    simp only [ne_eq, not_true_eq_false, ite_false, ite_true, sextet_ne_pad _ (show
      b.toNat % 16 * 4 < 64 by omega), sextetValue_sextet _ (show b.toNat % 16 * 4 < 64 by omega),
      Option.bind_some, decodePadded]
    rw [if_pos (by omega), ofNat_eq (b := a) (by omega), ofNat_eq (b := b) (by omega)]
  | a :: b :: c :: rest => by
    have ha := a.toNat_lt
    have hb := b.toNat_lt
    have hc := c.toNat_lt
    unfold encode decode
    rw [sextetValue_sextet _ (by omega), sextetValue_sextet _ (by omega)]
    simp only [sextet_ne_pad _ (show c.toNat % 64 < 64 by omega), ite_false]
    rw [sextetValue_sextet _ (by omega), sextetValue_sextet _ (by omega), decode_encode rest]
    simp only
    rw [ofNat_eq (b := a) (by omega), ofNat_eq (b := b) (by omega), ofNat_eq (b := c) (by omega)]

/-- The encoding has printable ASCII characters only, none below `+`. -/
theorem encode_ascii : ∀ (bs : List UInt8), ∀ c ∈ encode bs, 0x2b ≤ c.toNat ∧ c.toNat < 0x80
  | [], c, h => by cases h
  | [a], c, h => by
    have ha := a.toNat_lt
    simp only [encode, List.mem_cons, List.not_mem_nil, or_false] at h
    rcases h with rfl | rfl | rfl | rfl
    all_goals first | exact toNat_sextet _ (by omega) | decide
  | [a, b], c, h => by
    have ha := a.toNat_lt
    have hb := b.toNat_lt
    simp only [encode, List.mem_cons, List.not_mem_nil, or_false] at h
    rcases h with rfl | rfl | rfl | rfl
    all_goals first | exact toNat_sextet _ (by omega) | decide
  | a :: b :: d :: rest, c, h => by
    have ha := a.toNat_lt
    have hb := b.toNat_lt
    have hd := d.toNat_lt
    simp only [encode, List.mem_cons] at h
    rcases h with rfl | rfl | rfl | rfl | h
    · exact toNat_sextet _ (by omega)
    · exact toNat_sextet _ (by omega)
    · exact toNat_sextet _ (by omega)
    · exact toNat_sextet _ (by omega)
    · exact encode_ascii rest c h

end Lib.Base64
