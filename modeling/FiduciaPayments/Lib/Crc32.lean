import Mathlib.Data.Fintype.EquivFin
import Mathlib.Logic.Function.Iterate
import Mathlib.Tactic.Common

/-!
# CRC-32

The IEEE checksum: reflected, polynomial `0xEDB88320`, initial value and
final mask all ones. A change within four consecutive bytes is seen
(`hash_window_inj`), and any checksum can be had by the choice of four
(`exists_window`).
-/

namespace Lib.Crc32

/-- One bit of the division by the polynomial. -/
def bitStep (crc : BitVec 32) : BitVec 32 :=
  if crc.getLsbD 0 then (crc >>> 1) ^^^ 0xEDB88320#32 else crc >>> 1

/-- One byte: its bits are xored into the low end and divided out. -/
def byteStep (crc : BitVec 32) (b : UInt8) : BitVec 32 :=
  bitStep (bitStep (bitStep (bitStep (bitStep (bitStep (bitStep (bitStep
    (crc ^^^ b.toBitVec.setWidth 32))))))))

/-- The register after a byte string. -/
def register (bs : List UInt8) : BitVec 32 := bs.foldl byteStep 0xFFFFFFFF#32

/-- The checksum of a byte string. -/
def hash (bs : List UInt8) : UInt32 := ⟨register bs ^^^ 0xFFFFFFFF#32⟩

/-- The check value of the algorithm: the checksum of `123456789`. -/
example : hash [0x31, 0x32, 0x33, 0x34, 0x35, 0x36, 0x37, 0x38, 0x39] = 0xCBF43926 := by
  decide +kernel

/-! ## The division

A step is linear in exclusive or, and nothing is lost in it. -/

theorem bitStep_xor (x y : BitVec 32) : bitStep (x ^^^ y) = bitStep x ^^^ bitStep y := by
  have hcancel (a b p : BitVec 32) : a ^^^ p ^^^ (b ^^^ p) = a ^^^ b := by
    rw [BitVec.xor_assoc, BitVec.xor_comm b p, ← BitVec.xor_assoc p p b, BitVec.xor_self,
      BitVec.zero_xor]
  simp only [bitStep, BitVec.getLsbD_xor, BitVec.ushiftRight_xor_distrib]
  rcases x.getLsbD 0 with _ | _ <;> rcases y.getLsbD 0 with _ | _
  · rfl
  · exact BitVec.xor_assoc ..
  · show (x >>> 1) ^^^ (y >>> 1) ^^^ 0xEDB88320#32 = (x >>> 1) ^^^ 0xEDB88320#32 ^^^ (y >>> 1)
    rw [BitVec.xor_assoc, BitVec.xor_comm (y >>> 1), ← BitVec.xor_assoc]
  · exact (hcancel ..).symm

/-- The polynomial has the highest bit, which no shift leaves. -/
theorem bitStep_eq_zero {x : BitVec 32} (h : bitStep x = 0#32) : x = 0#32 := by
  unfold bitStep at h
  split at h
  · have hbit := congrArg (·.getLsbD 31) h
    simp at hbit
  · rename_i hlow
    refine BitVec.eq_of_getLsbD_eq fun i hi => ?_
    match i with
    | 0 => simpa using hlow
    | i + 1 =>
      have hbit := congrArg (·.getLsbD i) h
      simpa [Nat.add_comm] using hbit

theorem bitStep_injective : Function.Injective bitStep := by
  intro x y h
  rw [← BitVec.xor_eq_zero_iff]
  apply bitStep_eq_zero
  rw [bitStep_xor, h, BitVec.xor_self]

theorem iterate_xor (n : Nat) (x y : BitVec 32) :
    bitStep^[n] (x ^^^ y) = bitStep^[n] x ^^^ bitStep^[n] y := by
  induction n generalizing x y with
  | zero => rfl
  | succ n ih => rw [Function.iterate_succ_apply, bitStep_xor, ih]; rfl

/-- Low bits that are clear are shifted out. -/
theorem iterate_of_clear {x : BitVec 32} : ∀ {n : Nat}, (∀ i < n, x.getLsbD i = false) →
    bitStep^[n] x = x >>> n
  | 0, _ => by simp
  | n + 1, h => by
    have ih := iterate_of_clear fun i hi => h i (Nat.lt_succ_of_lt hi)
    have hlow : (x >>> n).getLsbD 0 = false := by simpa using h n (Nat.lt_succ_self n)
    rw [Function.iterate_succ_apply', ih, bitStep, if_neg (by rw [hlow]; decide),
      BitVec.shiftRight_add]

/-! ## Windows

Up to four bytes enter the register together. -/

/-- The register after more bytes. -/
def feed (r : BitVec 32) (bs : List UInt8) : BitVec 32 := bs.foldl byteStep r

theorem byteStep_eq (crc : BitVec 32) (b : UInt8) :
    byteStep crc b = bitStep^[8] (crc ^^^ b.toBitVec.setWidth 32) := rfl

/-- Bytes as a number, the first one lowest. -/
def word : List UInt8 → BitVec 32
  | [] => 0#32
  | b :: bs => b.toBitVec.setWidth 32 ^^^ word bs <<< 8

theorem word_high : ∀ (bs : List UInt8) {i : Nat}, 8 * bs.length ≤ i → (word bs).getLsbD i = false
  | [], i, _ => by simp [word]
  | b :: bs, i, h => by
    rw [List.length_cons] at h
    have ih := word_high bs (i := i - 8) (by omega)
    rw [word, BitVec.getLsbD_xor, BitVec.getLsbD_setWidth, BitVec.getLsbD_shiftLeft, ih,
      BitVec.getLsbD_of_ge b.toBitVec i (by omega)]
    simp

theorem word_shift (bs : List UInt8) (h : bs.length ≤ 3) :
    bitStep^[8] (word bs <<< 8) = word bs := by
  rw [iterate_of_clear fun i hi => by simp [hi]]
  refine BitVec.eq_of_getLsbD_eq fun i hi => ?_
  rw [BitVec.getLsbD_ushiftRight, BitVec.getLsbD_shiftLeft]
  by_cases hhi : 8 + i < 32
  · simp [hhi]
  · rw [word_high bs (i := i) (by omega)]
    simp [hhi]

/-- A window of up to four bytes is divided as one word. -/
theorem feed_eq : ∀ {w : List UInt8} {r : BitVec 32}, w.length ≤ 4 →
    feed r w = bitStep^[8 * w.length] (r ^^^ word w)
  | [], r, _ => by simp [feed, word]
  | b :: bs, r, h => by
    rw [List.length_cons] at h
    show feed (byteStep r b) bs = _
    rw [feed_eq (by omega), byteStep_eq, ← word_shift bs (by omega), ← iterate_xor,
      ← Function.iterate_add_apply, word, List.length_cons, BitVec.xor_assoc]
    rfl

theorem word_inj : ∀ {w w' : List UInt8}, w.length ≤ 4 → w.length = w'.length →
    word w = word w' → w = w'
  | [], [], _, _, _ => rfl
  | b :: bs, b' :: bs', h, hl, he => by
    rw [List.length_cons] at h
    have hl : bs.length = bs'.length := Nat.succ.inj hl
    have bit (i : Nat) := congrArg (·.getLsbD i) he
    simp only [word, BitVec.getLsbD_xor, BitVec.getLsbD_setWidth, BitVec.getLsbD_shiftLeft] at bit
    have hb : b = b' := by
      refine UInt8.eq_of_toBitVec_eq (BitVec.eq_of_getLsbD_eq fun i hi => ?_)
      have := bit i
      simpa [hi, show i < 32 by omega] using this
    have hbs : word bs = word bs' := by
      refine BitVec.eq_of_getLsbD_eq fun i hi => ?_
      by_cases hhi : 8 + i < 32
      · have := bit (8 + i)
        simpa [hb, hhi, show ¬ 8 + i < 8 by omega] using this
      · rw [word_high bs (by omega), word_high bs' (by omega)]
    rw [hb, word_inj (by omega) hl hbs]

theorem byteStep_injective (b : UInt8) : Function.Injective (byteStep · b) := fun _ _ h =>
  (BitVec.xor_left_inj _).mp (bitStep_injective.iterate 8 h)

theorem feed_injective : ∀ bs : List UInt8, Function.Injective (feed · bs)
  | [] => fun _ _ h => h
  | b :: bs => fun _ _ h => byteStep_injective b (feed_injective bs h)

instance instFiniteRegister : Finite (BitVec 32) :=
  Finite.of_injective BitVec.toFin fun _ _ => BitVec.eq_of_toFin_eq

theorem exists_feed (bs : List UInt8) (r : BitVec 32) : ∃ r', feed r' bs = r :=
  Finite.injective_iff_surjective.mp (feed_injective bs) r

/-- The bytes of a number, the lowest first. -/
def bytesOf (x : BitVec 32) : List UInt8 :=
  [⟨x.extractLsb' 0 8⟩, ⟨x.extractLsb' 8 8⟩, ⟨x.extractLsb' 16 8⟩, ⟨x.extractLsb' 24 8⟩]

theorem word_bytesOf (x : BitVec 32) : word (bytesOf x) = x := by
  refine BitVec.eq_of_getLsbD_eq fun i hi => ?_
  simp only [bytesOf, word, BitVec.getLsbD_xor, BitVec.getLsbD_setWidth, BitVec.getLsbD_shiftLeft,
    BitVec.getLsbD_extractLsb', BitVec.getLsbD_zero]
  have hpart : i < 8 ∨ 8 ≤ i ∧ i < 16 ∨ 16 ≤ i ∧ i < 24 ∨ 24 ≤ i := by omega
  rcases hpart with h | h | h | h
  · simp [hi, h]
  · simp [hi, show i - 8 < 8 by omega, show ¬ i < 8 by omega, show 8 + (i - 8) = i by omega,
      show i - 8 < 32 by omega]
  · simp [hi, show ¬ i < 8 by omega, show ¬ i - 8 < 8 by omega, show i - 8 - 8 < 8 by omega,
      show 16 + (i - 8 - 8) = i by omega, show i - 8 < 32 by omega, show i - 8 - 8 < 32 by omega]
  · simp [hi, show ¬ i < 8 by omega, show ¬ i - 8 < 8 by omega, show ¬ i - 8 - 8 < 8 by omega,
      show 24 + (i - 8 - 8 - 8) = i by omega, show i - 8 < 32 by omega,
      show i - 8 - 8 < 32 by omega, show i - 8 - 8 - 8 < 8 by omega,
      show i - 8 - 8 - 8 < 32 by omega]

theorem register_append (p s : List UInt8) : register (p ++ s) = feed (register p) s :=
  List.foldl_append

theorem hash_inj {p s : List UInt8} : hash p = hash s ↔ register p = register s := by
  refine ⟨fun h => ?_, fun h => by rw [hash, hash, h]⟩
  exact (BitVec.xor_left_inj _).mp (congrArg UInt32.toBitVec h)

/-- A change within four bytes is seen. -/
theorem hash_window_inj {p w w' s : List UInt8} (hl : w.length = w'.length) (h4 : w.length ≤ 4) :
    hash (p ++ w ++ s) = hash (p ++ w' ++ s) ↔ w = w' := by
  refine ⟨fun h => ?_, fun h => by rw [h]⟩
  rw [hash_inj, register_append (p ++ w), register_append (p ++ w')] at h
  have h : register (p ++ w) = register (p ++ w') := feed_injective s h
  rw [register_append, register_append, feed_eq h4, feed_eq (hl ▸ h4), ← hl] at h
  exact word_inj h4 hl ((BitVec.xor_right_inj _).mp (bitStep_injective.iterate _ h))

/-- Four bytes give every checksum. -/
theorem exists_window (p s : List UInt8) (sum : UInt32) :
    ∃ w : List UInt8, w.length = 4 ∧ hash (p ++ w ++ s) = sum := by
  obtain ⟨r, hr⟩ := exists_feed s (sum.toBitVec ^^^ 0xFFFFFFFF#32)
  obtain ⟨x, hx⟩ := (Finite.injective_iff_surjective.mp (bitStep_injective.iterate 32)) r
  refine ⟨bytesOf (register p ^^^ x), rfl, ?_⟩
  have hw : register (p ++ bytesOf (register p ^^^ x)) = r := by
    rw [register_append, feed_eq (show (bytesOf _).length ≤ 4 from Nat.le_refl 4), word_bytesOf,
      ← BitVec.xor_assoc, BitVec.xor_self, BitVec.zero_xor]
    exact hx
  refine UInt32.eq_of_toBitVec_eq ?_
  show register (p ++ _ ++ s) ^^^ 0xFFFFFFFF#32 = sum.toBitVec
  rw [register_append, hw, hr, BitVec.xor_assoc, BitVec.xor_self, BitVec.xor_zero]

end Lib.Crc32
