import Mathlib.Tactic.Common

/-!
# Hexadecimal

`Spells s bs`: the text `s` is the hexadecimal form of the bytes `bs`, two
digits a byte, in either case and mixed. The executable `decode` accepts
exactly the spellings (`decode_eq_some_iff`).
-/

namespace Lib.Hex

/-- The lower-case hexadecimal form. -/
def encode (bs : List UInt8) : List Char :=
  bs.flatMap fun b => [(b.toNat / 16).digitChar, (b.toNat % 16).digitChar]

/-- `s` is a hexadecimal form of `bs`, up to the case of its letters. -/
def Spells (s : List Char) (bs : List UInt8) : Prop := s.map Char.toLower = encode bs

instance (s : List Char) (bs : List UInt8) : Decidable (Spells s bs) :=
  inferInstanceAs (Decidable (_ = _))

/-- The value of a hexadecimal digit of either case. -/
def digitValue (c : Char) : Option Nat := (List.range 16).find? fun n => n.digitChar = c.toLower

/-- The bytes a text spells. -/
def decode : List Char → Option (List UInt8)
  | [] => some []
  | [_] => none
  | h :: l :: s =>
    match digitValue h, digitValue l, decode s with
    | some hi, some lo, some bs => some (UInt8.ofNat (16 * hi + lo) :: bs)
    | _, _, _ => none

theorem encode_cons (b : UInt8) (bs : List UInt8) :
    encode (b :: bs) = (b.toNat / 16).digitChar :: (b.toNat % 16).digitChar :: encode bs := rfl

theorem length_encode (bs : List UInt8) : (encode bs).length = 2 * bs.length := by
  induction bs with
  | nil => rfl
  | cons b bs ih =>
    rw [encode_cons, List.length_cons, List.length_cons, List.length_cons, ih]
    omega

/-- The characters of an encoding are digits. -/
theorem mem_encode {bs : List UInt8} {c : Char} (h : c ∈ encode bs) :
    ∃ n < 16, c = n.digitChar := by
  obtain ⟨b, -, hc⟩ := List.mem_flatMap.mp h
  have hb := b.toNat_lt
  simp only [List.mem_cons, List.not_mem_nil, or_false] at hc
  rcases hc with rfl | rfl
  · exact ⟨_, by omega, rfl⟩
  · exact ⟨_, by omega, rfl⟩

theorem digitChar_inj : ∀ m < 16, ∀ n < 16, m.digitChar = n.digitChar → m = n := by decide

theorem toLower_digitChar : ∀ n < 16, n.digitChar.toLower = n.digitChar := by decide

theorem toLower_toUpper_digitChar : ∀ n < 16, n.digitChar.toUpper.toLower = n.digitChar := by
  decide

theorem digitValue_eq_some_iff {c : Char} {n : Nat} :
    digitValue c = some n ↔ n < 16 ∧ n.digitChar = c.toLower := by
  refine ⟨fun h => ⟨List.mem_range.mp (List.mem_of_find?_eq_some h), ?_⟩, fun ⟨hn, hc⟩ => ?_⟩
  · simpa using List.find?_some h
  · cases h : digitValue c with
    | none =>
      exact absurd (decide_eq_true hc) (List.find?_eq_none.mp h n (List.mem_range.mpr hn))
    | some m =>
      have hm : m.digitChar = c.toLower := by simpa using List.find?_some h
      have := List.mem_range.mp (List.mem_of_find?_eq_some h)
      rw [digitChar_inj m this n hn (hm.trans hc.symm)]

/-- The spellings of a byte string: two digits for its first byte, then a
spelling of the rest. -/
theorem spells_cons {s : List Char} {b : UInt8} {bs : List UInt8} :
    Spells s (b :: bs) ↔ ∃ h l t, s = h :: l :: t ∧ (b.toNat / 16).digitChar = h.toLower ∧
      (b.toNat % 16).digitChar = l.toLower ∧ Spells t bs := by
  refine ⟨fun hs => ?_, fun ⟨h, l, t, e, hh, hl, ht⟩ => ?_⟩
  · match s, hs with
    | [], hs => simp [Spells, encode_cons] at hs
    | [_], hs => simp [Spells, encode_cons] at hs
    | h :: l :: t, hs =>
      simp only [Spells, encode_cons, List.map_cons, List.cons.injEq] at hs
      exact ⟨h, l, t, rfl, hs.1.symm, hs.2.1.symm, hs.2.2⟩
  · subst e
    simp only [Spells, encode_cons, List.map_cons, hh, hl]
    rw [ht]

/-- Decoding accepts exactly the spellings, and returns the bytes spelt. -/
theorem decode_eq_some_iff (s : List Char) (bs : List UInt8) :
    decode s = some bs ↔ Spells s bs := by
  match s with
  | [] => cases bs <;> simp [decode, Spells, encode]
  | [c] =>
    cases bs with
    | nil => simp [decode, Spells, encode]
    | cons b bs => simp [decode, Spells, encode_cons]
  | h :: l :: t =>
    have ih := decode_eq_some_iff t
    rw [decode.eq_3]
    refine ⟨fun hd => ?_, fun hs => ?_⟩
    · split at hd
      · rename_i hi lo bs' ehi elo et
        obtain rfl := Option.some.inj hd
        obtain ⟨hhi, ehi⟩ := digitValue_eq_some_iff.mp ehi
        obtain ⟨hlo, elo⟩ := digitValue_eq_some_iff.mp elo
        have e : (UInt8.ofNat (16 * hi + lo)).toNat = 16 * hi + lo := by
          rw [UInt8.toNat_ofNat']
          omega
        refine spells_cons.mpr ⟨h, l, t, rfl, ?_, ?_, (ih _).mp et⟩
        · rw [e, ← ehi, show (16 * hi + lo) / 16 = hi by omega]
        · rw [e, ← elo, show (16 * hi + lo) % 16 = lo by omega]
      · simp at hd
    · cases bs with
      | nil => simp [Spells, encode] at hs
      | cons b bs =>
        obtain ⟨h', l', t', e, hh, hl, ht⟩ := spells_cons.mp hs
        cases e
        have hb := b.toNat_lt
        rw [digitValue_eq_some_iff.mpr ⟨by omega, hh⟩, digitValue_eq_some_iff.mpr ⟨by omega, hl⟩,
          (ih bs).mpr ht]
        simp only [show 16 * (b.toNat / 16) + b.toNat % 16 = b.toNat by omega, UInt8.ofNat_toNat]

/-- The lower-case form is a spelling. -/
theorem spells_encode (bs : List UInt8) : Spells (encode bs) bs := by
  induction bs with
  | nil => rfl
  | cons b bs ih =>
    have hb := b.toNat_lt
    exact spells_cons.mpr ⟨_, _, _, rfl, (toLower_digitChar _ (by omega)).symm,
      (toLower_digitChar _ (by omega)).symm, ih⟩

/-- The upper-case form is a spelling. -/
theorem spells_upper (bs : List UInt8) : Spells ((encode bs).map Char.toUpper) bs := by
  induction bs with
  | nil => rfl
  | cons b bs ih =>
    have hb := b.toNat_lt
    exact spells_cons.mpr ⟨_, _, _, rfl, (toLower_toUpper_digitChar _ (by omega)).symm,
      (toLower_toUpper_digitChar _ (by omega)).symm, ih⟩

end Lib.Hex
