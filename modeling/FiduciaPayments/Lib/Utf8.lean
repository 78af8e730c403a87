import Mathlib.Tactic.Common

/-!
# UTF-8

The bytes of a text. The encoding determines the text (`utf8_injective`). The
first character of bytes is read off their front (`readChar_eq_some_iff`), and
only a first byte can begin one (`exists_encodeChar`). An ASCII character is its
own byte (`encodeChar_of_ascii`) and every other character has no byte below
`0x80` (`le_of_mem_encodeChar`), so looking for an ASCII byte in the encoding is
looking for its character in the text (`mem_utf8_iff_of_ascii`).
-/

namespace Lib.Utf8

/-- The UTF-8 encoding of a text. -/
def utf8 (s : List Char) : List UInt8 := s.flatMap String.utf8EncodeChar

theorem utf8_cons (c : Char) (s : List Char) : utf8 (c :: s) = String.utf8EncodeChar c ++ utf8 s :=
  List.flatMap_cons

@[simp] theorem utf8_append (s t : List Char) : utf8 (s ++ t) = utf8 s ++ utf8 t :=
  List.flatMap_append

theorem utf8_injective : Function.Injective utf8 := by
  intro s t h
  have e : String.ofList s = String.ofList t := by
    rw [← String.toByteArray_inj, String.toByteArray_ofList, String.toByteArray_ofList,
      List.utf8Encode, List.utf8Encode]
    exact congrArg List.toByteArray h
  exact String.ofList_injective e

/-! ## Characters -/

/-- The character at the front of bytes. -/
def readChar (bs : List UInt8) : Option Char := bs.toByteArray.utf8DecodeChar? 0

theorem readChar_append (c : Char) (bs : List UInt8) :
    readChar (String.utf8EncodeChar c ++ bs) = some c := by
  rw [readChar, List.toByteArray_append]
  exact ByteArray.utf8DecodeChar?_utf8EncodeChar_append

theorem readChar_eq_some_iff {bs : List UInt8} {c : Char} :
    readChar bs = some c ↔ String.utf8EncodeChar c <+: bs := by
  refine ⟨fun h => ?_, fun ⟨r, h⟩ => h ▸ readChar_append c r⟩
  have hb := congrArg (fun b : ByteArray => b.data.toList)
    (String.toByteArray_utf8EncodeChar_of_utf8DecodeChar?_eq_some h)
  simp only [ByteArray.data_extract, Array.toList_extract, List.toList_data_toByteArray] at hb
  rw [hb, List.extract_eq_take_drop, List.drop_zero, List.toList_data_toByteArray]
  exact List.take_prefix _ _

theorem encodeChar_of_ascii {c : Char} (h : c.toNat < 0x80) :
    String.utf8EncodeChar c = [UInt8.ofNat c.toNat] := by
  rw [String.utf8EncodeChar, if_pos (show c.val.toNat ≤ 0x7f from Nat.le_of_lt_succ h)]
  rfl

/-- ASCII text is read back byte by byte. -/
theorem map_utf8_of_ascii : ∀ {s : List Char}, (∀ c ∈ s, c.toNat < 0x80) →
    (utf8 s).map (fun b => Char.ofNat b.toNat) = s
  | [], _ => rfl
  | c :: s, h => by
    obtain ⟨hc, hs⟩ := List.forall_mem_cons.mp h
    rw [utf8_cons, encodeChar_of_ascii hc, List.map_append, map_utf8_of_ascii hs,
      List.map_singleton, UInt8.toNat_ofNat', Nat.mod_eq_of_lt (by omega), Char.ofNat_toNat, List.singleton_append]

/-- A lead or continuation byte of a longer encoding is not ASCII. -/
theorem le_of_mem_encodeChar {c : Char} {b : UInt8} (hc : 0x80 ≤ c.toNat)
    (h : b ∈ String.utf8EncodeChar c) : 0x80 ≤ b.toNat := by
  have byte : ∀ n k : Nat, 0x80 ≤ k → n + k < 256 → b = UInt8.ofNat (n + k) → 0x80 ≤ b.toNat := by
    intro n k hk hlt hb
    rw [hb, UInt8.toNat_ofNat', Nat.mod_eq_of_lt hlt]
    omega
  simp only [String.utf8EncodeChar] at h
  rw [if_neg (show ¬ c.val.toNat ≤ 0x7f from Nat.not_le.mpr hc)] at h
  split at h
  · simp only [List.mem_cons, List.not_mem_nil, or_false] at h
    rcases h with h | h
    all_goals exact byte _ _ (by decide) (by omega) h
  split at h
  all_goals simp only [List.mem_cons, List.not_mem_nil, or_false] at h
  · rcases h with h | h | h
    all_goals exact byte _ _ (by decide) (by omega) h
  · rcases h with h | h | h | h
    all_goals exact byte _ _ (by decide) (by omega) h

/-- A byte within a longer encoding, after the first. -/
def IsContinuation (b : UInt8) : Prop := 0x80 ≤ b.toNat ∧ b.toNat < 0xC0

/-- The first byte of an encoding tells that it is the first. -/
theorem exists_encodeChar (c : Char) : ∃ b bs, String.utf8EncodeChar c = b :: bs ∧
    ¬ IsContinuation b ∧ ∀ d ∈ bs, IsContinuation d := by
  have hlt : c.val.toNat < 0x110000 := by
    rcases c.valid with h | ⟨-, h⟩
    · exact Nat.lt_trans h (by decide)
    · exact h
  have byte : ∀ n : Nat, n < 256 → (UInt8.ofNat n).toNat = n := fun n h => by
    rw [UInt8.toNat_ofNat', Nat.mod_eq_of_lt h]
  have hcont : ∀ n, IsContinuation (UInt8.ofNat (n % 64 + 0x80)) := fun n => by
    unfold IsContinuation
    rw [byte _ (by omega)]
    omega
  have hlead : ∀ n, n < 256 → (n < 0x80 ∨ 0xC0 ≤ n) → ¬ IsContinuation (UInt8.ofNat n) :=
    fun n hn h => by
      unfold IsContinuation
      rw [byte n hn]
      omega
  simp only [String.utf8EncodeChar]
  split
  · exact ⟨_, _, rfl, hlead _ (by omega) (by omega), nofun⟩
  split
  · exact ⟨_, _, rfl, hlead _ (by omega) (by omega),
      List.forall_mem_singleton.mpr (hcont _)⟩
  split
  · exact ⟨_, _, rfl, hlead _ (by omega) (by omega),
      List.forall_mem_cons.mpr ⟨hcont _, List.forall_mem_singleton.mpr (hcont _)⟩⟩
  · exact ⟨_, _, rfl, hlead _ (by omega) (by omega), List.forall_mem_cons.mpr
      ⟨hcont _, List.forall_mem_cons.mpr ⟨hcont _, List.forall_mem_singleton.mpr (hcont _)⟩⟩⟩

theorem two_le_length_encodeChar {c : Char} (hc : 0x80 ≤ c.toNat) :
    2 ≤ (String.utf8EncodeChar c).length := by
  simp only [String.utf8EncodeChar]
  rw [if_neg (show ¬ c.val.toNat ≤ 0x7f from Nat.not_le.mpr hc)]
  split
  · exact Nat.le_refl 2
  split
  · show 2 ≤ 3
    omega
  · show 2 ≤ 4
    omega

/-- An ASCII byte of the encoding is an ASCII character of the text. -/
theorem mem_utf8_iff_of_ascii {s : List Char} {c : Char} (hc : c.toNat < 0x80) :
    UInt8.ofNat c.toNat ∈ utf8 s ↔ c ∈ s := by
  have hb : (UInt8.ofNat c.toNat).toNat = c.toNat := by
    rw [UInt8.toNat_ofNat', Nat.mod_eq_of_lt (by omega)]
  unfold utf8
  rw [List.mem_flatMap]
  refine ⟨fun ⟨d, hd, h⟩ => ?_, fun h => ⟨c, h, ?_⟩⟩
  · by_cases hlt : d.toNat < 0x80
    · rw [encodeChar_of_ascii hlt, List.mem_singleton] at h
      have e := congrArg UInt8.toNat h
      rw [hb, UInt8.toNat_ofNat', Nat.mod_eq_of_lt (by omega)] at e
      rwa [Char.toNat_inj.mp e]
    · have := le_of_mem_encodeChar (Nat.not_lt.mp hlt) h
      omega
  · rw [encodeChar_of_ascii hc]
    exact List.mem_singleton_self _

end Lib.Utf8
