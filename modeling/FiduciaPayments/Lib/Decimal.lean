import Mathlib.Data.List.Basic
import Mathlib.Data.List.Induction
import Mathlib.Tactic.Common

/-!
# Signed decimals within bounds

A signed machine integer is printed without padding and read back with
checked arithmetic: an optional sign, then digits, each step refused when it
leaves the type. Over any bounds `lo ≤ 0 ≤ hi`:

* `parse_eq_some_iff`: the reader accepts exactly the texts that denote a
  number within the bounds (`Denotes`), however many zeros they lead with;
* `parse_render`: what is printed is read back;
* `render_injective`, `isDigit_or_minus_of_mem_render`: the printed form
  determines the number and has only digits and `-`;
* `render_eq_iff_canonical`: of the texts that denote a number, the printed
  one is the canonical one.
-/

namespace Lib.Decimal

/-- The value of a decimal digit. -/
def digitValue (c : Char) : Nat := c.toNat - '0'.toNat

/-- The digits of a number read left to right onto `acc`, negated when
`negative`, or `none` at the first character that is not a digit or the first
product or sum out of bounds. -/
def parseDigits (lo hi : Int) (negative : Bool) : Int → List Char → Option Int
  | acc, [] => some acc
  | acc, c :: cs =>
    if c.isDigit then
      let mul := acc * 10
      if lo ≤ mul ∧ mul ≤ hi then
        let sum := if negative then mul - digitValue c else mul + digitValue c
        if lo ≤ sum ∧ sum ≤ hi then parseDigits lo hi negative sum cs else none
      else none
    else none

/-- Rust's `from_str` of a signed integer type with the bounds `lo` and `hi`:
an optional sign, then at least one digit. -/
def parse (lo hi : Int) : List Char → Option Int
  | [] => none
  | ['+'] => none
  | ['-'] => none
  | '+' :: digits => parseDigits lo hi false 0 digits
  | '-' :: digits => parseDigits lo hi true 0 digits
  | digits => parseDigits lo hi false 0 digits

/-- The printed form: the digits without leading zeros, after `-` when
negative. -/
def render (n : Int) : List Char :=
  if n < 0 then '-' :: Nat.toDigits 10 n.natAbs else Nat.toDigits 10 n.natAbs

/-- The text is an optional sign and one or more digits, whose value is `n`. -/
def Denotes (s : List Char) (n : Int) : Prop :=
  ∃ sign digits, s = sign ++ digits ∧ digits ≠ [] ∧ (∀ c ∈ digits, c.isDigit) ∧
    ((sign = [] ∨ sign = ['+']) ∧ n = Nat.ofDigitChars 10 digits 0 ∨
      sign = ['-'] ∧ n = -Nat.ofDigitChars 10 digits 0)

/-! ## Digits -/

theorem le_ofDigitChars (cs : List Char) (acc : Nat) : acc ≤ Nat.ofDigitChars 10 cs acc := by
  induction cs generalizing acc with
  | nil => exact Nat.le_refl _
  | cons c cs ih =>
    rw [Nat.ofDigitChars_cons]
    exact Nat.le_trans (by omega) (ih _)

/-- The number with the magnitude `m`, negated when `negative`. -/
def signed (negative : Bool) (m : Nat) : Int := if negative then -m else m

/-- Bounds around zero that hold a number hold every smaller magnitude of
the same sign. -/
theorem signed_within {lo hi : Int} (hlo : lo ≤ 0) (hhi : 0 ≤ hi) (negative : Bool) {m m' : Nat}
    (hm : m ≤ m') (h : lo ≤ signed negative m' ∧ signed negative m' ≤ hi) :
    lo ≤ signed negative m ∧ signed negative m ≤ hi := by
  cases negative <;> simp only [signed, ite_true, Bool.false_eq_true, ite_false] at h ⊢ <;> omega

/-- Checked reading loses no number that fits: every partial value is within
the magnitude of the whole. -/
theorem parseDigits_eq_some_iff {lo hi : Int} (hlo : lo ≤ 0) (hhi : 0 ≤ hi) (negative : Bool)
    (n : Int) (cs : List Char) {acc : Nat}
    (hacc : lo ≤ signed negative acc ∧ signed negative acc ≤ hi) :
    parseDigits lo hi negative (signed negative acc) cs = some n ↔
      (∀ c ∈ cs, c.isDigit) ∧ n = signed negative (Nat.ofDigitChars 10 cs acc) ∧
        lo ≤ n ∧ n ≤ hi := by
  induction cs generalizing acc with
  | nil =>
    simp only [parseDigits, Nat.ofDigitChars_nil, List.not_mem_nil, Option.some.injEq]
    refine ⟨fun h => ?_, fun h => h.2.1.symm⟩
    subst h
    exact ⟨nofun, rfl, hacc⟩
  | cons c cs ih =>
    have hle := le_ofDigitChars cs (10 * acc + digitValue c)
    have hmul : signed negative acc * 10 = signed negative (10 * acc) := by
      cases negative <;> simp only [signed, ite_true, Bool.false_eq_true, ite_false] <;> omega
    have hsum : (if negative then signed negative (10 * acc) - digitValue c
        else signed negative (10 * acc) + digitValue c) =
        signed negative (10 * acc + digitValue c) := by
      cases negative <;> simp only [signed, ite_true, Bool.false_eq_true, ite_false] <;> omega
    unfold parseDigits
    rw [Nat.ofDigitChars_cons, List.forall_mem_cons]
    simp only [hmul, hsum]
    by_cases hd : c.isDigit
    · by_cases hfit : lo ≤ signed negative (10 * acc + digitValue c) ∧
          signed negative (10 * acc + digitValue c) ≤ hi
      · have hfit' := signed_within hlo hhi negative (Nat.le_add_right _ _) hfit
        rw [if_pos hd, if_pos hfit', if_pos hfit, ih hfit]
        simp only [hd, true_and]
        rfl
      · -- A sum out of bounds: the whole is at least as large.
        have hno : ¬ (lo ≤ signed negative (Nat.ofDigitChars 10 cs (10 * acc + digitValue c)) ∧
            signed negative (Nat.ofDigitChars 10 cs (10 * acc + digitValue c)) ≤ hi) :=
          fun h => hfit (signed_within hlo hhi negative hle h)
        rw [if_pos hd, if_neg hfit, ite_self]
        refine ⟨nofun, fun ⟨_, hn, hfit⟩ => ?_⟩
        subst hn
        exact absurd hfit hno
    · rw [if_neg hd]
      exact ⟨nofun, fun h => absurd h.1.1 hd⟩

/-! ## The reader -/

theorem parseDigits_zero {lo hi : Int} (hlo : lo ≤ 0) (hhi : 0 ≤ hi) (negative : Bool) {n : Int}
    {cs : List Char} :
    parseDigits lo hi negative 0 cs = some n ↔
      (∀ c ∈ cs, c.isDigit) ∧ n = signed negative (Nat.ofDigitChars 10 cs 0) ∧ lo ≤ n ∧ n ≤ hi := by
  have h0 : signed negative 0 = 0 := by cases negative <;> rfl
  have h0' : lo ≤ signed negative (0 : Nat) ∧ signed negative (0 : Nat) ≤ hi := by
    rw [h0]; exact ⟨hlo, hhi⟩
  have e := parseDigits_eq_some_iff hlo hhi negative n cs h0'
  rwa [h0] at e

theorem not_denotes_nil (n : Int) : ¬ Denotes [] n := by
  intro h
  obtain ⟨sign, digits, hs, hne, -⟩ := h
  exact hne (List.append_eq_nil_iff.mp hs.symm).2

theorem denotes_plus {cs : List Char} {n : Int} :
    Denotes ('+' :: cs) n ↔
      cs ≠ [] ∧ (∀ c ∈ cs, c.isDigit) ∧ n = signed false (Nat.ofDigitChars 10 cs 0) := by
  refine ⟨fun h => ?_, fun ⟨hne, hd, hn⟩ => ⟨['+'], cs, rfl, hne, hd, .inl ⟨.inr rfl, hn⟩⟩⟩
  · obtain ⟨sign, digits, hs, hne, hd, ⟨rfl | rfl, rfl⟩ | ⟨rfl, -⟩⟩ := h
    · subst hs
      exact absurd (hd '+' List.mem_cons_self) (by decide)
    · obtain ⟨-, rfl⟩ := List.cons.inj hs
      exact ⟨hne, hd, rfl⟩
    · exact absurd (List.cons.inj hs).1 (by decide)

theorem denotes_minus {cs : List Char} {n : Int} :
    Denotes ('-' :: cs) n ↔
      cs ≠ [] ∧ (∀ c ∈ cs, c.isDigit) ∧ n = signed true (Nat.ofDigitChars 10 cs 0) := by
  refine ⟨fun h => ?_, fun ⟨hne, hd, hn⟩ => ⟨['-'], cs, rfl, hne, hd, .inr ⟨rfl, hn⟩⟩⟩
  · obtain ⟨sign, digits, hs, hne, hd, ⟨rfl | rfl, rfl⟩ | ⟨rfl, rfl⟩⟩ := h
    · subst hs
      exact absurd (hd '-' List.mem_cons_self) (by decide)
    · exact absurd (List.cons.inj hs).1 (by decide)
    · obtain ⟨-, rfl⟩ := List.cons.inj hs
      exact ⟨hne, hd, rfl⟩

theorem denotes_unsigned {c : Char} {cs : List Char} {n : Int} (hp : c ≠ '+') (hm : c ≠ '-') :
    Denotes (c :: cs) n ↔
      (∀ d ∈ c :: cs, d.isDigit) ∧ n = signed false (Nat.ofDigitChars 10 (c :: cs) 0) := by
  refine ⟨fun h => ?_, fun ⟨hd, hn⟩ =>
    ⟨[], c :: cs, rfl, List.cons_ne_nil _ _, hd, .inl ⟨.inl rfl, hn⟩⟩⟩
  · obtain ⟨sign, digits, hs, hne, hd, ⟨rfl | rfl, rfl⟩ | ⟨rfl, -⟩⟩ := h
    · subst hs
      exact ⟨hd, rfl⟩
    · exact absurd (List.cons.inj hs).1 hp
    · exact absurd (List.cons.inj hs).1 hm

/-- The reader accepts exactly the texts that denote a number within the
bounds, and returns that number. -/
theorem parse_eq_some_iff {lo hi : Int} (hlo : lo ≤ 0) (hhi : 0 ≤ hi) {s : List Char} {n : Int} :
    parse lo hi s = some n ↔ Denotes s n ∧ lo ≤ n ∧ n ≤ hi := by
  rw [parse.eq_def]
  split
  · simp [not_denotes_nil]
  · simp [denotes_plus]
  · simp [denotes_minus]
  · rename_i cs hne
    rw [parseDigits_zero hlo hhi, denotes_plus, and_iff_right hne, and_assoc]
  · rename_i cs hne
    rw [parseDigits_zero hlo hhi, denotes_minus, and_iff_right hne, and_assoc]
  · rename_i hnil _ _ hp hm
    cases s with
    | nil => exact absurd rfl hnil
    | cons c cs =>
      rw [parseDigits_zero hlo hhi, denotes_unsigned (fun h => hp cs (by rw [h]))
        (fun h => hm cs (by rw [h])), and_assoc]

/-! ## The printed form -/

theorem isDigit_of_mem_toDigits {m : Nat} {c : Char} (h : c ∈ Nat.toDigits 10 m) : c.isDigit :=
  Nat.isDigit_of_mem_toDigits (by decide) (by decide) h

theorem denotes_render (n : Int) : Denotes (render n) n := by
  unfold render
  split
  · refine ⟨['-'], Nat.toDigits 10 n.natAbs, rfl, Nat.toDigits_ne_nil,
      fun _ h => isDigit_of_mem_toDigits h, .inr ⟨rfl, ?_⟩⟩
    rw [Nat.ofDigitChars_ten_toDigits]
    omega
  · refine ⟨[], Nat.toDigits 10 n.natAbs, rfl, Nat.toDigits_ne_nil,
      fun _ h => isDigit_of_mem_toDigits h, .inl ⟨.inl rfl, ?_⟩⟩
    rw [Nat.ofDigitChars_ten_toDigits]
    omega

/-- What is printed is read back. -/
theorem parse_render {lo hi n : Int} (hlo : lo ≤ 0) (hhi : 0 ≤ hi) (h₁ : lo ≤ n) (h₂ : n ≤ hi) :
    parse lo hi (render n) = some n :=
  (parse_eq_some_iff hlo hhi).mpr ⟨denotes_render n, h₁, h₂⟩

theorem render_injective : Function.Injective render := by
  intro n n' h
  -- Bounds wide enough for both numbers.
  have hp : ∀ k, k = n ∨ k = n' →
      parse (-(n.natAbs + n'.natAbs : Int)) (n.natAbs + n'.natAbs) (render k) = some k :=
    fun k hk => parse_render (by omega) (by omega) (by omega) (by omega)
  have e := hp n (.inl rfl)
  rw [h, hp n' (.inr rfl)] at e
  exact (Option.some.inj e).symm

/-- The printed form has only digits and `-`. -/
theorem isDigit_or_minus_of_mem_render {n : Int} {c : Char} (h : c ∈ render n) :
    c.isDigit ∨ c = '-' := by
  rw [render] at h
  split at h
  · rcases List.mem_cons.mp h with rfl | h
    · exact .inr rfl
    · exact .inl (isDigit_of_mem_toDigits h)
  · exact .inl (isDigit_of_mem_toDigits h)

/-! ## Canonical spellings -/

/-- Digits that do not start with a zero. -/
def Significant (digits : List Char) : Prop :=
  digits ≠ [] ∧ digits.head? ≠ some '0' ∧ digits.all Char.isDigit

instance (digits : List Char) : Decidable (Significant digits) :=
  inferInstanceAs (Decidable (_ ∧ _))

/-- The text without its minus sign. -/
def unsigned : List Char → List Char
  | '-' :: digits => digits
  | s => s

/-- `0`, or digits that do not start with a zero, with or without a `-`: no
other sign, no padding and no `-0`. -/
def Canonical (s : List Char) : Prop := s = ['0'] ∨ Significant (unsigned s)

instance (s : List Char) : Decidable (Canonical s) := inferInstanceAs (Decidable (_ ∨ _))

theorem digitChar_digitValue {c : Char} (h : c.isDigit) :
    digitValue c < 10 ∧ (digitValue c).digitChar = c := by
  obtain ⟨hlo, hhi⟩ : 0x30 ≤ c.toNat ∧ c.toNat ≤ 0x39 := Char.isDigit_iff_toNat.mp h
  have hv : digitValue c = c.toNat - 0x30 := rfl
  have hlt : digitValue c < 10 := by omega
  refine ⟨hlt, Char.toNat_inj.mp ?_⟩
  rw [Nat.toNat_digitChar_of_lt_ten hlt]
  omega

theorem head?_toDigits_ne_zero {m : Nat} (h : 0 < m) : (Nat.toDigits 10 m).head? ≠ some '0' := by
  induction m using Nat.base_induction 10 (by decide) with
  | single m hm =>
    rw [Nat.toDigits_of_lt_base hm]
    simp
    omega
  | digit m k hk hm ih =>
    rw [← Nat.toDigits_append_toDigits (by decide) hm hk,
      List.head?_append_of_ne_nil _ Nat.toDigits_ne_nil]
    exact ih hm

theorem significant_toDigits {m : Nat} (h : 0 < m) : Significant (Nat.toDigits 10 m) :=
  ⟨Nat.toDigits_ne_nil, head?_toDigits_ne_zero h,
    List.all_eq_true.mpr fun _ hc => isDigit_of_mem_toDigits hc⟩

/-- Digits without a leading zero are the printed form of their value, which
is not zero. -/
theorem toDigits_of_significant {digits : List Char} (h : Significant digits) :
    0 < Nat.ofDigitChars 10 digits 0 ∧
      Nat.toDigits 10 (Nat.ofDigitChars 10 digits 0) = digits := by
  induction digits using List.reverseRecOn with
  | nil => exact absurd rfl h.1
  | append_singleton ds c ih =>
    obtain ⟨-, hhead, hall⟩ := h
    rw [List.all_append, Bool.and_eq_true, List.all_cons, List.all_nil, Bool.and_true] at hall
    obtain ⟨hlt, hc⟩ := digitChar_digitValue hall.2
    have hval : Nat.ofDigitChars 10 (ds ++ [c]) 0 =
        10 * Nat.ofDigitChars 10 ds 0 + digitValue c := by
      rw [Nat.ofDigitChars_append, Nat.ofDigitChars_cons, Nat.ofDigitChars_nil]
      rfl
    rw [hval]
    by_cases hds : ds = []
    · subst hds
      have hne : digitValue c ≠ 0 := fun h0 => hhead (by rw [← hc, h0]; rfl)
      rw [Nat.ofDigitChars_nil, Nat.mul_zero, Nat.zero_add, Nat.toDigits_of_lt_base hlt, hc]
      exact ⟨by omega, rfl⟩
    · rw [List.head?_append_of_ne_nil _ hds] at hhead
      obtain ⟨hpos, hprefix⟩ := ih ⟨hds, hhead, hall.1⟩
      refine ⟨by omega, ?_⟩
      rw [← Nat.toDigits_append_toDigits (by decide) hpos hlt, hprefix,
        Nat.toDigits_of_lt_base hlt, hc]

theorem unsigned_of_all_isDigit {digits : List Char} (h : ∀ c ∈ digits, c.isDigit) :
    unsigned digits = digits := by
  unfold unsigned
  split
  · exact absurd (h '-' List.mem_cons_self) (by decide)
  · rfl

theorem canonical_render (n : Int) : Canonical (render n) := by
  unfold render
  split
  · rename_i hn
    exact .inr (significant_toDigits (by omega))
  · by_cases h0 : n.natAbs = 0
    · rw [h0]
      exact .inl rfl
    · have hs : Significant (Nat.toDigits 10 n.natAbs) := significant_toDigits (by omega)
      rw [Canonical, unsigned_of_all_isDigit (List.all_eq_true.mp hs.2.2)]
      exact .inr hs

/-- A spelling of a number is the printed one exactly when it is canonical. -/
theorem render_eq_iff_canonical {s : List Char} {n : Int} (h : Denotes s n) :
    render n = s ↔ Canonical s := by
  refine ⟨fun e => e ▸ canonical_render n, fun hc => ?_⟩
  obtain ⟨sign, digits, rfl, hne, hd, hsign⟩ := h
  rcases hsign with ⟨rfl | rfl, rfl⟩ | ⟨rfl, rfl⟩
  · rw [List.nil_append] at hc ⊢
    rcases hc with rfl | hs
    · rfl
    · rw [unsigned_of_all_isDigit hd] at hs
      obtain ⟨-, hdigits⟩ := toDigits_of_significant hs
      rw [render, if_neg (by omega), Int.natAbs_natCast, hdigits]
  · -- A `+` is no digit.
    rcases hc with h0 | hs
    · simp at h0
    · exact absurd hs.2.2 (by simp [unsigned])
  · rcases hc with h0 | hs
    · simp at h0
    · have hs : Significant digits := hs
      obtain ⟨hpos, hdigits⟩ := toDigits_of_significant hs
      rw [render, if_pos (by omega), Int.natAbs_neg, Int.natAbs_natCast, hdigits]
      rfl

end Lib.Decimal
