import FiduciaPayments.Stripe.Verify
import Mathlib.Data.Set.Function

/-!
# What a Stripe signature binds

The authenticated bytes are a timestamp, a `.` and the body, with no lengths.
They determine both all the same (`macInput_injective`): the decimal form of
an `i64` has no `.` (`dot_notMem`), so the first one ends it, whatever the body
begins with. A signature therefore stands for one digest
(`digest_eq_of_matched`), and the digest for one timestamp and one body.
-/

namespace Fiducia.Stripe

open Lib.Utf8 Lib.Text

/-! ## The authenticated bytes -/

theorem i64ToString_injective : Function.Injective i64ToString := fun _ _ h =>
  Int64.toInt_inj.mp (Lib.Decimal.render_injective h)

/-- The decimal form of a timestamp has no `.`. -/
theorem dot_notMem (t : Int64) : UInt8.ofNat '.'.toNat ∉ asBytes (i64ToString t) := by
  intro h
  have hc : '.' ∈ i64ToString t := (mem_utf8_iff_of_ascii (by decide)).mp h
  rcases Lib.Decimal.isDigit_or_minus_of_mem_render hc with hd | hm
  · exact absurd hd (by decide)
  · exact absurd hm (by decide)

theorem macInput_eq (t : Int64) (payload : Bytes) :
    macInput t payload = asBytes (i64ToString t) ++ UInt8.ofNat '.'.toNat :: payload := by
  unfold macInput
  rw [List.append_assoc]
  rfl

/-- The authenticated bytes determine the timestamp and the body. -/
theorem macInput_injective : Function.Injective2 macInput := by
  intro t₁ t₂ payload₁ payload₂ h
  rw [macInput_eq, macInput_eq] at h
  obtain ⟨ht, hp⟩ := append_sep_inj (dot_notMem t₁) (dot_notMem t₂) h
  exact ⟨i64ToString_injective (utf8_injective ht), hp⟩

/-! ## The signature -/

/-- One signature stands for one digest. -/
theorem digest_eq_of_matched {C : Crates} (hct : C.CtEqIsEquality) {d₁ d₂ : Digest} {s : Str}
    (h₁ : [s].any (candidateMatches C d₁) = true) (h₂ : [s].any (candidateMatches C d₂) = true) :
    d₁ = d₂ := by
  simp only [List.any_cons, List.any_nil, Bool.or_false, candidateMatches_iff_decode hct] at h₁ h₂
  exact Subtype.ext (Option.some.inj (h₁.symm.trans h₂))

/-- A signature binds the timestamp and the body together. The authenticated
bytes determine both; and two accepted requests under one secret with the same
single signature agree on both, when HMAC under that secret is injective on
some messages `S` that include theirs. -/
theorem signature_binds_timestamp_and_body (C : Crates) (hct : C.CtEqIsEquality) (secret : Str)
    (S : Set Bytes) (hmac : Set.InjOn (C.hmacSha256 (asBytes secret)) S) :
    (∀ t₁ t₂ payload₁ payload₂, macInput t₁ payload₁ = macInput t₂ payload₂ →
      t₁ = t₂ ∧ payload₁ = payload₂) ∧
    ∀ header₁ header₂ payload₁ payload₂ now₁ now₂ tolerance₁ tolerance₂ e₁ e₂ t₁ t₂ s,
      verify C payload₁ header₁ secret now₁ tolerance₁ = .ok e₁ →
      verify C payload₂ header₂ secret now₂ tolerance₂ = .ok e₂ →
      parseSignatureHeader header₁ = .ok (t₁, [s]) →
      parseSignatureHeader header₂ = .ok (t₂, [s]) →
      macInput t₁ payload₁ ∈ S → macInput t₂ payload₂ ∈ S →
      t₁ = t₂ ∧ payload₁ = payload₂ := by
  refine ⟨fun _ _ _ _ h => macInput_injective h, fun header₁ header₂ payload₁ payload₂ now₁ now₂
    tolerance₁ tolerance₂ e₁ e₂ t₁ t₂ s h₁ h₂ hp₁ hp₂ hS₁ hS₂ => ?_⟩
  have m₁ := matched_of_ok hp₁ h₁
  have m₂ := matched_of_ok hp₂ h₂
  exact macInput_injective (hmac hS₁ hS₂ (digest_eq_of_matched hct m₁ m₂))

open Recorded in
/-- Two accepted deliveries with the recorded signature, which agree. -/
theorem recorded_signature_binds :
    verify recorded stripeBody stripeHeader secret 1680000000 300 = .ok stripeEvent ∧
      verify recorded stripeBody redeliveredHeader secret 1680000300 600 = .ok stripeEvent ∧
      (1680000000 : Int64) = 1680000000 ∧ stripeBody = stripeBody := by
  have hmac : Set.InjOn (recorded.hmacSha256 (asBytes secret))
      {macInput 1680000000 stripeBody, macInput 1680000001 stripeBody} := by
    intro m₁ h₁ m₂ h₂ h
    rcases h₁ with rfl | rfl <;> rcases h₂ with rfl | rfl
    · rfl
    · exact absurd h (by decide +kernel)
    · exact absurd h (by decide +kernel)
    · rfl
  have ok₁ : verify recorded stripeBody stripeHeader secret 1680000000 300 = .ok stripeEvent := by
    decide +kernel
  have ok₂ : verify recorded stripeBody redeliveredHeader secret 1680000300 600 =
      .ok stripeEvent := by
    decide +kernel
  exact ⟨ok₁, ok₂, (signature_binds_timestamp_and_body recorded ctEqIsEquality secret _ hmac).2
    _ _ _ _ _ _ _ _ _ _ _ _ (stripeHeader.drop 16) ok₁ ok₂ (by decide +kernel)
    (by decide +kernel) (.inl rfl) (.inl rfl)⟩

end Fiducia.Stripe
