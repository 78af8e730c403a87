import FiduciaPayments.Lib.Gates
import FiduciaPayments.Model
import FiduciaPayments.Stripe.Verify

/-!
# The decision of `stripe::verify`

`decision` is the verdict written over the integers, the grammar of the
header and the hexadecimal spellings of the MAC, with none of the verifier's
arithmetic or decoding; `verify_eq_decision` identifies the two. The gates of
`formal/provider_verification.qnt` are `Holds`, in the order
`Model.gates`, and `decides` reads the verdict off them one by one.
-/

namespace Fiducia.Stripe

open Lib.Gates

/-- A 64-digit hexadecimal spelling of the digest, in either case. -/
def IsSignature (candidate : Str) (digest : Digest) : Prop :=
  candidate.length = 64 ∧ Lib.Hex.Spells candidate digest.val

theorem isSignature_iff {candidate : Str} {digest : Digest} :
    IsSignature candidate digest ↔ Lib.Hex.Spells candidate digest.val := by
  refine ⟨And.right, fun h => ⟨?_, h⟩⟩
  have := congrArg List.length h
  rw [List.length_map, Lib.Hex.length_encode, digest.property] at this
  omega

instance (candidate : Str) (digest : Digest) : Decidable (IsSignature candidate digest) :=
  inferInstanceAs (Decidable (_ ∧ _))

section
variable (C : Crates) (payload : Bytes) (header secret : Str) (now : Int64) (tolerance : UInt64)

/-- What `stripe::verify` is to answer. -/
def decision : Except VerifyError VerifiedEvent :=
  if secret = [] then .error (.invalidInput "empty signing secret".toList)
  else
    match parseSignatureHeader header with
    | .error e => .error e
    | .ok (t, sigs) =>
      if ¬ InWindow now t tolerance then
        .error (.timestampOutOfTolerance (clampedSkew now t) tolerance)
      else if ¬ ∃ s ∈ sigs, IsSignature s (expectedDigest C payload secret t) then
        .error .signatureMismatch
      else VerifiedEvent.fromBody C .stripe payload

/-- The gates of the model, for a request to `stripe::verify`. -/
def Holds : Model.Gate → Prop
  | .configuration => secret ≠ []
  | .envelope => ∃ t sigs, Carries header t sigs
  | .provenance => ∃ t sigs, Carries header t sigs ∧ InWindow now t tolerance
  | .signature => ∃ t sigs, Carries header t sigs ∧
      ∃ s ∈ sigs, IsSignature s (expectedDigest C payload secret t)
  | .event => ∃ e, VerifiedEvent.fromBody C .stripe payload = .ok e

/-- The error a gate answers with. -/
def Answers : Model.Gate → VerifyError → Prop
  | .configuration, e => e = .invalidInput "empty signing secret".toList
  | .envelope, e => e = if Blank header then .missingSignature else .malformedSignature
  | .provenance, e => ∃ t sigs, Carries header t sigs ∧
      e = .timestampOutOfTolerance (clampedSkew now t) tolerance
  | .signature, e => e = .signatureMismatch
  | .event, e => VerifiedEvent.fromBody C .stripe payload = .error e

variable {C} (hkey : C.HmacAcceptsEveryKey) (hhex : C.HexDecodesSpellings) (hct : C.CtEqIsEquality)

include hkey hhex hct

theorem authenticate_eq_decision (t : Int64) (sigs : List Str) :
    authenticate C payload secret t sigs =
      if ¬ ∃ s ∈ sigs, IsSignature s (expectedDigest C payload secret t) then
        .error .signatureMismatch
      else VerifiedEvent.fromBody C .stripe payload := by
  simp only [authenticate_eq, hkey _, if_true, matched_iff hhex hct, isSignature_iff, ite_not]

/-- The verifier answers the decision. -/
theorem verify_eq_decision :
    verify C payload header secret now tolerance =
      decision C payload header secret now tolerance := by
  unfold decision
  split
  · rename_i hs
    rw [hs, verify_of_empty]
  · rename_i hs
    split
    · rename_i e hp
      exact verify_of_parse_error hs hp
    · rename_i t sigs hp
      simp only [verify_of_parsed hs hp,
        authenticate_eq_decision payload secret hkey hhex hct t sigs, ite_not]

/-- The verdict is that of the gates, tried in the model's order. -/
theorem decides :
    Decides (Holds C payload header secret now tolerance)
      (Answers C payload header now tolerance)
      (verify C payload header secret now tolerance) Model.gates := by
  by_cases hs : secret = []
  · subst hs
    exact .reject (not_not_intro rfl) rfl verify_of_empty
  refine .pass hs ?_
  cases hp : parseSignatureHeader header with
  | error e =>
    refine .reject (fun ⟨t, sigs, h⟩ => ?_) (parseSignatureHeader_eq_error hp)
      (verify_of_parse_error hs hp)
    rw [parseSignatureHeader_eq_ok_iff.mpr h] at hp
    simp at hp
  | ok r =>
    obtain ⟨t, sigs⟩ := r
    have hc := parseSignatureHeader_eq_ok_iff.mp hp
    -- The header carries no other timestamp or signatures.
    have only : ∀ t' sigs', Carries header t' sigs' → t' = t ∧ sigs' = sigs := by
      intro t' sigs' h
      have e := (parseSignatureHeader_eq_ok_iff.mpr h).symm.trans hp
      simpa using e
    have hv : verify C payload header secret now tolerance = _ := verify_of_parsed hs hp
    rw [authenticate_eq_decision payload secret hkey hhex hct t sigs] at hv
    refine .pass ⟨t, sigs, hc⟩ ?_
    by_cases hw : InWindow now t tolerance
    · refine .pass ⟨t, sigs, hc, hw⟩ ?_
      rw [if_pos hw] at hv
      by_cases hm : ∃ s ∈ sigs, IsSignature s (expectedDigest C payload secret t)
      · rw [if_neg (not_not_intro hm)] at hv
        refine .pass ⟨t, sigs, hc, hm⟩ ?_
        cases he : VerifiedEvent.fromBody C .stripe payload with
        | ok e => exact .pass ⟨e, he⟩ (.accept (hv.trans he))
        | error err => exact .reject (fun ⟨e, h⟩ => by rw [he] at h; cases h) he (hv.trans he)
      · rw [if_pos hm] at hv
        refine .reject (fun ⟨t', sigs', hc', hm'⟩ => hm ?_) rfl hv
        obtain ⟨rfl, rfl⟩ := only t' sigs' hc'
        exact hm'
    · rw [if_neg hw] at hv
      refine .reject (fun ⟨t', sigs', hc', hw'⟩ => hw ?_) ⟨t, sigs, hc, rfl⟩ hv
      obtain ⟨rfl, rfl⟩ := only t' sigs' hc'
      exact hw'

/-- `stripe::verify` answers the decision on every request. It accepts exactly
when the five gates of the model hold, it rejects with the answer of the first
gate that does not, and an accepted event is a Stripe event with the payload
as received and the `id` and the name read from it. -/
theorem verify_refines_five_gates :
    verify C payload header secret now tolerance =
        decision C payload header secret now tolerance ∧
      ((∃ e, verify C payload header secret now tolerance = .ok e) ↔
        ∀ g, Holds C payload header secret now tolerance g) ∧
      (∀ before g after, Model.gates = before ++ g :: after →
        (∀ g' ∈ before, Holds C payload header secret now tolerance g') →
        ¬ Holds C payload header secret now tolerance g →
        ∃ err, Answers C payload header now tolerance g err ∧
          verify C payload header secret now tolerance = .error err) ∧
      (∀ e, verify C payload header secret now tolerance = .ok e →
        e.provider = .stripe ∧ e.payload = payload ∧
          ∃ value, C.fromSlice payload = .ok value ∧
            (value.get "id".toList).bind Value.asStr = some e.id ∧
            value.eventName.bind Value.asStr = some e.eventType) ∧
      Model.Refines .stripe (Holds C payload header secret now tolerance)
        (verify C payload header secret now tolerance) := by
  have hd := decides payload header secret now tolerance hkey hhex hct
  have hok : (∃ e, verify C payload header secret now tolerance = .ok e) ↔
      ∀ g, Holds C payload header secret now tolerance g :=
    hd.ok_iff.trans ⟨fun h g => h g (Model.mem_gates g), fun h g _ => h g⟩
  refine ⟨verify_eq_decision payload header secret now tolerance hkey hhex hct, hok,
    fun before g after ho hb hg => hd.rejected ho hb hg, fun e he => ?_,
    Model.refines_of_ok_iff hok⟩
  obtain ⟨-, t, sigs, -, -, -, -, hb⟩ := verify_eq_ok_iff.mp he
  obtain ⟨value, hv, hid, hty, hp, hpl⟩ := VerifiedEvent.fromBody_eq_ok_iff.mp hb
  exact ⟨hp, hpl, value, hv, hid, hty⟩

end

open Recorded in
/-- The recorded delivery is accepted, so it passes the five gates. -/
theorem recorded_passes_five_gates :
    verify recorded stripeBody stripeHeader secret 1680000100 300 = .ok stripeEvent ∧
      ∀ g, Holds recorded stripeBody stripeHeader secret 1680000100 300 g := by
  have hok : verify recorded stripeBody stripeHeader secret 1680000100 300 = .ok stripeEvent := by
    decide +kernel
  exact ⟨hok, (verify_refines_five_gates stripeBody stripeHeader secret 1680000100 300
    hmacAcceptsEveryKey hexDecodesSpellings ctEqIsEquality).2.1.mp ⟨stripeEvent, hok⟩⟩

end Fiducia.Stripe
