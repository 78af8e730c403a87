import FiduciaPayments.Lib.Gates
import FiduciaPayments.Model
import FiduciaPayments.Paypal.Verify

/-!
# The decision of `paypal::verify`

`decision` is the verdict as a list of conditions, and `verify_eq_decision`
identifies it with the verifier. The conditions are `Stage`s; the model of
`formal/provider_verification.qnt` groups them into gates (`Stage.gate`), and
two of its gates are split over stages that are not consecutive. `decides`
reads the verdict off the stages in the verifier's own order.
-/

namespace Fiducia.Paypal

open Lib.Gates Lib.Text

inductive Stage where
  | authAlgo
  | certUrl
  | webhookId
  | signatureEncoding
  | certificate
  | signature
  | event
  deriving DecidableEq

/-- The stages in the order they are tried. -/
def stages : List Stage :=
  [.authAlgo, .certUrl, .webhookId, .signatureEncoding, .certificate, .signature, .event]

theorem mem_stages (s : Stage) : s ∈ stages := by cases s <;> decide

/-- The gate of the model that a stage belongs to. -/
def Stage.gate : Stage → Model.Gate
  | .authAlgo | .webhookId => .configuration
  | .signatureEncoding | .certificate => .envelope
  | .certUrl => .provenance
  | .signature => .signature
  | .event => .event

section
variable (C : Crates) (t : Transmission) (webhookId : Str) (rawBody : Bytes) (certPem : Str)

/-- What `paypal::verify` is to answer. -/
def decision : Except VerifyError VerifiedEvent :=
  if toAsciiLowercase t.authAlgo ≠ "sha256withrsa".toList then
    .error (.invalidInput ("unsupported auth algo: ".toList ++ t.authAlgo))
  else if certUrlIsPaypal C t.certUrl = false then
    .error (.invalidInput ("cert url is not a PayPal host: ".toList ++ t.certUrl))
  else if webhookId = [] then .error (.invalidInput "empty webhook id".toList)
  else
    match signatureOf C t, rsaPublicKeyFromCert C certPem with
    | none, _ => .error .malformedSignature
    | some _, .error e => .error e
    | some signature, .ok publicKey =>
      if C.rsaVerify publicKey
          (asBytes (signedMessage C t.transmissionId t.transmissionTime webhookId rawBody))
          signature then
        VerifiedEvent.fromBody C .paypal rawBody
      else .error .signatureMismatch

/-- The stages, for a request to `paypal::verify`. -/
def Passes : Stage → Prop
  | .authAlgo => toAsciiLowercase t.authAlgo = "sha256withrsa".toList
  | .certUrl => certUrlIsPaypal C t.certUrl = true
  | .webhookId => webhookId ≠ []
  | .signatureEncoding => ∃ bytes signature,
      C.base64Decode (trim t.signatureB64) = some bytes ∧ C.signatureTryFrom bytes = some signature
  | .certificate => ∃ cert der publicKey, C.certificateFromPem (asBytes certPem) = .ok cert ∧
      C.spkiToDer cert = .ok der ∧ C.fromPublicKeyDer der = .ok publicKey
  | .signature => ∃ signature publicKey, signatureOf C t = some signature ∧
      rsaPublicKeyFromCert C certPem = .ok publicKey ∧
      C.rsaVerify publicKey
        (asBytes (signedMessage C t.transmissionId t.transmissionTime webhookId rawBody)) signature
  | .event => ∃ e, VerifiedEvent.fromBody C .paypal rawBody = .ok e

/-- The error a stage answers with. -/
def Answers : Stage → VerifyError → Prop
  | .authAlgo, e => e = .invalidInput ("unsupported auth algo: ".toList ++ t.authAlgo)
  | .certUrl, e => e = .invalidInput ("cert url is not a PayPal host: ".toList ++ t.certUrl)
  | .webhookId, e => e = .invalidInput "empty webhook id".toList
  | .signatureEncoding, e => e = .malformedSignature
  | .certificate, e =>
    rsaPublicKeyFromCert C certPem = .error e ∧ ∃ message, e = .invalidInput message
  | .signature, e => e = .signatureMismatch
  | .event, e => VerifiedEvent.fromBody C .paypal rawBody = .error e

/-- A gate of the model holds when its stages pass. -/
def Holds (g : Model.Gate) : Prop :=
  ∀ s : Stage, s.gate = g → Passes C t webhookId rawBody certPem s

theorem forall_holds_iff :
    (∀ g, Holds C t webhookId rawBody certPem g) ↔ ∀ s, Passes C t webhookId rawBody certPem s :=
  ⟨fun h s => h s.gate s rfl, fun h _ s _ => h s⟩

variable {C t webhookId rawBody certPem}

theorem authAlgo_iff {algo : Str} :
    eqIgnoreAsciiCase algo "SHA256withRSA".toList = true ↔
      toAsciiLowercase algo = "sha256withrsa".toList := by
  unfold eqIgnoreAsciiCase
  rw [decide_eq_true_iff,
    show toAsciiLowercase "SHA256withRSA".toList = "sha256withrsa".toList by decide]

theorem signatureEncoding_iff :
    Passes C t webhookId rawBody certPem .signatureEncoding ↔
      ∃ signature, signatureOf C t = some signature := by
  simp only [Passes, signatureOf, Option.bind_eq_some_iff]
  exact exists_comm

theorem certificate_iff :
    Passes C t webhookId rawBody certPem .certificate ↔
      ∃ publicKey, rsaPublicKeyFromCert C certPem = .ok publicKey := by
  simp only [Passes, rsaPublicKeyFromCert_eq_ok_iff]
  exact ⟨fun ⟨cert, der, key, h⟩ => ⟨key, cert, der, h⟩,
    fun ⟨key, cert, der, h⟩ => ⟨cert, der, key, h⟩⟩

variable (C t webhookId rawBody certPem)

/-- The verifier answers the decision. -/
theorem verify_eq_decision :
    verify C t webhookId rawBody certPem = decision C t webhookId rawBody certPem := by
  unfold decision
  split
  · rename_i ha
    have ha' : eqIgnoreAsciiCase t.authAlgo "SHA256withRSA".toList = false :=
      Bool.eq_false_iff.mpr (mt authAlgo_iff.mp ha)
    unfold verify
    rw [ha']
    rfl
  rename_i ha
  have ha' := authAlgo_iff.mpr (not_not.mp ha)
  split
  · rename_i hu
    unfold verify
    rw [ha', hu]
    rfl
  rename_i hu
  rw [Bool.not_eq_false] at hu
  split
  · rename_i hw
    unfold verify
    rw [ha', hu, hw]
    rfl
  · rename_i hw
    exact verify_of_configured ⟨ha', hu, hw⟩

/-- The verdict is that of the stages, tried in their order. -/
theorem decides :
    Decides (Passes C t webhookId rawBody certPem) (Answers C t rawBody certPem)
      (verify C t webhookId rawBody certPem) stages := by
  have hd := verify_eq_decision C t webhookId rawBody certPem
  rw [decision] at hd
  by_cases ha : toAsciiLowercase t.authAlgo = "sha256withrsa".toList
  swap
  · exact .reject ha rfl (by rw [hd, if_pos ha])
  rw [if_neg (not_not.mpr ha)] at hd
  refine .pass ha ?_
  by_cases hu : certUrlIsPaypal C t.certUrl = true
  swap
  · exact .reject hu rfl (by rw [hd, if_pos (Bool.eq_false_iff.mpr hu)])
  rw [if_neg (by rw [hu]; decide)] at hd
  refine .pass hu ?_
  by_cases hw : webhookId = []
  · exact .reject (not_not.mpr hw) rfl (by rw [hd, if_pos hw])
  rw [if_neg hw] at hd
  refine .pass hw ?_
  cases hs : signatureOf C t with
  | none =>
    rw [hs] at hd
    refine .reject (fun h => ?_) rfl hd
    obtain ⟨signature, h⟩ := signatureEncoding_iff.mp h
    rw [hs] at h
    simp at h
  | some signature =>
    refine .pass (signatureEncoding_iff.mpr ⟨signature, hs⟩) ?_
    cases hk : rsaPublicKeyFromCert C certPem with
    | error e =>
      rw [hs, hk] at hd
      refine .reject (fun h => ?_) ⟨hk, rsaPublicKeyFromCert_eq_error hk⟩ hd
      obtain ⟨publicKey, h⟩ := certificate_iff.mp h
      rw [hk] at h
      simp at h
    | ok publicKey =>
      refine .pass (certificate_iff.mpr ⟨publicKey, hk⟩) ?_
      simp only [hs, hk] at hd
      by_cases hv : C.rsaVerify publicKey
        (asBytes (signedMessage C t.transmissionId t.transmissionTime webhookId rawBody)) signature
      · rw [if_pos hv] at hd
        refine .pass ⟨signature, publicKey, hs, hk, hv⟩ ?_
        cases he : VerifiedEvent.fromBody C .paypal rawBody with
        | ok e => exact .pass ⟨e, he⟩ (.accept (hd.trans he))
        | error err => exact .reject (fun ⟨e, h⟩ => by rw [he] at h; cases h) he (hd.trans he)
      · rw [if_neg hv] at hd
        refine .reject (fun ⟨signature', publicKey', hs', hk', hv'⟩ => hv ?_) rfl hd
        cases hs.symm.trans hs'
        cases hk.symm.trans hk'
        exact hv'

/-- `paypal::verify` answers the decision on every request. It accepts exactly
when every stage passes, which is when the five gates of the model hold, and
rejects with the answer of the first stage that does not pass. A rejected
algorithm or certificate URL is an `InvalidInput` whatever the signature, the
webhook id, the body and the certificate are, and an accepted event is a
PayPal event with the body as received and the `id` and the name read from it. -/
theorem verify_refines_five_gates_in_seven_stages :
    verify C t webhookId rawBody certPem = decision C t webhookId rawBody certPem ∧
      ((∃ e, verify C t webhookId rawBody certPem = .ok e) ↔
        ∀ s, Passes C t webhookId rawBody certPem s) ∧
      (∀ before s after, stages = before ++ s :: after →
        (∀ s' ∈ before, Passes C t webhookId rawBody certPem s') →
        ¬ Passes C t webhookId rawBody certPem s →
        ∃ err, Answers C t rawBody certPem s err ∧
          verify C t webhookId rawBody certPem = .error err) ∧
      (toAsciiLowercase t.authAlgo ≠ "sha256withrsa".toList ∨ certUrlIsPaypal C t.certUrl = false →
        ∀ signatureB64 webhookId' rawBody' certPem', ∃ message,
          verify C { t with signatureB64 := signatureB64 } webhookId' rawBody' certPem' =
            .error (.invalidInput message)) ∧
      (∀ e, verify C t webhookId rawBody certPem = .ok e →
        e.provider = .paypal ∧ e.payload = rawBody ∧
          ∃ value, C.fromSlice rawBody = .ok value ∧
            (value.get "id".toList).bind Value.asStr = some e.id ∧
            value.eventName.bind Value.asStr = some e.eventType) ∧
      Model.Refines .paypal (Holds C t webhookId rawBody certPem)
        (verify C t webhookId rawBody certPem) := by
  have hd := decides C t webhookId rawBody certPem
  have hok : (∃ e, verify C t webhookId rawBody certPem = .ok e) ↔
      ∀ s, Passes C t webhookId rawBody certPem s :=
    hd.ok_iff.trans ⟨fun h s => h s (mem_stages s), fun h s _ => h s⟩
  refine ⟨verify_eq_decision C t webhookId rawBody certPem, hok,
    fun before s after ho hb hs => hd.rejected ho hb hs, fun h signatureB64 w b c => ?_,
    fun e he => ?_, Model.refines_of_ok_iff ?_⟩
  · rw [verify_eq_decision, decision]
    by_cases ha : toAsciiLowercase t.authAlgo = "sha256withrsa".toList
    · rw [if_neg (not_not.mpr ha), if_pos (h.resolve_left (not_not.mpr ha))]
      exact ⟨_, rfl⟩
    · rw [if_pos ha]
      exact ⟨_, rfl⟩
  · obtain ⟨-, signature, publicKey, -, -, -, hb⟩ := verify_eq_ok_iff.mp he
    obtain ⟨value, hv, hid, hty, hp, hpl⟩ := VerifiedEvent.fromBody_eq_ok_iff.mp hb
    exact ⟨hp, hpl, value, hv, hid, hty⟩
  · exact hok.trans (forall_holds_iff C t webhookId rawBody certPem).symm

end

end Fiducia.Paypal
