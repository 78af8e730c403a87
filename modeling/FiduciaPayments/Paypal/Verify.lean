import FiduciaPayments.Event
import FiduciaPayments.Lib.Decimal
import FiduciaPayments.Lib.Text

/-!
# `paypal::verify`

The verifier, its certificate URL check and the message a transmission signs.
`verify_eq_ok_iff` says what an accepted request passed.
-/

namespace Fiducia.Paypal

open Lib.Result Lib.Text

/-- The headers PayPal sends alongside a webhook. -/
structure Transmission where
  transmissionId : Str
  transmissionTime : Str
  signatureB64 : Str
  certUrl : Str
  authAlgo : Str

/-- `u32::to_string`. -/
def u32ToString (n : UInt32) : Str := Lib.Decimal.render n.toNat

/-- `signed_message`: the exact message PayPal signs. -/
def signedMessage (C : Crates) (transmissionId transmissionTime webhookId : Str) (rawBody : Bytes) :
    Str :=
  let crc := C.crc32 rawBody
  transmissionId ++ "|".toList ++ transmissionTime ++ "|".toList ++ webhookId ++ "|".toList ++
    u32ToString crc

/-- `cert_url_is_paypal`: HTTPS, without credentials, and in `paypal.com`. -/
def certUrlIsPaypal (C : Crates) (certUrl : Str) : Bool :=
  match C.urlParse certUrl with
  | none => false
  | some url =>
    if url.scheme ≠ "https".toList ∨ ¬ url.username.isEmpty ∨ url.password.isSome then false
    else
      match url.hostStr with
      | some host =>
        let host := toAsciiLowercase host
        host == "paypal.com".toList || ".paypal.com".toList.isSuffixOf host
      | none => false

/-- `rsa_public_key_from_cert`: the RSA key of a PEM X.509 certificate. -/
def rsaPublicKeyFromCert (C : Crates) (certPem : Str) : Except VerifyError C.RsaPublicKey := do
  let cert ← (C.certificateFromPem (asBytes certPem)).mapError fun e =>
    .invalidInput ("certificate not valid PEM/DER: ".toList ++ e)
  let spkiDer ← (C.spkiToDer cert).mapError fun e =>
    .invalidInput ("cannot re-encode SPKI: ".toList ++ e)
  (C.fromPublicKeyDer spkiDer).mapError fun e =>
    .invalidInput ("certificate is not an RSA key: ".toList ++ e)

/-- `paypal::verify`. -/
def verify (C : Crates) (t : Transmission) (webhookId : Str) (rawBody : Bytes) (certPem : Str) :
    Except VerifyError VerifiedEvent :=
  if !eqIgnoreAsciiCase t.authAlgo "SHA256withRSA".toList then
    .error (.invalidInput ("unsupported auth algo: ".toList ++ t.authAlgo))
  else if !certUrlIsPaypal C t.certUrl then
    .error (.invalidInput ("cert url is not a PayPal host: ".toList ++ t.certUrl))
  else if webhookId.isEmpty then .error (.invalidInput "empty webhook id".toList)
  else do
    let signatureBytes ← okOr (C.base64Decode (trim t.signatureB64)) .malformedSignature
    let signature ← okOr (C.signatureTryFrom signatureBytes) .malformedSignature
    let publicKey ← rsaPublicKeyFromCert C certPem
    let message := signedMessage C t.transmissionId t.transmissionTime webhookId rawBody
    if C.rsaVerify publicKey (asBytes message) signature then
      VerifiedEvent.fromBody C .paypal rawBody
    else .error .signatureMismatch

/-! ## The signature and the key -/

/-- The signature a transmission carries. -/
def signatureOf (C : Crates) (t : Transmission) : Option C.Signature :=
  (C.base64Decode (trim t.signatureB64)).bind C.signatureTryFrom

section
variable {C : Crates} {certPem : Str}

/-- The key of a certificate that parses. -/
theorem rsaPublicKeyFromCert_eq_ok_iff {key : C.RsaPublicKey} :
    rsaPublicKeyFromCert C certPem = .ok key ↔
      ∃ cert der, C.certificateFromPem (asBytes certPem) = .ok cert ∧ C.spkiToDer cert = .ok der ∧
        C.fromPublicKeyDer der = .ok key := by
  simp only [rsaPublicKeyFromCert, bind_eq_ok_iff, mapError_eq_ok_iff]
  exact ⟨fun ⟨cert, hc, der, hd, hk⟩ => ⟨cert, der, hc, hd, hk⟩,
    fun ⟨cert, der, hc, hd, hk⟩ => ⟨cert, hc, der, hd, hk⟩⟩

/-- Every failure is an `InvalidInput`. -/
theorem rsaPublicKeyFromCert_eq_error {err : VerifyError}
    (h : rsaPublicKeyFromCert C certPem = .error err) : ∃ message, err = .invalidInput message := by
  simp only [rsaPublicKeyFromCert, bind_eq_error_iff, mapError_eq_error_iff] at h
  rcases h with ⟨e, -, rfl⟩ | ⟨cert, -, ⟨e, -, rfl⟩ | ⟨der, -, e, -, rfl⟩⟩
  · exact ⟨_, rfl⟩
  · exact ⟨_, rfl⟩
  · exact ⟨_, rfl⟩

end

/-! ## The verdict -/

section
variable {C : Crates} {t : Transmission} {webhookId : Str} {rawBody : Bytes} {certPem : Str}

/-- The checks before the signature is read. -/
structure Configured (C : Crates) (t : Transmission) (webhookId : Str) : Prop where
  authAlgo : eqIgnoreAsciiCase t.authAlgo "SHA256withRSA".toList
  certUrl : certUrlIsPaypal C t.certUrl
  webhookId : webhookId ≠ []

/-- A request that passes these depends on the signature and the key. -/
theorem verify_of_configured (h : Configured C t webhookId) :
    verify C t webhookId rawBody certPem =
      match signatureOf C t, rsaPublicKeyFromCert C certPem with
      | none, _ => .error .malformedSignature
      | some _, .error e => .error e
      | some signature, .ok publicKey =>
        if C.rsaVerify publicKey
            (asBytes (signedMessage C t.transmissionId t.transmissionTime webhookId rawBody))
            signature then
          VerifiedEvent.fromBody C .paypal rawBody
        else .error .signatureMismatch := by
  unfold verify
  rw [h.authAlgo, h.certUrl, if_neg (by decide), if_neg (by decide),
    if_neg (by simpa using h.webhookId), signatureOf]
  cases C.base64Decode (trim t.signatureB64) with
  | none => rfl
  | some bytes =>
    rw [okOr_some, ok_bind, Option.bind_some]
    cases C.signatureTryFrom bytes with
    | none => rfl
    | some signature =>
      rw [okOr_some, ok_bind]
      cases rsaPublicKeyFromCert C certPem with
      | error e => rfl
      | ok publicKey => rfl

/-- A refused certificate URL is an `InvalidInput`, whatever the rest is. -/
theorem verify_of_refused_url (h : certUrlIsPaypal C t.certUrl = false) :
    ∃ message, verify C t webhookId rawBody certPem = .error (.invalidInput message) := by
  unfold verify
  split
  · exact ⟨_, rfl⟩
  · rw [h]
    exact ⟨_, rfl⟩

/-- What an accepted request passed. -/
theorem verify_eq_ok_iff {e : VerifiedEvent} :
    verify C t webhookId rawBody certPem = .ok e ↔
      Configured C t webhookId ∧ ∃ signature publicKey, signatureOf C t = some signature ∧
        rsaPublicKeyFromCert C certPem = .ok publicKey ∧
        C.rsaVerify publicKey
          (asBytes (signedMessage C t.transmissionId t.transmissionTime webhookId rawBody))
          signature ∧
        VerifiedEvent.fromBody C .paypal rawBody = .ok e := by
  refine ⟨fun h => ?_, fun ⟨hc, signature, publicKey, hs, hk, hv, he⟩ => ?_⟩
  · have hc : Configured C t webhookId := by
      rw [verify] at h
      split at h <;> [cases h; skip]
      split at h <;> [cases h; skip]
      split at h <;> [cases h; skip]
      rename_i h₁ h₂ h₃
      exact ⟨by simpa using h₁, by simpa using h₂, by simpa using h₃⟩
    rw [verify_of_configured hc] at h
    split at h <;> [cases h; cases h; skip]
    rename_i signature publicKey hs hk
    split at h <;> [skip; cases h]
    rename_i hv
    exact ⟨hc, signature, publicKey, hs, hk, hv, h⟩
  · rw [verify_of_configured hc, hs, hk]
    simp only [hv, if_true, he]

end

end Fiducia.Paypal
