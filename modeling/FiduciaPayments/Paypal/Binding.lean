import FiduciaPayments.Paypal.Verify

/-!
# What a PayPal signature binds

The signed message has the CRC-32 of the body in place of the body, and
determines it (`signedMessage_inj`). So a signature accepted for one body is
accepted for the events of its CRC-32 and for no others; two of these, recorded
under one signature, have different bodies (`accepts_two_bodies`).
-/

namespace Fiducia.Paypal

open Lib.Text Lib.Utf8

theorem u32ToString_injective : Function.Injective u32ToString := fun _ _ h =>
  UInt32.toNat_inj.mp (Int.ofNat.inj (Lib.Decimal.render_injective h))

/-- Under the same headers, messages are equal when the checksums are. -/
theorem signedMessage_inj {C : Crates} {transmissionId transmissionTime webhookId : Str}
    {b₁ b₂ : Bytes} :
    signedMessage C transmissionId transmissionTime webhookId b₁ =
        signedMessage C transmissionId transmissionTime webhookId b₂ ↔
      C.crc32 b₁ = C.crc32 b₂ := by
  refine ⟨fun h => u32ToString_injective (List.append_cancel_left h), fun h => ?_⟩
  rw [signedMessage, signedMessage, h]

/-- A signature accepted for a body is accepted for another exactly when that
one has the same CRC-32 and is an event: acceptance binds the CRC-32 of the
body. -/
theorem acceptance_binds_crc32 (C : Crates) (hrsa : C.RsaOneMessage) (hcrc : C.Crc32IsIeee)
    (t : Transmission) (webhookId certPem : Str) (b₁ : Bytes) (e₁ : VerifiedEvent)
    (h₁ : verify C t webhookId b₁ certPem = .ok e₁) (b₂ : Bytes) (e₂ : VerifiedEvent) :
    verify C t webhookId b₂ certPem = .ok e₂ ↔
      Lib.Crc32.hash b₁ = Lib.Crc32.hash b₂ ∧ VerifiedEvent.fromBody C .paypal b₂ = .ok e₂ := by
  obtain ⟨hc, signature, publicKey, hs, hk, hv, -⟩ := verify_eq_ok_iff.mp h₁
  rw [← hcrc, ← hcrc]
  refine ⟨fun h₂ => ?_, fun ⟨hsum, he⟩ => ?_⟩
  · obtain ⟨-, signature', publicKey', hs', hk', hv', he⟩ := verify_eq_ok_iff.mp h₂
    cases hs.symm.trans hs'
    cases hk.symm.trans hk'
    exact ⟨signedMessage_inj.mp (utf8_injective (hrsa _ _ _ _ hv hv')), he⟩
  · rw [signedMessage_inj.mpr hsum] at hv
    exact verify_eq_ok_iff.mpr ⟨hc, signature, publicKey, hs, hk, hv, he⟩

/-! ## Two bodies under one signature -/

/-- Base64 has no whitespace to trim. -/
theorem trim_encode (bs : Bytes) : trim (Lib.Base64.encode bs) = Lib.Base64.encode bs := by
  apply trim_of_forall
  intro c hc hw
  obtain ⟨hlo, hhi⟩ := Lib.Base64.encode_ascii bs c hc
  simp only [isWhitespace, Bool.or_eq_true, Bool.and_eq_true, decide_eq_true_eq, beq_iff_eq] at hw
  omega

namespace Recorded

open Fiducia.Recorded

def transmission : Transmission :=
  { transmissionId := "transmission-formal".toList
    transmissionTime := "2026-09-08T12:00:00Z".toList
    signatureB64 := Lib.Base64.encode paypalSignature
    certUrl := certUrl
    authAlgo := "SHA256withRSA".toList }

def webhookId : Str := "WH-FORMAL".toList

def deniedEvent : VerifiedEvent :=
  { provider := .paypal, id := "WH-lqat".toList, eventType := "PAYMENT.CAPTURE.DENIED".toList,
    payload := deniedBody }

def completedEvent : VerifiedEvent :=
  { provider := .paypal, id := "WH-81u23".toList, eventType := "PAYMENT.CAPTURE.COMPLETED".toList,
    payload := completedBody }

section
variable {message signature : Bytes} {t : Transmission} {body : Bytes} {e : VerifiedEvent}

theorem signatureOf_of_encode {bs : Bytes} (h : t.signatureB64 = Lib.Base64.encode bs) :
    signatureOf (recordedWith message signature) t = some bs := by
  have hd : (recordedWith message signature).base64Decode (Lib.Base64.encode bs) = some bs :=
    Lib.Base64.decode_encode bs
  unfold signatureOf
  rw [h, trim_encode, hd]
  rfl

theorem rsaPublicKeyFromCert_certPem :
    rsaPublicKeyFromCert (recordedWith message signature) certPem = .ok () :=
  rsaPublicKeyFromCert_eq_ok_iff.mpr ⟨(), [], certificateFromPem_eq_ok rfl, rfl, rfl⟩

/-- The signature is accepted with the transmissions and bodies of its message. -/
theorem accepted (hs : t.signatureB64 = Lib.Base64.encode signature) (hu : t.certUrl = certUrl)
    (ha : t.authAlgo = "SHA256withRSA".toList)
    (hm : asBytes (signedMessage (recordedWith message signature) t.transmissionId
      t.transmissionTime webhookId body) = message)
    (he : VerifiedEvent.fromBody (recordedWith message signature) .paypal body = .ok e) :
    verify (recordedWith message signature) t webhookId body certPem = .ok e := by
  have hurl : certUrlIsPaypal recorded certUrl = true := by decide +kernel
  have hc : Configured (recordedWith message signature) t webhookId :=
    ⟨by rw [ha]; decide +kernel, by rw [hu]; exact hurl, by decide⟩
  exact verify_eq_ok_iff.mpr ⟨hc, signature, (), signatureOf_of_encode hs,
    rsaPublicKeyFromCert_certPem, rsaVerify_iff.mpr ⟨rfl, hm⟩, he⟩

end

/-- The recorded signature is accepted for the events of its CRC-32. -/
theorem accepted_of_crc32 {body : Bytes} {e : VerifiedEvent}
    (hcrc : Lib.Crc32.hash body = 2936695505)
    (he : VerifiedEvent.fromBody recorded .paypal body = .ok e) :
    verify recorded transmission webhookId body certPem = .ok e := by
  refine accepted rfl rfl rfl ?_ he
  unfold signedMessage
  rw [crc32IsIeee, hcrc]
  decide +kernel

theorem denied_accepted :
    verify recorded transmission webhookId deniedBody certPem = .ok deniedEvent :=
  accepted_of_crc32 (by decide +kernel) (by decide +kernel)

theorem completed_accepted :
    verify recorded transmission webhookId completedBody certPem = .ok completedEvent :=
  accepted_of_crc32 (by decide +kernel) (by decide +kernel)

end Recorded

open Fiducia.Recorded Recorded in
/-- The recorded signature, of the message of `deniedBody`, is accepted for
`completedBody` as well. -/
theorem accepts_two_bodies :
    recorded.RsaOneMessage ∧ recorded.Crc32IsIeee ∧ deniedBody ≠ completedBody ∧
      verify recorded transmission webhookId deniedBody certPem = .ok deniedEvent ∧
      verify recorded transmission webhookId completedBody certPem = .ok completedEvent :=
  ⟨rsaOneMessage, crc32IsIeee, by decide +kernel, denied_accepted, completed_accepted⟩

open Fiducia.Recorded Recorded in
/-- The two recorded bodies have one CRC-32. -/
theorem recorded_acceptance_binds_crc32 :
    Lib.Crc32.hash deniedBody = Lib.Crc32.hash completedBody :=
  ((acceptance_binds_crc32 recorded rsaOneMessage crc32IsIeee transmission webhookId certPem
    deniedBody deniedEvent denied_accepted completedBody completedEvent).mp completed_accepted).1

end Fiducia.Paypal
