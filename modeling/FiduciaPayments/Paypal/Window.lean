import FiduciaPayments.Paypal.Binding

/-!
# Four bytes of a body

What the CRC-32 in the signed message protects of the body, and what not. Under
an accepted signature, a change within four consecutive bytes is refused
(`window_bound`); but whatever else is changed, one choice of four bytes, at any
place, gets the body past the signature, and no other (`one_window_passes`).
-/

namespace Fiducia.Paypal

section
variable {C : Crates} {t : Transmission} {webhookId certPem : Str} {e e' : VerifiedEvent}
  {body body' : Bytes}

/-- Under an accepted signature, the event parser decides about the bodies of its
CRC-32, and the others are refused. -/
theorem verify_of_accepted (hrsa : C.RsaOneMessage) (hcrc : C.Crc32IsIeee)
    (h : verify C t webhookId body certPem = .ok e) :
    verify C t webhookId body' certPem =
      if Lib.Crc32.hash body' = Lib.Crc32.hash body then VerifiedEvent.fromBody C .paypal body'
      else .error .signatureMismatch := by
  obtain ⟨hc, signature, publicKey, hs, hk, hv, -⟩ := verify_eq_ok_iff.mp h
  rw [verify_of_configured hc, hs, hk]
  show (if C.rsaVerify publicKey (asBytes (signedMessage C t.transmissionId t.transmissionTime
    webhookId body')) signature then _ else _) = _
  split
  · rename_i hv'
    have hsum := signedMessage_inj.mp (Lib.Utf8.utf8_injective (hrsa _ _ _ _ hv' hv))
    rw [hcrc, hcrc] at hsum
    rw [if_pos hsum]
  · rename_i hv'
    refine (if_neg fun hsum => hv' ?_).symm
    rw [← hcrc body', ← hcrc body] at hsum
    rwa [signedMessage_inj.mpr hsum]

/-- Two bodies of one length that are accepted under one signature do not differ
within four consecutive bytes only. -/
theorem window_bound (hrsa : C.RsaOneMessage) (hcrc : C.Crc32IsIeee) {p w w' s : Bytes}
    (hl : w.length = w'.length) (h4 : w.length ≤ 4)
    (h : verify C t webhookId (p ++ w ++ s) certPem = .ok e) (hne : w ≠ w') :
    verify C t webhookId (p ++ w' ++ s) certPem = .error .signatureMismatch := by
  rw [verify_of_accepted hrsa hcrc h, if_neg]
  exact fun hsum => hne ((Lib.Crc32.hash_window_inj hl h4).mp hsum.symm)

/-- Under an accepted signature, a body with four bytes left open, anywhere, is
past the signature for one choice of them, and for no other. -/
theorem one_window_passes (hrsa : C.RsaOneMessage) (hcrc : C.Crc32IsIeee)
    (h : verify C t webhookId body certPem = .ok e) (p s : Bytes) :
    ∃ w, w.length = 4 ∧ verify C t webhookId (p ++ w ++ s) certPem =
        VerifiedEvent.fromBody C .paypal (p ++ w ++ s) ∧
      ∀ w', w'.length = 4 → w' ≠ w →
        verify C t webhookId (p ++ w' ++ s) certPem = .error .signatureMismatch := by
  obtain ⟨w, hw, hsum⟩ := Lib.Crc32.exists_window p s (Lib.Crc32.hash body)
  refine ⟨w, hw, ?_, fun w' hw' hne => ?_⟩
  · rw [verify_of_accepted hrsa hcrc h, if_pos hsum]
  · rw [verify_of_accepted hrsa hcrc h, if_neg]
    rw [← hsum]
    exact fun he => hne ((Lib.Crc32.hash_window_inj (hw'.trans hw.symm) (by omega)).mp he)

end

/-! ## The recorded delivery -/

open Fiducia.Recorded Recorded

theorem window_bound_recorded :
    verify recorded transmission webhookId ([] ++ [0x20] ++ deniedBody.drop 1) certPem =
      .error .signatureMismatch := by
  have h : verify recorded transmission webhookId ([] ++ deniedBody.take 1 ++ deniedBody.drop 1)
      certPem = .ok deniedEvent := by
    rw [List.nil_append, List.take_append_drop]
    exact denied_accepted
  exact window_bound rsaOneMessage crc32IsIeee (by decide) (by decide) h (by decide)

theorem one_window_passes_recorded :
    ∃ w, w.length = 4 ∧ verify recorded transmission webhookId ([] ++ w ++ []) certPem =
        VerifiedEvent.fromBody recorded .paypal ([] ++ w ++ []) ∧
      ∀ w', w'.length = 4 → w' ≠ w →
        verify recorded transmission webhookId ([] ++ w' ++ []) certPem =
          .error .signatureMismatch :=
  one_window_passes rsaOneMessage crc32IsIeee denied_accepted [] []

end Fiducia.Paypal
