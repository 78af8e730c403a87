import FiduciaPayments.Paypal.Verify
import FiduciaPayments.Stripe.Verify

/-!
# Before and after authentication

A request is `Authentic` when it passes every check before the event. The
verdict on an authentic request is the event step's (`verify_of_authentic`);
the verdict on any other is an error that does not depend on the body
(`refusal`, `verify_of_not_authentic`). Two theorems about both verifiers
follow:

* `rejections_reveal_nothing`: bodies that fail the signature check are
  refused alike, and only the event step answers `MalformedEvent`;
* `event_step_reads_name`: which authenticated JSON values give an event.
-/

namespace Fiducia

open Lib.Result Lib.Text

namespace Stripe

section
variable (C : Crates) (payload : Bytes) (header secret : Str) (now : Int64) (tolerance : UInt64)

/-- The signature check: a signature of the header is the MAC of the body. -/
def Signed : Prop :=
  C.hmacTakesKey (asBytes secret) ∧ ∃ t sigs, parseSignatureHeader header = .ok (t, sigs) ∧
    sigs.any (candidateMatches C (expectedDigest C payload secret t)) = true

/-- The request passes every check before the event. -/
def Authentic : Prop :=
  secret ≠ [] ∧ ∃ t sigs, parseSignatureHeader header = .ok (t, sigs) ∧
    InWindow now t tolerance ∧ C.hmacTakesKey (asBytes secret) ∧
    sigs.any (candidateMatches C (expectedDigest C payload secret t)) = true

/-- The error of a request that is not authentic. -/
def refusal : VerifyError :=
  if secret = [] then .invalidInput "empty signing secret".toList
  else
    match parseSignatureHeader header with
    | .error e => e
    | .ok (t, _) =>
      if InWindow now t tolerance then
        if C.hmacTakesKey (asBytes secret) then .signatureMismatch
        else .invalidInput "secret unusable as HMAC key".toList
      else .timestampOutOfTolerance (clampedSkew now t) tolerance

end

section
variable {C : Crates} {payload : Bytes} {header secret : Str} {now : Int64} {tolerance : UInt64}

theorem Authentic.signed (h : Authentic C payload header secret now tolerance) :
    Signed C payload header secret := by
  obtain ⟨-, t, sigs, hp, -, hk, hm⟩ := h
  exact ⟨hk, t, sigs, hp, hm⟩

theorem verify_of_authentic (h : Authentic C payload header secret now tolerance) :
    verify C payload header secret now tolerance = VerifiedEvent.fromBody C .stripe payload := by
  obtain ⟨hs, t, sigs, hp, hw, hk, hm⟩ := h
  rw [verify_of_parsed hs hp, if_pos hw, authenticate_eq, if_pos hk, if_pos hm]

theorem verify_of_not_authentic (h : ¬ Authentic C payload header secret now tolerance) :
    verify C payload header secret now tolerance =
      .error (refusal C header secret now tolerance) := by
  unfold refusal
  split
  · rename_i hs
    rw [hs, verify_of_empty]
  rename_i hs
  split
  · rename_i e hp
    exact verify_of_parse_error hs hp
  rename_i t sigs hp
  rw [verify_of_parsed hs hp, authenticate_eq]
  split
  · rename_i hw
    split
    · rename_i hk
      -- What is left to fail is the signature.
      rw [if_neg fun hm => h ⟨hs, t, sigs, hp, hw, hk, hm⟩]
    · rfl
  · rfl

/-- The refusal is no answer of the event step. -/
theorem refusal_ne_malformedEvent (message : Str) :
    refusal C header secret now tolerance ≠ .malformedEvent message := by
  unfold refusal
  split
  · simp
  split
  · rename_i e hp
    rw [parseSignatureHeader_eq_error hp]
    split <;> simp
  · split
    · split <;> simp
    · simp

end

end Stripe

namespace Paypal

section
variable (C : Crates) (t : Transmission) (webhookId : Str) (rawBody : Bytes) (certPem : Str)

/-- The signature check: the transmission's signature is one of the message of
the body, under the key of the certificate. -/
def Signed : Prop :=
  ∃ signature publicKey, signatureOf C t = some signature ∧
    rsaPublicKeyFromCert C certPem = .ok publicKey ∧
    C.rsaVerify publicKey
      (asBytes (signedMessage C t.transmissionId t.transmissionTime webhookId rawBody)) signature

/-- The request passes every check before the event. -/
def Authentic : Prop := Configured C t webhookId ∧ Signed C t webhookId rawBody certPem

/-- The error of a request that is not authentic. -/
def refusal : VerifyError :=
  if !eqIgnoreAsciiCase t.authAlgo "SHA256withRSA".toList then
    .invalidInput ("unsupported auth algo: ".toList ++ t.authAlgo)
  else if !certUrlIsPaypal C t.certUrl then
    .invalidInput ("cert url is not a PayPal host: ".toList ++ t.certUrl)
  else if webhookId.isEmpty then .invalidInput "empty webhook id".toList
  else
    match signatureOf C t, rsaPublicKeyFromCert C certPem with
    | none, _ => .malformedSignature
    | some _, .error e => e
    | some _, .ok _ => .signatureMismatch

end

section
variable {C : Crates} {t : Transmission} {webhookId : Str} {rawBody : Bytes} {certPem : Str}

theorem verify_of_authentic (h : Authentic C t webhookId rawBody certPem) :
    verify C t webhookId rawBody certPem = VerifiedEvent.fromBody C .paypal rawBody := by
  obtain ⟨hc, signature, publicKey, hs, hk, hv⟩ := h
  rw [verify_of_configured hc, hs, hk]
  simp only [hv, if_true]

theorem verify_of_not_authentic (h : ¬ Authentic C t webhookId rawBody certPem) :
    verify C t webhookId rawBody certPem = .error (refusal C t webhookId certPem) := by
  unfold refusal
  split
  · rename_i ha
    unfold verify
    rw [if_pos ha]
  rename_i ha
  split
  · rename_i hu
    unfold verify
    rw [if_neg ha, if_pos hu]
  rename_i hu
  split
  · rename_i hw
    unfold verify
    rw [if_neg ha, if_neg hu, if_pos hw]
  rename_i hw
  have hc : Configured C t webhookId := ⟨by simpa using ha, by simpa using hu, by simpa using hw⟩
  rw [verify_of_configured hc]
  cases hs : signatureOf C t with
  | none => rfl
  | some signature =>
    cases hk : rsaPublicKeyFromCert C certPem with
    | error e => rfl
    | ok publicKey =>
      -- What is left to fail is the signature.
      exact if_neg fun hv => h ⟨hc, signature, publicKey, hs, hk, hv⟩

/-- The refusal is no answer of the event step. -/
theorem refusal_ne_malformedEvent (message : Str) :
    refusal C t webhookId certPem ≠ .malformedEvent message := by
  unfold refusal
  split
  · simp
  split
  · simp
  split
  · simp
  split
  · simp
  · rename_i e _ hk
    obtain ⟨text, rfl⟩ := rsaPublicKeyFromCert_eq_error hk
    simp
  · simp

end

end Paypal

/-! ## Rejections -/

/-- Bodies that fail the signature check are refused with one error, whatever
they contain. A `MalformedEvent` is an answer about a body that passed every
check before the event, and is the event step's. -/
theorem rejections_reveal_nothing (C : Crates) :
    (∀ header secret now tolerance b₁ b₂,
      ¬ Stripe.Signed C b₁ header secret → ¬ Stripe.Signed C b₂ header secret →
      ∃ err, Stripe.verify C b₁ header secret now tolerance = .error err ∧
        Stripe.verify C b₂ header secret now tolerance = .error err) ∧
    (∀ header secret now tolerance b message,
      Stripe.verify C b header secret now tolerance = .error (.malformedEvent message) →
      Stripe.Authentic C b header secret now tolerance ∧
        VerifiedEvent.fromBody C .stripe b = .error (.malformedEvent message)) ∧
    (∀ t webhookId certPem b₁ b₂,
      ¬ Paypal.Signed C t webhookId b₁ certPem → ¬ Paypal.Signed C t webhookId b₂ certPem →
      ∃ err, Paypal.verify C t webhookId b₁ certPem = .error err ∧
        Paypal.verify C t webhookId b₂ certPem = .error err) ∧
    ∀ t webhookId certPem b message,
      Paypal.verify C t webhookId b certPem = .error (.malformedEvent message) →
      Paypal.Authentic C t webhookId b certPem ∧
        VerifiedEvent.fromBody C .paypal b = .error (.malformedEvent message) := by
  refine ⟨fun header secret now tolerance b₁ b₂ h₁ h₂ => ?_,
    fun header secret now tolerance b message h => ?_, fun t webhookId certPem b₁ b₂ h₁ h₂ => ?_,
    fun t webhookId certPem b message h => ?_⟩
  · exact ⟨_, Stripe.verify_of_not_authentic (mt Stripe.Authentic.signed h₁),
      Stripe.verify_of_not_authentic (mt Stripe.Authentic.signed h₂)⟩
  · by_cases ha : Stripe.Authentic C b header secret now tolerance
    · rw [Stripe.verify_of_authentic ha] at h
      exact ⟨ha, h⟩
    · rw [Stripe.verify_of_not_authentic ha] at h
      exact absurd (Except.error.inj h) (Stripe.refusal_ne_malformedEvent message)
  · exact ⟨_, Paypal.verify_of_not_authentic (mt And.right h₁),
      Paypal.verify_of_not_authentic (mt And.right h₂)⟩
  · by_cases ha : Paypal.Authentic C t webhookId b certPem
    · rw [Paypal.verify_of_authentic ha] at h
      exact ⟨ha, h⟩
    · rw [Paypal.verify_of_not_authentic ha] at h
      exact absurd (Except.error.inj h) (Paypal.refusal_ne_malformedEvent message)

/-! ## Events -/

/-- A member `type` that is no string, beside a string `event_type`. -/
def Value.HidesEventType (value : Value) : Prop :=
  (∃ w, value.get "type".toList = some w ∧ w.asStr = none) ∧ ∃ s, value.HasString "event_type" s

theorem Value.name_iff_of_not_hides {value : Value} (h : ¬ value.HidesEventType) {s : Str} :
    (value.HasString "type" s ∨ value.get "type".toList = none ∧ value.HasString "event_type" s) ↔
      (value.HasString "type" s ∨
        (¬ ∃ s', value.HasString "type" s') ∧ value.HasString "event_type" s) := by
  apply or_congr_right
  apply and_congr_left
  intro hs
  refine ⟨fun hn ⟨s', hs'⟩ => ?_, fun hn => ?_⟩
  · rw [Value.hasString_iff_get, hn] at hs'
    simp at hs'
  · rw [Option.eq_none_iff_forall_ne_some]
    intro w hw
    -- A member `type` that is no string would hide the name.
    refine h ⟨⟨w, hw, ?_⟩, s, hs⟩
    rw [Option.eq_none_iff_forall_ne_some]
    intro s' hs'
    exact hn ⟨s', Value.get_asStr_eq_some_iff.mp (by rw [hw, Option.bind_some, hs'])⟩

/-- An authenticated JSON value gives an event exactly when it is an object
with a string `id` and a name. For both verifiers the name is the string
`type`, or the string `event_type` of an object without a member `type`; for
PayPal it is the string `event_type` of an object without a string `type`,
but for objects that hide it. Every other value is a `MalformedEvent`. -/
theorem event_step_reads_name (C : Crates) :
    (∀ payload header secret now tolerance value,
      Stripe.Authentic C payload header secret now tolerance → C.fromSlice payload = .ok value →
      (∀ e, Stripe.verify C payload header secret now tolerance = .ok e ↔
        e.provider = .stripe ∧ e.payload = payload ∧ value.HasString "id" e.id ∧
          (value.HasString "type" e.eventType ∨
            value.get "type".toList = none ∧ value.HasString "event_type" e.eventType)) ∧
      ((¬ ∃ e, Stripe.verify C payload header secret now tolerance = .ok e) → ∃ message,
        Stripe.verify C payload header secret now tolerance = .error (.malformedEvent message))) ∧
    ∀ t webhookId rawBody certPem value,
      Paypal.Authentic C t webhookId rawBody certPem → C.fromSlice rawBody = .ok value →
      ¬ value.HidesEventType →
      (∀ e, Paypal.verify C t webhookId rawBody certPem = .ok e ↔
        e.provider = .paypal ∧ e.payload = rawBody ∧ value.HasString "id" e.id ∧
          (value.HasString "type" e.eventType ∨
            (¬ ∃ s, value.HasString "type" s) ∧ value.HasString "event_type" e.eventType)) ∧
      ((¬ ∃ e, Paypal.verify C t webhookId rawBody certPem = .ok e) → ∃ message,
        Paypal.verify C t webhookId rawBody certPem = .error (.malformedEvent message)) := by
  refine ⟨fun payload header secret now tolerance value ha hv => ?_,
    fun t webhookId rawBody certPem value ha hv hhide => ?_⟩
  · rw [Stripe.verify_of_authentic ha]
    exact VerifiedEvent.fromBody_of_json hv
  · rw [Paypal.verify_of_authentic ha]
    simp only [← Value.name_iff_of_not_hides hhide]
    exact VerifiedEvent.fromBody_of_json hv

namespace Recorded

/-- The HMAC-SHA256 of `deniedBody`, signed at 1680000000 with `secret`. -/
def deniedMac : Digest :=
  ⟨[0x50, 0xe0, 0xd9, 0x85, 0xcc, 0x5f, 0x23, 0xec, 0xc9, 0x9c, 0xbd, 0x02, 0x07, 0xae, 0x7b, 0xbb,
    0x04, 0x57, 0xe5, 0x71, 0xe3, 0xe9, 0xdb, 0xb5, 0xe9, 0x2d, 0xf5, 0x62, 0xc2, 0x72, 0x47, 0x29],
    rfl⟩

/-- The recorded crates and one more HMAC. -/
def stripeDenied : Crates :=
  { recorded with
    hmacSha256 := fun key message =>
      if key = asBytes secret ∧ message = asBytes "1680000000.".toList ++ deniedBody then deniedMac
      else recorded.hmacSha256 key message }

def deniedHeader : Str :=
  "t=1680000000,v1=50e0d985cc5f23ecc99cbd0207ae7bbb0457e571e3e9dbb5e92df562c2724729".toList

def deniedValue : Value :=
  .object [("id".toList, .string "WH-lqat".toList),
    ("event_type".toList, .string "PAYMENT.CAPTURE.DENIED".toList)]

/-- The event of `deniedBody`, from Stripe. -/
def stripeDeniedEvent : VerifiedEvent :=
  { provider := .stripe, id := "WH-lqat".toList, eventType := "PAYMENT.CAPTURE.DENIED".toList,
    payload := deniedBody }

end Recorded

open Recorded in
/-- Stripe accepts a signed body whose only name is its `event_type`. -/
theorem stripe_accepts_event_type :
    Stripe.Authentic stripeDenied deniedBody deniedHeader secret 1680000000 300 ∧
      stripeDenied.fromSlice deniedBody = .ok deniedValue ∧
      (¬ ∃ s, deniedValue.HasString "type" s) ∧
      Stripe.verify stripeDenied deniedBody deniedHeader secret 1680000000 300 =
        .ok stripeDeniedEvent := by
  refine ⟨⟨by decide, 1680000000, [deniedHeader.drop 16], by decide +kernel, by decide, rfl,
    by decide +kernel⟩, ?_, ?_, by decide +kernel⟩
  · show json deniedBody = _
    unfold json
    rw [if_neg (by decide +kernel), if_pos rfl]
    rfl
  · intro ⟨s, hs⟩
    rw [Value.hasString_iff_get] at hs
    simp [deniedValue, Value.get, List.lookup_cons] at hs

end Fiducia
