import FiduciaPayments.Paypal.Binding

/-!
# The fields of the PayPal message

The transmission id, the transmission time and the webhook id are joined by
`|` and not escaped. They are read back from the message exactly when none of
them has a `|`: one inside a field can as well be the one between two fields
(`exists_shift`), and without one the fields are what is between them
(`fields_inj_of_clean`). `verify` refuses an empty webhook id, so it leaves one
more case in which an accepted signature is accepted for one triple only: a
`|` at the end of the webhook id (`fields_inj_of_clean_dropLast`).
-/

namespace Fiducia.Paypal

open Lib.Text Lib.Utf8

/-- The fields as the message has them. -/
def fields (transmissionId transmissionTime webhookId : Str) : Str :=
  transmissionId ++ '|' :: (transmissionTime ++ '|' :: webhookId)

section
variable {C : Crates} {rawBody : Bytes}
  {id₁ time₁ wh₁ id₂ time₂ wh₂ : Str}

theorem signedMessage_eq_iff :
    signedMessage C id₁ time₁ wh₁ rawBody = signedMessage C id₂ time₂ wh₂ rawBody ↔
      fields id₁ time₁ wh₁ = fields id₂ time₂ wh₂ := by
  have h : ∀ id time wh, signedMessage C id time wh rawBody =
      fields id time wh ++ ("|".toList ++ u32ToString (C.crc32 rawBody)) := by
    intro id time wh
    simp [signedMessage, fields]
  rw [h, h, List.append_left_inj]

theorem count_fields (id time wh : Str) :
    (fields id time wh).count '|' = id.count '|' + time.count '|' + wh.count '|' + 2 := by
  simp only [fields, List.count_append, List.count_cons_self]
  omega

/-! ## Fields that are bound -/

/-- As many `|` in the webhook id leave none for the other two. -/
theorem fields_inj (hid : '|' ∉ id₁) (htime : '|' ∉ time₁)
    (hwh : wh₂.count '|' = wh₁.count '|') (h : fields id₁ time₁ wh₁ = fields id₂ time₂ wh₂) :
    id₁ = id₂ ∧ time₁ = time₂ ∧ wh₁ = wh₂ := by
  have hc := congrArg (List.count '|') h
  rw [count_fields, count_fields, List.count_eq_zero.mpr hid, List.count_eq_zero.mpr htime] at hc
  have hid' : '|' ∉ id₂ := List.count_eq_zero.mp (by omega)
  have htime' : '|' ∉ time₂ := List.count_eq_zero.mp (by omega)
  obtain ⟨hi, hrest⟩ := append_sep_inj hid hid' h
  exact ⟨hi, append_sep_inj htime htime' hrest⟩

theorem fields_inj_of_clean (hid : '|' ∉ id₁) (htime : '|' ∉ time₁) (hwh : '|' ∉ wh₁)
    (h : fields id₁ time₁ wh₁ = fields id₂ time₂ wh₂) :
    id₁ = id₂ ∧ time₁ = time₂ ∧ wh₁ = wh₂ := by
  have hc := congrArg (List.count '|') h
  rw [count_fields, count_fields, List.count_eq_zero.mpr hid, List.count_eq_zero.mpr htime,
    List.count_eq_zero.mpr hwh] at hc
  refine fields_inj hid htime ?_ h
  rw [List.count_eq_zero.mpr hwh]
  omega

/-- A webhook id that is not empty ends as the message's fields do. -/
theorem fields_inj_of_clean_dropLast (hid : '|' ∉ id₁) (htime : '|' ∉ time₁)
    (hwh : '|' ∉ wh₁.dropLast) (hne₁ : wh₁ ≠ []) (hne₂ : wh₂ ≠ [])
    (h : fields id₁ time₁ wh₁ = fields id₂ time₂ wh₂) :
    id₁ = id₂ ∧ time₁ = time₂ ∧ wh₁ = wh₂ := by
  by_cases hlast : wh₁.getLast hne₁ = '|'
  · have hw₁ : wh₁.count '|' = 1 := by
      rw [← List.dropLast_append_getLast hne₁, List.count_append, hlast,
        List.count_eq_zero.mpr hwh]
      rfl
    have hlast₂ : wh₂.getLast hne₂ = '|' := by
      have hl := congrArg List.getLast? h
      simp only [fields, List.getLast?_append, List.getLast?_cons,
        List.getLast?_eq_getLast_of_ne_nil hne₁, List.getLast?_eq_getLast_of_ne_nil hne₂] at hl
      simpa [hlast] using hl.symm
    have hw₂ : 1 ≤ wh₂.count '|' := List.count_pos_iff.mpr (hlast₂ ▸ List.getLast_mem hne₂)
    have hc := congrArg (List.count '|') h
    rw [count_fields, count_fields, List.count_eq_zero.mpr hid, List.count_eq_zero.mpr htime,
      hw₁] at hc
    exact fields_inj hid htime (by omega) h
  · refine fields_inj_of_clean hid htime (fun hm => ?_) h
    rw [← List.dropLast_append_getLast hne₁] at hm
    rcases List.mem_append.mp hm with hm | hm
    · exact hwh hm
    · exact hlast (List.mem_singleton.mp hm).symm

end

/-! ## Fields that shift -/

section
variable {id time wh : Str}

theorem shift_of_mem_id (h : '|' ∈ id) (time wh : Str) :
    ∃ id' time', fields id time wh = fields id' time' wh ∧ id ≠ id' := by
  obtain ⟨a, b, rfl⟩ := List.append_of_mem h
  exact ⟨a, b ++ '|' :: time, by simp [fields], fun e => by simpa using congrArg List.length e⟩

theorem shift_of_mem_time (id : Str) (h : '|' ∈ time) (wh : Str) :
    ∃ id' time', fields id time wh = fields id' time' wh ∧ id ≠ id' := by
  obtain ⟨a, b, rfl⟩ := List.append_of_mem h
  exact ⟨id ++ '|' :: a, b, by simp [fields], fun e => by simpa using congrArg List.length e⟩

/-- Cut the webhook id at a `|`. -/
theorem shift_wh (id time a b : Str) :
    fields id time (a ++ '|' :: b) = fields (id ++ '|' :: time) a b ∧ id ≠ id ++ '|' :: time :=
  ⟨by simp [fields], fun e => by simpa using congrArg List.length e⟩

/-- A `|` in a field shifts: another id, with other fields, has the message. -/
theorem exists_shift (h : ¬ ('|' ∉ id ∧ '|' ∉ time ∧ '|' ∉ wh)) :
    ∃ id' time' wh', fields id time wh = fields id' time' wh' ∧ id ≠ id' := by
  rw [not_and_or, not_and_or, not_not, not_not, not_not] at h
  rcases h with h | h | h
  · obtain ⟨id', time', h⟩ := shift_of_mem_id h time wh
    exact ⟨id', time', wh, h⟩
  · obtain ⟨id', time', h⟩ := shift_of_mem_time id h wh
    exact ⟨id', time', wh, h⟩
  · obtain ⟨a, b, rfl⟩ := List.append_of_mem h
    exact ⟨_, a, b, shift_wh id time a b⟩

/-- It leaves a webhook id, unless it is at the end of it. -/
theorem exists_shift_ne_nil (hne : wh ≠ [])
    (h : ¬ ('|' ∉ id ∧ '|' ∉ time ∧ '|' ∉ wh.dropLast)) :
    ∃ id' time' wh', fields id time wh = fields id' time' wh' ∧ id ≠ id' ∧ wh' ≠ [] := by
  rw [not_and_or, not_and_or, not_not, not_not, not_not] at h
  rcases h with h | h | h
  · obtain ⟨id', time', he, hid⟩ := shift_of_mem_id h time wh
    exact ⟨id', time', wh, he, hid, hne⟩
  · obtain ⟨id', time', he, hid⟩ := shift_of_mem_time id h wh
    exact ⟨id', time', wh, he, hid, hne⟩
  · obtain ⟨a, b, hab⟩ := List.append_of_mem h
    have hwh : wh = a ++ '|' :: (b ++ [wh.getLast hne]) := by
      rw [← List.cons_append, ← List.append_assoc, ← hab, List.dropLast_append_getLast]
    obtain ⟨he, hid⟩ := shift_wh id time a (b ++ [wh.getLast hne])
    exact ⟨_, a, _, by rw [← he, ← hwh], hid, by simp⟩

end

/-! ## What acceptance binds -/

/-- A message binds its fields exactly when none of them has a `|`. A
signature that is accepted for a transmission is accepted for no other id,
time and webhook id exactly when the id and the time have none, and the
webhook id at most one, at its end. -/
theorem fields_bound_iff_no_bar (C : Crates) (hrsa : C.RsaOneMessage) :
    (∀ id time wh rawBody,
      (∀ id' time' wh', signedMessage C id time wh rawBody = signedMessage C id' time' wh' rawBody →
        id = id' ∧ time = time' ∧ wh = wh') ↔
      '|' ∉ id ∧ '|' ∉ time ∧ '|' ∉ wh) ∧
    ∀ t webhookId rawBody certPem e, verify C t webhookId rawBody certPem = .ok e →
      ((∀ t' webhookId' e', t'.signatureB64 = t.signatureB64 →
        verify C t' webhookId' rawBody certPem = .ok e' →
        t.transmissionId = t'.transmissionId ∧ t.transmissionTime = t'.transmissionTime ∧
          webhookId = webhookId') ↔
      '|' ∉ t.transmissionId ∧ '|' ∉ t.transmissionTime ∧ '|' ∉ webhookId.dropLast) := by
  refine ⟨fun id time wh rawBody => ⟨fun h => ?_, fun ⟨hid, htime, hwh⟩ id' time' wh' he => ?_⟩,
    fun t webhookId rawBody certPem e hv => ⟨fun h => ?_, fun ⟨hid, htime, hwh⟩ t' webhookId' e'
      ht' hv' => ?_⟩⟩
  · by_contra hbar
    obtain ⟨id', time', wh', he, hne⟩ := exists_shift hbar
    exact hne (h id' time' wh' (signedMessage_eq_iff.mpr he)).1
  · exact fields_inj_of_clean hid htime hwh (signedMessage_eq_iff.mp he)
  · obtain ⟨hc, signature, publicKey, hs, hk, hm, hb⟩ := verify_eq_ok_iff.mp hv
    by_contra hbar
    obtain ⟨id', time', wh', he, hne, hwh'⟩ := exists_shift_ne_nil hc.webhookId hbar
    -- The same transmission, with the fields shifted.
    let t' : Transmission := { t with transmissionId := id', transmissionTime := time' }
    have hv' : verify C t' wh' rawBody certPem = .ok e := by
      rw [signedMessage_eq_iff.mpr he] at hm
      exact verify_eq_ok_iff.mpr ⟨⟨hc.authAlgo, hc.certUrl, hwh'⟩, signature, publicKey, hs, hk,
        hm, hb⟩
    exact hne (h t' wh' e rfl hv').1
  · obtain ⟨hc, signature, publicKey, hs, hk, hm, -⟩ := verify_eq_ok_iff.mp hv
    obtain ⟨hc', signature', publicKey', hs', hk', hm', -⟩ := verify_eq_ok_iff.mp hv'
    have hsig : signatureOf C t' = signatureOf C t := by rw [signatureOf, ht', ← signatureOf]
    cases (hsig.symm.trans hs').symm.trans hs
    cases hk.symm.trans hk'
    exact fields_inj_of_clean_dropLast hid htime hwh hc.webhookId hc'.webhookId
      (signedMessage_eq_iff.mp (utf8_injective (hrsa _ _ _ _ hm hm')))

namespace Recorded

open Fiducia.Recorded

def barredMessage : Bytes :=
  asBytes "transmission|formal|2026-09-08T12:00:00Z|WH-FORMAL|2936695505".toList

/-- The RSA signature of `barredMessage` under the key of `certPem`. -/
def barredSignature : Bytes :=
  [0x3b, 0xbb, 0xad, 0x13, 0x28, 0xa5, 0x77, 0xd6, 0xe0, 0xc7, 0x5a, 0xae, 0x14, 0x2e, 0xe7, 0xb6,
   0x60, 0x92, 0xd4, 0x99, 0xcd, 0x57, 0x92, 0x46, 0xdd, 0xa0, 0xc3, 0x68, 0xba, 0xc0, 0xdb, 0xec,
   0x0b, 0xe3, 0xab, 0x23, 0x7c, 0x73, 0xd9, 0xc7, 0x02, 0xd9, 0x12, 0xa1, 0x9c, 0xa0, 0xe3, 0xa5,
   0x5a, 0x1f, 0x63, 0x6c, 0xd0, 0x61, 0x25, 0x67, 0xbc, 0x8b, 0x1d, 0xa7, 0xac, 0xa9, 0x4e, 0xe4,
   0x62, 0x76, 0x0b, 0x34, 0xa4, 0x63, 0xd7, 0xab, 0x2b, 0x87, 0xc2, 0x4f, 0x20, 0x31, 0x0a, 0xc7,
   0xff, 0xb5, 0x14, 0xa1, 0x83, 0x6b, 0x22, 0x2b, 0x55, 0x2f, 0x62, 0x70, 0x0f, 0x2f, 0x0c, 0x18,
   0xa5, 0x23, 0x70, 0x61, 0xcb, 0x5f, 0x45, 0xe0, 0xc7, 0xa6, 0x1a, 0xc4, 0x0b, 0x72, 0x62, 0x3a,
   0x1e, 0x9e, 0xa4, 0x79, 0xcc, 0x00, 0xca, 0xf3, 0xdd, 0x19, 0xf7, 0x48, 0x86, 0x80, 0x67, 0xaa,
   0xd3, 0x7b, 0x81, 0xfa, 0xc8, 0x67, 0xcf, 0xfc, 0x8f, 0xec, 0x4c, 0x19, 0x61, 0xe9, 0x8a, 0x9d,
   0x44, 0x0e, 0x5c, 0xee, 0x37, 0x7f, 0x5e, 0xd8, 0x78, 0xe8, 0xe1, 0x05, 0x06, 0x75, 0x94, 0xc8,
   0x70, 0xb9, 0xfb, 0x86, 0x1a, 0xc1, 0x4d, 0xb8, 0xd4, 0xbc, 0x32, 0xf1, 0xd4, 0x87, 0xb5, 0x92,
   0xca, 0xe1, 0x9c, 0xdf, 0xf0, 0x2a, 0x18, 0x30, 0x54, 0x66, 0xb8, 0x9a, 0x20, 0x83, 0xf7, 0x4a,
   0x76, 0xe2, 0xb8, 0x11, 0x47, 0x2e, 0x7d, 0x9b, 0x33, 0x6d, 0xbf, 0xa4, 0xff, 0x2f, 0xb1, 0xa4,
   0x1e, 0x0e, 0x79, 0xa8, 0x6b, 0x5f, 0x33, 0x58, 0xa5, 0x87, 0xc5, 0x1e, 0x5a, 0xd0, 0xfd, 0xcb,
   0xca, 0x53, 0x3c, 0xfb, 0x1c, 0xc5, 0xe2, 0x30, 0xbc, 0x61, 0xbd, 0x5c, 0x6e, 0x8a, 0x10, 0xfc,
   0xfa, 0xc8, 0xfc, 0xc0, 0xb5, 0xad, 0xcd, 0x86, 0xd3, 0xe8, 0x5e, 0x16, 0x48, 0xdd, 0x56, 0xe2]

/-- The recorded crates, with the signature of another message. -/
abbrev barred : Crates := recordedWith barredMessage barredSignature

/-- A transmission whose id has a `|`. -/
def barredId : Transmission :=
  { transmission with
    transmissionId := "transmission|formal".toList
    signatureB64 := Lib.Base64.encode barredSignature }

/-- The same signature on a transmission whose time has it. -/
def barredTime : Transmission :=
  { barredId with
    transmissionId := "transmission".toList
    transmissionTime := "formal|2026-09-08T12:00:00Z".toList }

/-- What is signed is the message of both. -/
theorem barred_accepted {t : Transmission} (hs : t.signatureB64 = Lib.Base64.encode barredSignature)
    (hu : t.certUrl = certUrl) (ha : t.authAlgo = "SHA256withRSA".toList)
    (hf : fields t.transmissionId t.transmissionTime webhookId =
      fields barredId.transmissionId barredId.transmissionTime webhookId) :
    verify barred t webhookId deniedBody certPem = .ok deniedEvent := by
  refine accepted hs hu ha ?_ (by decide +kernel)
  rw [signedMessage_eq_iff.mpr hf]
  decide +kernel

end Recorded

open Fiducia.Recorded Recorded in
/-- Two transmissions with one message, accepted with one signature. -/
theorem accepts_two_transmissions :
    barred.RsaOneMessage ∧ barredId.transmissionId ≠ barredTime.transmissionId ∧
      barredId.signatureB64 = barredTime.signatureB64 ∧
      signedMessage barred barredId.transmissionId barredId.transmissionTime webhookId deniedBody =
        signedMessage barred barredTime.transmissionId barredTime.transmissionTime webhookId
          deniedBody ∧
      verify barred barredId webhookId deniedBody certPem = .ok deniedEvent ∧
      verify barred barredTime webhookId deniedBody certPem = .ok deniedEvent :=
  have hf : fields barredTime.transmissionId barredTime.transmissionTime webhookId =
      fields barredId.transmissionId barredId.transmissionTime webhookId := by decide
  ⟨rsaOneMessage, by decide, rfl, signedMessage_eq_iff.mpr hf.symm,
    barred_accepted rfl rfl rfl rfl, barred_accepted rfl rfl rfl hf⟩

open Fiducia.Recorded Recorded in
/-- The recorded transmission has no `|`, so its signature is accepted for no
other. -/
theorem recorded_fields_bound :
    verify recorded transmission webhookId deniedBody certPem = .ok deniedEvent ∧
      ∀ t' webhookId' e', t'.signatureB64 = transmission.signatureB64 →
        verify recorded t' webhookId' deniedBody certPem = .ok e' →
        transmission.transmissionId = t'.transmissionId ∧
          transmission.transmissionTime = t'.transmissionTime ∧ webhookId = webhookId' :=
  ⟨denied_accepted, ((fields_bound_iff_no_bar recorded rsaOneMessage).2 transmission webhookId
    deniedBody certPem deniedEvent denied_accepted).mpr ⟨by decide, by decide, by decide⟩⟩

end Fiducia.Paypal
