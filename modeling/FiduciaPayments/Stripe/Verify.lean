import FiduciaPayments.Lib.Wide
import FiduciaPayments.Stripe.Header

/-!
# `stripe::verify`

The verifier, and what its two checks after the header come to:

* `verify_of_parsed`: once the header is read, the replay window is the exact
  integer distance between the clock and the timestamp, and what follows it
  (`authenticate`) depends on neither the clock nor the tolerance;
* `matched_iff`: a signature matches when it is a hexadecimal spelling of the
  MAC of `macInput`.
-/

namespace Fiducia.Stripe

open Lib.Result Lib.Wide

/-- An HMAC-SHA256 computation: the key, and the bytes it was updated with. -/
structure HmacSha256 where
  key : Bytes
  absorbed : Bytes

namespace HmacSha256

/-- `HmacSha256::new_from_slice`. -/
def newFromSlice (C : Crates) (key : Bytes) : Option HmacSha256 :=
  if C.hmacTakesKey key then some { key, absorbed := [] } else none

/-- `Mac::update`. -/
def update (mac : HmacSha256) (data : Bytes) : HmacSha256 :=
  { mac with absorbed := mac.absorbed ++ data }

/-- `Mac::finalize`. -/
def finalize (C : Crates) (mac : HmacSha256) : Digest := C.hmacSha256 mac.key mac.absorbed

end HmacSha256

/-- The difference of the clock and the signed timestamp. -/
def skew (nowUnix timestamp : Int64) : I128 := I128.ofI64 nowUnix - I128.ofI64 timestamp

/-- Whether a `v1` value is the digest: decode and compare bytes, not text. -/
def candidateMatches (C : Crates) (expected : Digest) (candidate : Str) : Bool :=
  ((C.hexDecode candidate).filter fun bytes => bytes.length == expected.val.length).any
    fun bytes => C.ctEq bytes expected.val

/-- `verify` from the MAC on: the signature, then the event. -/
def authenticate (C : Crates) (payload : Bytes) (secret : Str) (timestamp : Int64)
    (v1Signatures : List Str) : Except VerifyError VerifiedEvent := do
  -- signed_payload = "{t}.{body}"
  let mac ← okOr (HmacSha256.newFromSlice C (asBytes secret))
    (.invalidInput "secret unusable as HMAC key".toList)
  let mac := mac.update (asBytes (i64ToString timestamp))
  let mac := mac.update (asBytes ".".toList)
  let mac := mac.update payload
  let expected := mac.finalize C
  let matched := v1Signatures.any (candidateMatches C expected)
  if !matched then .error .signatureMismatch
  else VerifiedEvent.fromBody C .stripe payload

/-- `stripe::verify`. -/
def verify (C : Crates) (payload : Bytes) (sigHeader secret : Str) (nowUnix : Int64)
    (toleranceSecs : UInt64) : Except VerifyError VerifiedEvent :=
  if secret.isEmpty then .error (.invalidInput "empty signing secret".toList)
  else do
    let (timestamp, v1Signatures) ← parseSignatureHeader sigHeader
    if (skew nowUnix timestamp).unsignedAbs > U128.ofU64 toleranceSecs then
      .error (.timestampOutOfTolerance (skew nowUnix timestamp).saturateI64 toleranceSecs)
    else authenticate C payload secret timestamp v1Signatures

/-! ## The replay window -/

/-- The clock is at most the tolerance away from the timestamp. -/
def InWindow (nowUnix timestamp : Int64) (toleranceSecs : UInt64) : Prop :=
  (nowUnix.toInt - timestamp.toInt).natAbs ≤ toleranceSecs.toNat

instance (nowUnix timestamp : Int64) (toleranceSecs : UInt64) :
    Decidable (InWindow nowUnix timestamp toleranceSecs) :=
  inferInstanceAs (Decidable (_ ≤ _))

/-- The distance of the clock from the timestamp, clamped to an `i64`. -/
def clampedSkew (nowUnix timestamp : Int64) : Int64 :=
  Int64.ofInt
    (max Int64.minValue.toInt (min Int64.maxValue.toInt (nowUnix.toInt - timestamp.toInt)))

theorem toInt_skew (nowUnix timestamp : Int64) :
    (skew nowUnix timestamp).toInt = nowUnix.toInt - timestamp.toInt :=
  toInt_sub_ofI64 nowUnix timestamp

theorem exceeds_iff (nowUnix timestamp : Int64) (toleranceSecs : UInt64) :
    (skew nowUnix timestamp).unsignedAbs > U128.ofU64 toleranceSecs ↔
      ¬ InWindow nowUnix timestamp toleranceSecs := by
  rw [gt_iff_lt, BitVec.lt_def, toNat_unsignedAbs, toNat_ofU64, toInt_skew, InWindow]
  omega

theorem saturateI64_skew (nowUnix timestamp : Int64) :
    (skew nowUnix timestamp).saturateI64 = clampedSkew nowUnix timestamp := by
  unfold clampedSkew
  rw [← toInt_skew, ← toInt_saturateI64, Int64.ofInt_toInt]

/-! ## The signature -/

/-- The bytes that are authenticated. -/
def macInput (timestamp : Int64) (payload : Bytes) : Bytes :=
  asBytes (i64ToString timestamp) ++ asBytes ".".toList ++ payload

/-- The digest a signature of the payload must spell. -/
def expectedDigest (C : Crates) (payload : Bytes) (secret : Str) (timestamp : Int64) : Digest :=
  C.hmacSha256 (asBytes secret) (macInput timestamp payload)

theorem authenticate_eq (C : Crates) (payload : Bytes) (secret : Str) (timestamp : Int64)
    (sigs : List Str) :
    authenticate C payload secret timestamp sigs =
      if C.hmacTakesKey (asBytes secret) then
        if sigs.any (candidateMatches C (expectedDigest C payload secret timestamp)) then
          VerifiedEvent.fromBody C .stripe payload
        else .error .signatureMismatch
      else .error (.invalidInput "secret unusable as HMAC key".toList) := by
  unfold authenticate HmacSha256.newFromSlice
  split
  · show (if (!sigs.any (candidateMatches C (expectedDigest C payload secret timestamp))) = true
        then Except.error VerifyError.signatureMismatch
        else VerifiedEvent.fromBody C .stripe payload) = _
    cases sigs.any (candidateMatches C (expectedDigest C payload secret timestamp)) <;> rfl
  · rfl

/-- A candidate matches when it decodes to the digest. -/
theorem candidateMatches_iff_decode {C : Crates} (hct : C.CtEqIsEquality) {expected : Digest}
    {candidate : Str} :
    candidateMatches C expected candidate = true ↔ C.hexDecode candidate = some expected.val := by
  unfold candidateMatches
  cases hd : C.hexDecode candidate with
  | none => simp
  | some bytes =>
    rw [Option.some.injEq]
    by_cases hl : bytes.length = expected.val.length
    · simp [hl, hct bytes expected.val]
    · exact ⟨fun h => by simp [hl] at h, fun h => absurd (congrArg List.length h) hl⟩

/-- A candidate matches when it spells the digest. -/
theorem candidateMatches_iff {C : Crates} (hhex : C.HexDecodesSpellings) (hct : C.CtEqIsEquality)
    {expected : Digest} {candidate : Str} :
    candidateMatches C expected candidate = true ↔ Lib.Hex.Spells candidate expected.val := by
  rw [candidateMatches_iff_decode hct, hhex]

/-- The signatures match when one of them spells the digest. -/
theorem matched_iff {C : Crates} (hhex : C.HexDecodesSpellings) (hct : C.CtEqIsEquality)
    {expected : Digest} {sigs : List Str} :
    sigs.any (candidateMatches C expected) = true ↔
      ∃ s ∈ sigs, Lib.Hex.Spells s expected.val := by
  simp only [List.any_eq_true, candidateMatches_iff hhex hct]

/-! ## The verdict -/

section
variable {C : Crates} {payload : Bytes} {header secret : Str} {now : Int64} {tolerance : UInt64}

theorem verify_of_empty : verify C payload header [] now tolerance =
    .error (.invalidInput "empty signing secret".toList) := rfl

theorem verify_of_parse_error {e : VerifyError} (hs : secret ≠ [])
    (h : parseSignatureHeader header = .error e) :
    verify C payload header secret now tolerance = .error e := by
  unfold verify
  rw [if_neg (by simpa using hs), h, error_bind]

/-- Once the header is read: the exact replay window, then what depends on
neither the clock nor the tolerance. -/
theorem verify_of_parsed {t : Int64} {sigs : List Str} (hs : secret ≠ [])
    (h : parseSignatureHeader header = .ok (t, sigs)) :
    verify C payload header secret now tolerance =
      if InWindow now t tolerance then authenticate C payload secret t sigs
      else .error (.timestampOutOfTolerance (clampedSkew now t) tolerance) := by
  unfold verify
  rw [if_neg (by simpa using hs), h, ok_bind]
  simp only [exceeds_iff, saturateI64_skew, ite_not]

/-- An accepted request passed every check. -/
theorem verify_eq_ok_iff {e : VerifiedEvent} :
    verify C payload header secret now tolerance = .ok e ↔
      secret ≠ [] ∧ ∃ t sigs, parseSignatureHeader header = .ok (t, sigs) ∧
        InWindow now t tolerance ∧ C.hmacTakesKey (asBytes secret) ∧
        sigs.any (candidateMatches C (expectedDigest C payload secret t)) = true ∧
        VerifiedEvent.fromBody C .stripe payload = .ok e := by
  by_cases hs : secret = []
  · subst hs
    rw [verify_of_empty]
    simp
  cases hp : parseSignatureHeader header with
  | error err => rw [verify_of_parse_error hs hp]; simp
  | ok r =>
    obtain ⟨t, sigs⟩ := r
    rw [verify_of_parsed hs hp, authenticate_eq]
    simp only [Except.ok.injEq, Prod.mk.injEq, ne_eq, hs, not_false_eq_true, true_and]
    refine ⟨fun h => ?_, fun ⟨t', sigs', ⟨ht, hsigs⟩, hw, hk, hm, he⟩ => ?_⟩
    · split at h <;> [skip; cases h]
      split at h <;> [skip; cases h]
      split at h <;> [skip; cases h]
      rename_i hw hk hm
      exact ⟨t, sigs, ⟨rfl, rfl⟩, hw, hk, hm, h⟩
    · subst ht hsigs
      rw [if_pos hw, if_pos hk, if_pos hm, he]

/-- An accepted request has a signature of its body and timestamp. -/
theorem matched_of_ok {t : Int64} {sigs : List Str} {e : VerifiedEvent}
    (hp : parseSignatureHeader header = .ok (t, sigs))
    (h : verify C payload header secret now tolerance = .ok e) :
    sigs.any (candidateMatches C (expectedDigest C payload secret t)) = true := by
  obtain ⟨-, t', sigs', hp', -, -, hm, -⟩ := verify_eq_ok_iff.mp h
  cases hp.symm.trans hp'
  exact hm

end

end Fiducia.Stripe
