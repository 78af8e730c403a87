import FiduciaPayments.Event
import FiduciaPayments.Lib.Decimal
import FiduciaPayments.Lib.Text
import Mathlib.Data.List.Forall2

/-!
# The `Stripe-Signature` header

`parse_signature_header` reads the header's `,`-separated parts left to right,
keeping an optional timestamp and the `v1` values so far, and leaves at the
first part it rejects. `parseParts_eq_ok_iff` is the invariant of that loop,
for every timestamp and list of values it may have arrived with: the parts
are all `key=value`, their `t` values are numbers that complete the timestamp,
at most one in all, and their `v1` values are appended in order.
`parseSignatureHeader_eq_ok_iff` is the grammar that follows.
-/

namespace Fiducia.Stripe

open Lib.Result Lib.Text

/-! ## Decimal `i64`s -/

/-- `str::parse::<i64>`. -/
def parseI64 (s : Str) : Option Int64 :=
  (Lib.Decimal.parse Int64.minValue.toInt Int64.maxValue.toInt s).map Int64.ofInt

/-- `i64::to_string`. -/
def i64ToString (t : Int64) : Str := Lib.Decimal.render t.toInt

theorem parseI64_eq_some_iff {s : Str} {t : Int64} :
    parseI64 s = some t ↔ Lib.Decimal.Denotes s t.toInt := by
  have hmin : Int64.minValue.toInt = -2 ^ 63 := by decide
  have hmax : Int64.maxValue.toInt = 2 ^ 63 - 1 := by decide
  have hlo : Int64.minValue.toInt ≤ 0 := by decide
  have hhi : 0 ≤ Int64.maxValue.toInt := by decide
  simp only [parseI64, Option.map_eq_some_iff, Lib.Decimal.parse_eq_some_iff hlo hhi]
  refine ⟨fun ⟨n, ⟨hn, h₁, h₂⟩, ht⟩ => ?_, fun h => ⟨t.toInt, ⟨h, ?_, ?_⟩, Int64.ofInt_toInt t⟩⟩
  · rwa [← ht, Int64.toInt_ofInt_of_le (by omega) (by omega)]
  · exact Int64.minValue_le_toInt t
  · have := t.toInt_lt
    omega

/-! ## The parser -/

/-- The loop of `parse_signature_header`, from the timestamp and the `v1`
values found so far. -/
def parseParts : List Str → Option Int64 → List Str → Except VerifyError (Option Int64 × List Str)
  | [], timestamp, v1 => .ok (timestamp, v1)
  | part :: parts, timestamp, v1 => do
    let (key, value) ← okOr (splitOnce '=' part) .malformedSignature
    if trim key = "t".toList then
      if timestamp.isSome then .error .malformedSignature
      else do
        let t ← okOr (parseI64 (trim value)) .malformedSignature
        parseParts parts (some t) v1
    else if trim key = "v1".toList then parseParts parts timestamp (v1 ++ [trim value])
    -- ignore other schemes
    else parseParts parts timestamp v1

/-- `parse_signature_header`: the timestamp and every `v1` value of a
`Stripe-Signature` header. -/
def parseSignatureHeader (header : Str) : Except VerifyError (Int64 × List Str) :=
  if (trim header).isEmpty then .error .missingSignature
  else do
    let (timestamp, v1) ← parseParts (header.splitOn ',') none []
    let timestamp ← okOr timestamp .malformedSignature
    if v1.isEmpty then .error .malformedSignature
    else .ok (timestamp, v1)

/-! ## The parts of a header -/

/-- The trimmed key and value of a part, cut at its first `=`. -/
def keyValue (part : Str) : Option (Str × Str) :=
  (splitOnce '=' part).map fun kv => (trim kv.1, trim kv.2)

/-- The trimmed values of the parts with the trimmed key `key`, in order. -/
def valuesOf (key : String) (parts : List Str) : List Str :=
  parts.filterMap fun part =>
    (keyValue part).bind fun kv => if kv.1 = key.toList then some kv.2 else none

/-- Every part is a key and a value. -/
def AllKeyed (parts : List Str) : Prop := ∀ part ∈ parts, '=' ∈ part

theorem valuesOf_cons_eq {key : String} {part k v : Str} (h : splitOnce '=' part = some (k, v))
    (hk : trim k = key.toList) (parts : List Str) :
    valuesOf key (part :: parts) = trim v :: valuesOf key parts := by
  simp [valuesOf, keyValue, h, hk]

theorem valuesOf_cons_ne {key : String} {part k v : Str} (h : splitOnce '=' part = some (k, v))
    (hk : trim k ≠ key.toList) (parts : List Str) :
    valuesOf key (part :: parts) = valuesOf key parts := by
  simp [valuesOf, keyValue, h, hk]

theorem allKeyed_cons {part : Str} {k v : Str} (h : splitOnce '=' part = some (k, v))
    (parts : List Str) : AllKeyed (part :: parts) ↔ AllKeyed parts := by
  have hp : '=' ∈ part := by rw [(splitOnce_eq_some_iff.mp h).1]; simp
  simp [AllKeyed, hp]

/-! ## The loop -/

/-- The loop's invariant: from `timestamp` and `v1` it ends with `timestamp'`
and `v1'` exactly when every part is a key and a value, the numbers `ts` that
its `t` values denote, after `timestamp`, make `timestamp'`, and its `v1`
values, after `v1`, make `v1'`. -/
theorem parseParts_eq_ok_iff {timestamp' : Option Int64} {v1' : List Str} :
    ∀ (parts : List Str) (timestamp : Option Int64) (v1 : List Str),
      parseParts parts timestamp v1 = .ok (timestamp', v1') ↔
        AllKeyed parts ∧
        (∃ ts, List.Forall₂ (fun text t => parseI64 text = some t) (valuesOf "t" parts) ts ∧
          timestamp.toList ++ ts = timestamp'.toList) ∧
        v1 ++ valuesOf "v1" parts = v1'
  | [], timestamp, v1 => by
    simp only [parseParts, Except.ok.injEq, Prod.mk.injEq, AllKeyed, valuesOf, List.filterMap_nil,
      List.forall₂_nil_left_iff, exists_eq_left, List.append_nil]
    cases timestamp <;> cases timestamp' <;> simp
  | part :: parts, timestamp, v1 => by
    cases hs : splitOnce '=' part with
    | none =>
      refine ⟨fun h => by simp [parseParts, hs] at h, fun h => ?_⟩
      exact absurd (h.1 part List.mem_cons_self) (splitOnce_eq_none_iff.mp hs)
    | some kv =>
      obtain ⟨k, v⟩ := kv
      simp only [parseParts, hs, okOr_some, ok_bind, allKeyed_cons hs]
      by_cases ht : trim k = "t".toList
      · have hv : trim k ≠ "v1".toList := by rw [ht]; decide
        rw [if_pos ht, valuesOf_cons_eq hs ht, valuesOf_cons_ne hs hv]
        cases timestamp with
        | some t₀ =>
          -- A second `t`: two numbers cannot make one timestamp.
          refine ⟨fun h => by simp at h, fun ⟨_, ⟨ts, hts, e⟩, _⟩ => ?_⟩
          obtain ⟨t, ts, -, -, rfl⟩ := List.forall₂_cons_left_iff.mp hts
          cases timestamp' <;> simp at e
        | none =>
          rw [Option.isSome_none, if_neg Bool.false_ne_true]
          cases hp : parseI64 (trim v) with
          | none =>
            refine ⟨fun h => by simp at h, fun ⟨_, ⟨ts, hts, _⟩, _⟩ => ?_⟩
            obtain ⟨t, _, e, -⟩ := List.forall₂_cons_left_iff.mp hts
            rw [hp] at e; cases e
          | some t =>
            rw [okOr_some, ok_bind, parseParts_eq_ok_iff parts (some t) v1]
            apply and_congr_right
            intro _
            apply and_congr_left
            intro _
            refine ⟨fun ⟨ts, hts, e⟩ => ⟨t :: ts, .cons hp hts, e⟩, fun ⟨ts, hts, e⟩ => ?_⟩
            obtain ⟨t', ts', e', hts', rfl⟩ := List.forall₂_cons_left_iff.mp hts
            rw [hp] at e'; cases e'
            exact ⟨ts', hts', e⟩
      · rw [if_neg ht, valuesOf_cons_ne hs ht]
        by_cases hv : trim k = "v1".toList
        · rw [if_pos hv, valuesOf_cons_eq hs hv, parseParts_eq_ok_iff parts timestamp,
            List.append_assoc, List.singleton_append]
        · rw [if_neg hv, valuesOf_cons_ne hs hv, parseParts_eq_ok_iff parts timestamp]

/-- The loop leaves with one error only. -/
theorem parseParts_eq_error {e : VerifyError} :
    ∀ (parts : List Str) (timestamp : Option Int64) (v1 : List Str),
      parseParts parts timestamp v1 = .error e → e = .malformedSignature
  | [], timestamp, v1, h => by cases h
  | part :: parts, timestamp, v1, h => by
    rw [parseParts, bind_eq_error_iff] at h
    rcases h with h | ⟨⟨k, v⟩, -, h⟩
    · exact (okOr_eq_error_iff.mp h).2.symm
    dsimp only at h
    by_cases ht : trim k = "t".toList
    · rw [if_pos ht] at h
      by_cases hs : timestamp.isSome = true
      · rw [if_pos hs] at h
        exact (Except.error.inj h).symm
      · rw [if_neg hs] at h
        rcases bind_eq_error_iff.mp h with h | ⟨t, -, h⟩
        · exact (okOr_eq_error_iff.mp h).2.symm
        · exact parseParts_eq_error parts _ _ h
    · rw [if_neg ht] at h
      by_cases hv : trim k = "v1".toList
      · exact parseParts_eq_error parts _ _ (by rwa [if_pos hv] at h)
      · exact parseParts_eq_error parts _ _ (by rwa [if_neg hv] at h)

/-! ## The grammar -/

/-- A header with nothing but whitespace. -/
def Blank (header : Str) : Prop := ∀ c ∈ header, isWhitespace c

instance (header : Str) : Decidable (Blank header) :=
  decidable_of_iff (header.all isWhitespace) List.all_eq_true

/-- The headers that carry the timestamp `t` and the signatures `sigs`. -/
structure Carries (header : Str) (t : Int64) (sigs : List Str) : Prop where
  notBlank : ¬ Blank header
  /-- Every part contains `=`. -/
  allKeyed : AllKeyed (header.splitOn ',')
  /-- Exactly one part has the key `t`, and its value denotes `t`. -/
  timestamp : ∃ text, valuesOf "t" (header.splitOn ',') = [text] ∧
    Lib.Decimal.Denotes text t.toInt
  /-- The signatures are the values of the parts with the key `v1`. -/
  v1 : valuesOf "v1" (header.splitOn ',') = sigs
  /-- There is at least one. -/
  v1_ne_nil : sigs ≠ []

theorem trim_isEmpty_iff {header : Str} : (trim header).isEmpty = true ↔ Blank header := by
  rw [List.isEmpty_iff, trim, trimBy_eq_nil_iff, Blank]

/-- The parser accepts exactly the headers that carry a timestamp and
signatures, and returns these. -/
theorem parseSignatureHeader_eq_ok_iff {header : Str} {t : Int64} {sigs : List Str} :
    parseSignatureHeader header = .ok (t, sigs) ↔ Carries header t sigs := by
  unfold parseSignatureHeader
  split
  · rename_i hb
    exact ⟨fun h => (by cases h), fun h => absurd (trim_isEmpty_iff.mp hb) h.notBlank⟩
  · rename_i hb
    rw [trim_isEmpty_iff] at hb
    simp only [bind_eq_ok_iff, Prod.exists, parseParts_eq_ok_iff, okOr_eq_ok_iff]
    refine ⟨fun ⟨ts', v1, ⟨hk, ⟨ts, hts, e⟩, hv⟩, t', ht', h⟩ => ?_, fun h => ?_⟩
    · subst ht'
      split at h
      · simp at h
      rename_i hne
      cases h
      simp only [Option.toList_none, List.nil_append, Option.toList_some] at e
      subst e
      obtain ⟨text, texts, htext, hnil, htexts⟩ := List.forall₂_cons_right_iff.mp hts
      rw [List.forall₂_nil_right_iff] at hnil
      exact ⟨hb, hk, ⟨text, by rw [htexts, hnil], parseI64_eq_some_iff.mp htext⟩,
        by simpa using hv, by simpa using hne⟩
    · obtain ⟨text, htexts, htext⟩ := h.timestamp
      refine ⟨some t, sigs, ⟨h.allKeyed, ⟨[t], ?_, rfl⟩, by simpa using h.v1⟩, t, rfl, ?_⟩
      · rw [htexts]
        exact .cons (parseI64_eq_some_iff.mpr htext) .nil
      · rw [if_neg (by simpa using h.v1_ne_nil)]

/-- A blank header is missing; any other header that is rejected is
malformed. -/
theorem parseSignatureHeader_eq_error {header : Str} {e : VerifyError}
    (h : parseSignatureHeader header = .error e) :
    e = if Blank header then .missingSignature else .malformedSignature := by
  rw [parseSignatureHeader] at h
  split at h
  · rename_i hb
    rw [if_pos (trim_isEmpty_iff.mp hb)]
    exact (Except.error.inj h).symm
  · rename_i hb
    rw [if_neg (mt trim_isEmpty_iff.mpr hb)]
    rcases bind_eq_error_iff.mp h with h | ⟨⟨ts, v1⟩, -, h⟩
    · exact parseParts_eq_error _ _ _ h
    · rcases bind_eq_error_iff.mp h with h | ⟨t, -, h⟩
      · exact (okOr_eq_error_iff.mp h).2.symm
      · split at h <;> cases h
        rfl

theorem parseSignatureHeader_of_blank {header : Str} (h : Blank header) :
    parseSignatureHeader header = .error .missingSignature := by
  unfold parseSignatureHeader
  rw [if_pos (trim_isEmpty_iff.mpr h)]

/-- The parser rejects a header that carries no timestamp and signatures. -/
theorem parseSignatureHeader_of_not_carries {header : Str}
    (h : ¬ ∃ t sigs, Carries header t sigs) :
    parseSignatureHeader header =
      .error (if Blank header then .missingSignature else .malformedSignature) := by
  cases hp : parseSignatureHeader header with
  | ok r => exact absurd ⟨r.1, r.2, parseSignatureHeader_eq_ok_iff.mp hp⟩ h
  | error e => rw [parseSignatureHeader_eq_error hp]

/-- The parser is its grammar: blank headers are missing, headers that carry
a timestamp and signatures give these, and the rest are malformed. -/
theorem parseSignatureHeader_accepts_grammar (header : Str) :
    (parseSignatureHeader header = .error .missingSignature ↔ Blank header) ∧
    (∀ t sigs, parseSignatureHeader header = .ok (t, sigs) ↔ Carries header t sigs) ∧
    (¬ Blank header → (¬ ∃ t sigs, Carries header t sigs) →
      parseSignatureHeader header = .error .malformedSignature) := by
  refine ⟨⟨fun h => ?_, parseSignatureHeader_of_blank⟩,
    fun t sigs => parseSignatureHeader_eq_ok_iff, fun hb hc => ?_⟩
  · by_contra hb
    have := parseSignatureHeader_eq_error h
    rw [if_neg hb] at this
    simp at this
  · rw [parseSignatureHeader_of_not_carries hc, if_neg hb]

end Fiducia.Stripe
