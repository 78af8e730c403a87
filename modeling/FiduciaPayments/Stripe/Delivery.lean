import FiduciaPayments.Stripe.Segments

/-!
# Genuine deliveries

A header as a sender writes it: one segment with the decimal timestamp, one
with the hexadecimal MAC, in either case, and others, joined in any order, with
whitespace around keys and values. `keyValue_of_isSegment` reads a segment back,
`carries_of_genuine` the header, and `genuine_delivery_verifies` is the
acceptance that follows.
-/

namespace Fiducia.Stripe

open Lib.Text

/-! ## Segments as written -/

/-- `key=value`, with whitespace around the key and the value. -/
def IsSegment (key : String) (value s : Str) : Prop :=
  ∃ w₁ w₂ w₃ w₄, Blank w₁ ∧ Blank w₂ ∧ Blank w₃ ∧ Blank w₄ ∧
    s = (w₁ ++ key.toList ++ w₂) ++ '=' :: (w₃ ++ value ++ w₄)

/-- `k=v` without commas, whose trimmed key is not `t`. -/
def IsOther (s : Str) : Prop :=
  ',' ∉ s ∧ ∃ k v, s = k ++ '=' :: v ∧ '=' ∉ k ∧ trim k ≠ "t".toList

/-- A character that neither ends a segment nor is trimmed. -/
def IsPlain (c : Char) : Prop := ¬ isWhitespace c ∧ c ≠ ','

instance (c : Char) : Decidable (IsPlain c) := inferInstanceAs (Decidable (_ ∧ _))

theorem isPlain_of_isDigit {c : Char} (h : c.isDigit) : IsPlain c := by
  have hc : 0x30 ≤ c.toNat ∧ c.toNat ≤ 0x39 := by
    simpa [Char.isDigit, UInt32.le_iff_toNat_le] using h
  refine ⟨fun hw => ?_, fun e => absurd (e ▸ hc) (by decide)⟩
  simp only [isWhitespace, Bool.or_eq_true, Bool.and_eq_true, decide_eq_true_eq, beq_iff_eq] at hw
  omega

theorem isPlain_of_mem_i64ToString {t : Int64} {c : Char} (h : c ∈ i64ToString t) : IsPlain c := by
  rcases Lib.Decimal.isDigit_or_minus_of_mem_render h with hd | rfl
  · exact isPlain_of_isDigit hd
  · decide

theorem isPlain_digitChar : ∀ n < 16, IsPlain n.digitChar ∧ IsPlain n.digitChar.toUpper := by decide

/-- A MAC in either case. -/
def IsHexOf (bs : Bytes) (s : Str) : Prop :=
  s = Lib.Hex.encode bs ∨ s = (Lib.Hex.encode bs).map Char.toUpper

theorem isPlain_of_mem_isHexOf {bs : Bytes} {s : Str} (hs : IsHexOf bs s) {c : Char} (h : c ∈ s) :
    IsPlain c := by
  rcases hs with rfl | rfl
  · obtain ⟨n, hn, rfl⟩ := Lib.Hex.mem_encode h
    exact (isPlain_digitChar n hn).1
  · obtain ⟨d, hd, rfl⟩ := List.mem_map.mp h
    obtain ⟨n, hn, rfl⟩ := Lib.Hex.mem_encode hd
    exact (isPlain_digitChar n hn).2

section
variable {key : String} {value s : Str}

theorem isPlain_keys :
    (∀ c ∈ "t".toList, IsPlain c ∧ c ≠ '=') ∧ ∀ c ∈ "v1".toList, IsPlain c ∧ c ≠ '=' :=
  ⟨List.forall_mem_cons.mpr ⟨by decide, nofun⟩,
    List.forall_mem_cons.mpr ⟨by decide, List.forall_mem_cons.mpr ⟨by decide, nofun⟩⟩⟩

/-- A segment is read back as the key and the value written. -/
theorem keyValue_of_isSegment (h : IsSegment key value s)
    (hk : ∀ c ∈ key.toList, IsPlain c ∧ c ≠ '=') (hv : ∀ c ∈ value, IsPlain c) :
    keyValue s = some (key.toList, value) := by
  obtain ⟨w₁, w₂, w₃, w₄, h₁, h₂, h₃, h₄, rfl⟩ := h
  have blank : ∀ w, Blank w → '=' ∉ w := fun w hw hm => absurd (hw '=' hm) (by decide)
  have hn : '=' ∉ w₁ ++ key.toList ++ w₂ := by
    simp only [List.mem_append, not_or]
    exact ⟨⟨blank w₁ h₁, fun hm => (hk _ hm).2 rfl⟩, blank w₂ h₂⟩
  unfold keyValue
  rw [splitOnce_append hn, Option.map_some, trim, trim,
    trimBy_padded h₁ (fun c hc => (hk c hc).1.1) h₂, trimBy_padded h₃ (fun c hc => (hv c hc).1) h₄]

/-- A segment has no comma. -/
theorem comma_notMem_of_isSegment (h : IsSegment key value s)
    (hk : ∀ c ∈ key.toList, IsPlain c ∧ c ≠ '=') (hv : ∀ c ∈ value, IsPlain c) : ',' ∉ s := by
  obtain ⟨w₁, w₂, w₃, w₄, h₁, h₂, h₃, h₄, rfl⟩ := h
  have blank : ∀ w, Blank w → ',' ∉ w := fun w hw hm => absurd (hw ',' hm) (by decide)
  simp only [List.mem_append, List.mem_cons, not_or]
  exact ⟨⟨⟨blank w₁ h₁, fun hm => (hk _ hm).1.2 rfl⟩, blank w₂ h₂⟩, by decide,
    ⟨blank w₃ h₃, fun hm => (hv _ hm).2 rfl⟩, blank w₄ h₄⟩

theorem keyValue_of_isOther (h : IsOther s) : ∃ k v, keyValue s = some (k, v) ∧ k ≠ "t".toList := by
  obtain ⟨-, k, v, rfl, hk, ht⟩ := h
  exact ⟨trim k, trim v, by rw [keyValue, splitOnce_append hk, Option.map_some], ht⟩

end

theorem valuesOf_t_of_isOther {others : List Str} (h : ∀ s ∈ others, IsOther s) :
    valuesOf "t" others = [] := by
  apply List.filterMap_eq_nil_iff.mpr
  intro s hs
  obtain ⟨k, v, hkv, hk⟩ := keyValue_of_isOther (h s hs)
  rw [hkv, Option.bind_some, if_neg hk]

/-! ## Headers as written -/

/-- A genuine header carries its timestamp and, among others, its MAC. -/
theorem carries_of_genuine {t : Int64} {mac tSegment macSegment : Str} {others : List Str}
    (ht : IsSegment "t" (i64ToString t) tSegment) (hm : IsSegment "v1" mac macSegment)
    (hmac : ∀ c ∈ mac, IsPlain c) (ho : ∀ s ∈ others, IsOther s) :
    (∀ s ∈ tSegment :: macSegment :: others, ',' ∉ s) ∧
      Carries (join (tSegment :: macSegment :: others)) t (mac :: valuesOf "v1" others) := by
  have htime : ∀ c ∈ i64ToString t, IsPlain c := fun c => isPlain_of_mem_i64ToString
  have hkt := keyValue_of_isSegment ht isPlain_keys.1 htime
  have hkm := keyValue_of_isSegment hm isPlain_keys.2 hmac
  have hcomma : ∀ s ∈ tSegment :: macSegment :: others, ',' ∉ s :=
    List.forall_mem_cons.mpr ⟨comma_notMem_of_isSegment ht isPlain_keys.1 htime,
      List.forall_mem_cons.mpr ⟨comma_notMem_of_isSegment hm isPlain_keys.2 hmac,
        fun s hs => (ho s hs).1⟩⟩
  have hsplit := splitOn_join (List.cons_ne_nil tSegment (macSegment :: others)) hcomma
  refine ⟨hcomma, not_blank_of_keyed (s := tSegment) (by rw [hsplit]; simp) (mem_of_keyValue hkt),
    ?_, ⟨i64ToString t, ?_, Lib.Decimal.denotes_render _⟩, ?_, by simp⟩
  · rw [hsplit]
    refine List.forall_mem_cons.mpr ⟨mem_of_keyValue hkt,
      List.forall_mem_cons.mpr ⟨mem_of_keyValue hkm, fun s hs => ?_⟩⟩
    obtain ⟨k, v, hkv, -⟩ := keyValue_of_isOther (ho s hs)
    exact mem_of_keyValue hkv
  · rw [hsplit, valuesOf_cons_of_keyValue hkt, valuesOf_cons_of_keyValue hkm,
      valuesOf_t_of_isOther ho, if_pos rfl, if_neg (by decide)]
    rfl
  · rw [hsplit, valuesOf_cons_of_keyValue hkt, valuesOf_cons_of_keyValue hkm, if_pos rfl,
      if_neg (by decide)]
    rfl

/-- Every genuinely signed delivery verifies, whatever the order of its
segments, the whitespace in the two that count and the others beside them. -/
theorem genuine_delivery_verifies (C : Crates) (hkey : C.HmacAcceptsEveryKey)
    (hhex : C.HexUndoesEncode) (hct : C.CtEqIsEquality) (payload : Bytes) (secret : Str)
    (t now : Int64) (tolerance : UInt64) (e : VerifiedEvent) (mac tSegment macSegment : Str)
    (others segments : List Str) (hs : secret ≠ [])
    (he : VerifiedEvent.fromBody C .stripe payload = .ok e)
    (hw : InWindow now t tolerance)
    (ht : IsSegment "t" (i64ToString t) tSegment)
    (hmac : IsHexOf (C.hmacSha256 (asBytes secret)
      (asBytes (i64ToString t) ++ asBytes ".".toList ++ payload)).val mac)
    (hm : IsSegment "v1" mac macSegment) (ho : ∀ s ∈ others, IsOther s)
    (hp : segments.Perm (tSegment :: macSegment :: others)) :
    verify C payload (join segments) secret now tolerance = .ok e ∧
      e.provider = .stripe ∧ e.payload = payload ∧
      ∃ value, C.fromSlice payload = .ok value ∧
        (value.get "id".toList).bind Value.asStr = some e.id ∧
        value.eventName.bind Value.asStr = some e.eventType := by
  obtain ⟨hcomma, hc⟩ := carries_of_genuine ht hm (fun c => isPlain_of_mem_isHexOf hmac) ho
  obtain ⟨value, hv, hid, hty, hprov, hpay⟩ := VerifiedEvent.fromBody_eq_ok_iff.mp he
  refine ⟨?_, hprov, hpay, value, hv, hid, hty⟩
  rw [← splitOn_join (by simp) hcomma] at hp
  rw [verify_perm hp]
  have hmatch : candidateMatches C (expectedDigest C payload secret t) mac = true := by
    apply (candidateMatches_iff_decode hct).mpr
    rcases hmac with rfl | rfl
    · exact (hhex _).1
    · exact (hhex _).2
  refine verify_eq_ok_iff.mpr
    ⟨hs, t, _, parseSignatureHeader_eq_ok_iff.mpr hc, hw, hkey _, ?_, he⟩
  rw [List.any_cons, hmatch, Bool.true_or]

open Recorded in
/-- The recorded delivery in upper case, with whitespace, a signature of
another secret and the timestamp last. -/
theorem recorded_delivery_verifies :
    verify recorded stripeBody
        (join ["v1=00".toList, " v1 = ".toList ++ (Lib.Hex.encode stripeMac.val).map Char.toUpper,
          "t=1680000000 ".toList]) secret 1680000300 300 = .ok stripeEvent :=
  (genuine_delivery_verifies recorded hmacAcceptsEveryKey hexUndoesEncode ctEqIsEquality stripeBody
    secret 1680000000 1680000300 300 stripeEvent ((Lib.Hex.encode stripeMac.val).map Char.toUpper)
    "t=1680000000 ".toList (" v1 = ".toList ++ (Lib.Hex.encode stripeMac.val).map Char.toUpper)
    ["v1=00".toList] _ (by decide) (by decide +kernel) (by decide)
    ⟨[], [], [], " ".toList, by decide, by decide, by decide, by decide, by decide +kernel⟩
    (.inr (by decide +kernel))
    ⟨" ".toList, " ".toList, " ".toList, [], by decide, by decide, by decide, by decide,
      by decide +kernel⟩
    (List.forall_mem_singleton.mpr ⟨by decide, "v1".toList, "00".toList, by decide, by decide,
      by decide⟩)
    (by decide +kernel)).1

end Fiducia.Stripe
