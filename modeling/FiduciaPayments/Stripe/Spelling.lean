import FiduciaPayments.Stripe.Decision
import FiduciaPayments.Stripe.Delivery

/-!
# The timestamp as the header spells it

The module documentation calls the signed payload the literal
`{t}.{raw_body}`. `verify` reads the timestamp as a number and authenticates
that number's decimal form, which is the header's text exactly when that text
is canonical (`i64ToString_eq_iff`). So a verifier of the literal
(`verifyLiteral`) answers the same where the text is canonical, and elsewhere
where neither gets to the signatures, or the signatures do not tell
(`SpellingPasses`). One signature stands for every spelling of its timestamp
(`verify_congr`).
-/

namespace Fiducia.Stripe

open Lib.Decimal Lib.Text Lib.Utf8

/-! ## Headers with a given spelling -/

/-- The trimmed text of the header's `t` value. -/
def timestampText (header : Str) : Str := ((valuesOf "t" (header.splitOn ',')).head?).getD []

/-- A text that a segment can have as its value. -/
def IsValue (s : Str) : Prop := trim s = s ∧ ',' ∉ s

/-- `key=value`. -/
def segment (key : String) (value : Str) : Str := key.toList ++ '=' :: value

/-- A header with the timestamp as spelled and the given signatures. -/
def spelled (text : Str) (sigs : List Str) : Str :=
  join (segment "t" text :: sigs.map (segment "v1"))

theorem Carries.timestampText_denotes {header : Str} {t : Int64} {sigs : List Str}
    (h : Carries header t sigs) : Denotes (timestampText header) t.toInt := by
  obtain ⟨text, ht, hd⟩ := h.timestamp
  unfold timestampText
  rw [ht]
  exact hd

/-- The signatures a header carries are values. -/
theorem Carries.isValue {header : Str} {t : Int64} {sigs : List Str} (h : Carries header t sigs) :
    ∀ s ∈ sigs, IsValue s := by
  intro s hs
  rw [← h.v1, valuesOf, List.mem_filterMap] at hs
  obtain ⟨part, hpart, hs⟩ := hs
  obtain ⟨kv, hkv, hs⟩ := Option.bind_eq_some_iff.mp hs
  obtain ⟨⟨k, v⟩, hcut, rfl⟩ := Option.map_eq_some_iff.mp hkv
  split at hs <;> simp at hs
  subst hs
  refine ⟨trimBy_trimBy v, fun hm => ?_⟩
  have hcomma : ',' ∉ part := not_mem_of_mem_splitOn hpart
  rw [(splitOnce_eq_some_iff.mp hcut).1] at hcomma
  have hv : ',' ∈ v := (List.dropWhile_suffix _).subset ((List.rdropWhile_prefix _ _).subset hm)
  exact hcomma (List.mem_append_right _ (List.mem_cons_of_mem _ hv))

theorem isValue_of_denotes {text : Str} {n : Int} (h : Denotes text n) : IsValue text := by
  have hplain : ∀ c ∈ text, IsPlain c := by
    obtain ⟨sign, digits, rfl, -, hd, hsign⟩ := h
    intro c hc
    rcases List.mem_append.mp hc with hc | hc
    · rcases hsign with ⟨rfl | rfl, -⟩ | ⟨rfl, -⟩
      · simp at hc
      · rw [List.mem_singleton.mp hc]
        decide
      · rw [List.mem_singleton.mp hc]
        decide
    · exact isPlain_of_isDigit (hd c hc)
  exact ⟨trim_of_forall fun c hc => (hplain c hc).1, fun hm => (hplain _ hm).2 rfl⟩

theorem keyValue_segment {key : String} {value : Str}
    (hk : ∀ c ∈ key.toList, IsPlain c ∧ c ≠ '=') (hv : IsValue value) :
    keyValue (segment key value) = some (key.toList, value) ∧ ',' ∉ segment key value := by
  have htrim : trim key.toList = key.toList := trim_of_forall fun c hc => (hk c hc).1.1
  refine ⟨?_, fun hm => ?_⟩
  · rw [keyValue, segment, splitOnce_append fun hm => (hk _ hm).2 rfl, Option.map_some, htrim, hv.1]
  · rcases List.mem_append.mp hm with hm | hm
    · exact (hk _ hm).1.2 rfl
    · rcases List.mem_cons.mp hm with hm | hm
      · simp at hm
      · exact hv.2 hm

theorem valuesOf_segments {sigs : List Str} (h : ∀ s ∈ sigs, IsValue s) :
    valuesOf "v1" (sigs.map (segment "v1")) = sigs ∧
      valuesOf "t" (sigs.map (segment "v1")) = [] := by
  induction sigs with
  | nil => exact ⟨rfl, rfl⟩
  | cons s sigs ih =>
    obtain ⟨hs, hsigs⟩ := List.forall_mem_cons.mp h
    obtain ⟨hv, ht⟩ := ih hsigs
    have hkv := (keyValue_segment isPlain_keys.2 hs).1
    rw [List.map_cons, valuesOf_cons_of_keyValue hkv, valuesOf_cons_of_keyValue hkv, hv, ht,
      if_pos rfl, if_neg (by decide)]
    exact ⟨rfl, rfl⟩

/-- A header can spell its timestamp in every way. -/
theorem carries_spelled {text : Str} {t : Int64} {sigs : List Str} (ht : Denotes text t.toInt)
    (hs : ∀ s ∈ sigs, IsValue s) (hne : sigs ≠ []) :
    Carries (spelled text sigs) t sigs ∧ timestampText (spelled text sigs) = text := by
  obtain ⟨hkt, hct⟩ := keyValue_segment isPlain_keys.1 (isValue_of_denotes ht)
  obtain ⟨hv1, hvt⟩ := valuesOf_segments hs
  have hkeyed : ∀ s ∈ sigs.map (segment "v1"), '=' ∈ s ∧ ',' ∉ s := by
    intro x hx
    obtain ⟨s, hm, rfl⟩ := List.mem_map.mp hx
    obtain ⟨hk, hc⟩ := keyValue_segment isPlain_keys.2 (hs s hm)
    exact ⟨mem_of_keyValue hk, hc⟩
  have hsplit : (spelled text sigs).splitOn ',' = segment "t" text :: sigs.map (segment "v1") :=
    splitOn_join (List.cons_ne_nil _ _)
      (List.forall_mem_cons.mpr ⟨hct, fun s hm => (hkeyed s hm).2⟩)
  have htext : valuesOf "t" ((spelled text sigs).splitOn ',') = [text] := by
    rw [hsplit, valuesOf_cons_of_keyValue hkt, hvt, if_pos rfl]
    rfl
  have hmem : segment "t" text ∈ (spelled text sigs).splitOn ',' := by
    rw [hsplit]
    exact List.mem_cons_self
  refine ⟨⟨not_blank_of_keyed hmem (mem_of_keyValue hkt), ?_, ⟨text, htext, ht⟩, ?_, hne⟩,
    by rw [timestampText, htext]; rfl⟩
  · rw [hsplit]
    exact List.forall_mem_cons.mpr ⟨mem_of_keyValue hkt, fun s hm => (hkeyed s hm).1⟩
  · rw [hsplit, valuesOf_cons_of_keyValue hkt, hv1, if_neg (by decide), List.nil_append]

/-! ## The literal payload -/

/-- `{t}.{raw_body}` with the timestamp as spelled. -/
def literalInput (text : Str) (payload : Bytes) : Bytes :=
  asBytes text ++ asBytes ".".toList ++ payload

/-- A verifier like `verify` that authenticates the literal of the header. -/
def verifyLiteral (C : Crates) (payload : Bytes) (header secret : Str) (now : Int64)
    (tolerance : UInt64) : Except VerifyError VerifiedEvent :=
  if secret = [] then .error (.invalidInput "empty signing secret".toList)
  else
    match parseSignatureHeader header with
    | .error e => .error e
    | .ok (t, sigs) =>
      if InWindow now t tolerance then
        if C.hmacTakesKey (asBytes secret) then
          if sigs.any (candidateMatches C
              (C.hmacSha256 (asBytes secret) (literalInput (timestampText header) payload))) then
            VerifiedEvent.fromBody C .stripe payload
          else .error .signatureMismatch
        else .error (.invalidInput "secret unusable as HMAC key".toList)
      else .error (.timestampOutOfTolerance (clampedSkew now t) tolerance)

/-- One of the signatures is the MAC of the body under this text. -/
def SignedAs (C : Crates) (payload : Bytes) (secret text : Str) (sigs : List Str) : Prop :=
  ∃ s ∈ sigs, IsSignature s (C.hmacSha256 (asBytes secret) (literalInput text payload))

instance (C : Crates) (payload : Bytes) (secret text : Str) (sigs : List Str) :
    Decidable (SignedAs C payload secret text sigs) :=
  inferInstanceAs (Decidable (∃ _ ∈ _, _))

section
variable (C : Crates) (payload : Bytes) (header secret : Str) (now : Int64) (tolerance : UInt64)

/-- What is authenticated of an accepted header is the text of its timestamp, and
the literal gets the same verdict. -/
def CoversText : Prop :=
  (∀ e t sigs, verify C payload header secret now tolerance = .ok e →
    parseSignatureHeader header = .ok (t, sigs) →
    asBytes (i64ToString t) = asBytes (timestampText header)) ∧
  verify C payload header secret now tolerance =
    verifyLiteral C payload header secret now tolerance

/-- The request is refused before its signatures, or the text is canonical, or
the body has no signature under the number or the text, or it has both and is no
event. -/
def SpellingPasses : Prop :=
  secret = [] ∨ ∀ t sigs, Carries header t sigs → InWindow now t tolerance →
    Canonical (timestampText header) ∨
    (¬ SignedAs C payload secret (i64ToString t) sigs ∧
      ¬ SignedAs C payload secret (timestampText header) sigs) ∨
    (SignedAs C payload secret (i64ToString t) sigs ∧
      SignedAs C payload secret (timestampText header) sigs ∧
      ∀ e, VerifiedEvent.fromBody C .stripe payload ≠ .ok e)

end

theorem i64ToString_eq_iff {text : Str} {t : Int64} (h : Denotes text t.toInt) :
    i64ToString t = text ↔ Canonical text :=
  render_eq_iff_canonical h

section
variable {C : Crates} {payload : Bytes} {header header' secret : Str} {now : Int64}
  {tolerance : UInt64} {t : Int64} {sigs : List Str} {err : VerifyError}

/-- The verdict depends on the timestamp and the signatures carried, and not on
how the header spells them. -/
theorem verify_congr (h : Carries header t sigs) (h' : Carries header' t sigs) :
    verify C payload header secret now tolerance =
      verify C payload header' secret now tolerance := by
  unfold verify
  rw [parseSignatureHeader_eq_ok_iff.mpr h, parseSignatureHeader_eq_ok_iff.mpr h']

theorem coversText_of_refused (h : verify C payload header secret now tolerance = .error err)
    (h' : verifyLiteral C payload header secret now tolerance = .error err) :
    CoversText C payload header secret now tolerance := by
  refine ⟨fun e t sigs he => ?_, h.trans h'.symm⟩
  rw [h] at he
  exact nomatch he

theorem fromBody_ne_signatureMismatch :
    VerifiedEvent.fromBody C .stripe payload ≠ .error .signatureMismatch := fun h => by
  obtain ⟨message, hm⟩ := VerifiedEvent.fromBody_eq_error h
  exact nomatch hm

/-- A request that has got to its signatures. -/
theorem coversText_of_verdicts (hc : Carries header t sigs)
    (hverify : verify C payload header secret now tolerance =
      if SignedAs C payload secret (i64ToString t) sigs then
        VerifiedEvent.fromBody C .stripe payload
      else .error .signatureMismatch)
    (hliteral : verifyLiteral C payload header secret now tolerance =
      if SignedAs C payload secret (timestampText header) sigs then
        VerifiedEvent.fromBody C .stripe payload
      else .error .signatureMismatch) :
    CoversText C payload header secret now tolerance ↔
      Canonical (timestampText header) ∨
      (¬ SignedAs C payload secret (i64ToString t) sigs ∧
        ¬ SignedAs C payload secret (timestampText header) sigs) ∨
      (SignedAs C payload secret (i64ToString t) sigs ∧
        SignedAs C payload secret (timestampText header) sigs ∧
        ∀ e, VerifiedEvent.fromBody C .stripe payload ≠ .ok e) := by
  have hp := parseSignatureHeader_eq_ok_iff.mpr hc
  have htext := i64ToString_eq_iff hc.timestampText_denotes
  constructor
  · intro ⟨hcover, heq⟩
    rw [hverify, hliteral] at heq
    by_cases hn : SignedAs C payload secret (i64ToString t) sigs
    · rw [if_pos hn] at heq hverify
      cases hb : VerifiedEvent.fromBody C .stripe payload with
      | ok e => exact .inl (htext.mp (utf8_injective (hcover e t sigs (hverify.trans hb) hp)))
      | error err =>
        refine .inr (.inr ⟨hn, ?_, nofun⟩)
        by_contra hl
        rw [if_neg hl] at heq
        exact fromBody_ne_signatureMismatch heq
    · refine .inr (.inl ⟨hn, fun hl => ?_⟩)
      rw [if_neg hn, if_pos hl] at heq
      exact fromBody_ne_signatureMismatch heq.symm
  · rintro (hcanon | ⟨hn, hl⟩ | ⟨hn, hl, hb⟩)
    · have he : i64ToString t = timestampText header := htext.mpr hcanon
      refine ⟨fun e t' sigs' _ hp' => ?_, by rw [hverify, hliteral, he]⟩
      cases hp.symm.trans hp'
      rw [he]
    · rw [if_neg hn] at hverify
      rw [if_neg hl] at hliteral
      exact coversText_of_refused hverify hliteral
    · rw [if_pos hn] at hverify
      rw [if_pos hl] at hliteral
      exact ⟨fun e _ _ he => absurd (hverify.symm.trans he) (hb e), hverify.trans hliteral.symm⟩

section
variable (hkey : C.HmacAcceptsEveryKey) (hhex : C.HexDecodesSpellings) (hct : C.CtEqIsEquality)
include hkey hhex hct

theorem verify_of_inWindow (hs : secret ≠ []) (hc : Carries header t sigs)
    (hw : InWindow now t tolerance) :
    verify C payload header secret now tolerance =
      if SignedAs C payload secret (i64ToString t) sigs then
        VerifiedEvent.fromBody C .stripe payload
      else .error .signatureMismatch := by
  rw [verify_of_parsed hs (parseSignatureHeader_eq_ok_iff.mpr hc), if_pos hw,
    authenticate_eq_decision payload secret hkey hhex hct t sigs, ite_not]
  rfl

theorem verifyLiteral_of_inWindow (hs : secret ≠ []) (hc : Carries header t sigs)
    (hw : InWindow now t tolerance) :
    verifyLiteral C payload header secret now tolerance =
      if SignedAs C payload secret (timestampText header) sigs then
        VerifiedEvent.fromBody C .stripe payload
      else .error .signatureMismatch := by
  unfold verifyLiteral
  simp only [if_neg hs, parseSignatureHeader_eq_ok_iff.mpr hc, if_pos hw, hkey _, if_true,
    matched_iff hhex hct, SignedAs, isSignature_iff]

theorem coversText_iff : CoversText C payload header secret now tolerance ↔
    SpellingPasses C payload header secret now tolerance := by
  by_cases hs : secret = []
  · refine iff_of_true ?_ (.inl hs)
    exact coversText_of_refused (by rw [hs]; exact verify_of_empty) (if_pos hs)
  rw [SpellingPasses, or_iff_right hs]
  cases hp : parseSignatureHeader header with
  | error err =>
    refine iff_of_true ?_ fun t sigs hc => ?_
    · exact coversText_of_refused (verify_of_parse_error hs hp)
        (by unfold verifyLiteral; rw [if_neg hs, hp])
    · rw [parseSignatureHeader_eq_ok_iff.mpr hc] at hp
      exact nomatch hp
  | ok r =>
    obtain ⟨t, sigs⟩ := r
    have hc := parseSignatureHeader_eq_ok_iff.mp hp
    by_cases hw : InWindow now t tolerance
    · rw [coversText_of_verdicts hc (verify_of_inWindow hkey hhex hct hs hc hw)
        (verifyLiteral_of_inWindow hkey hhex hct hs hc hw)]
      refine ⟨fun h t' sigs' hc' _ => ?_, fun h => h t sigs hc hw⟩
      cases hp.symm.trans (parseSignatureHeader_eq_ok_iff.mpr hc')
      exact h
    · refine iff_of_true ?_ fun t' sigs' hc' hw' => ?_
      · exact coversText_of_refused (by rw [verify_of_parsed hs hp, if_neg hw])
          (by unfold verifyLiteral; simp only [if_neg hs, hp, if_neg hw])
      · cases hp.symm.trans (parseSignatureHeader_eq_ok_iff.mpr hc')
        exact absurd hw' hw

end

end

/-- Of a request, what is authenticated is the text of the header, and the literal
gets the same verdict, exactly when `SpellingPasses`; of an accepted one, when
the text is canonical. A signature stands for all spellings of its timestamp:
headers that carry the same have one verdict, accepted ones that meet this have
one text, and there is always a header with a canonical one. -/
theorem mac_covers_text_iff_canonical (C : Crates) (hkey : C.HmacAcceptsEveryKey)
    (hhex : C.HexDecodesSpellings) (hct : C.CtEqIsEquality) :
    (∀ payload header secret now tolerance,
      (CoversText C payload header secret now tolerance ↔
        SpellingPasses C payload header secret now tolerance) ∧
      ∀ e, verify C payload header secret now tolerance = .ok e →
        (CoversText C payload header secret now tolerance ↔ Canonical (timestampText header))) ∧
    ∀ header t sigs, Carries header t sigs →
      (∀ header' payload secret now tolerance, Carries header' t sigs →
        verify C payload header secret now tolerance =
          verify C payload header' secret now tolerance ∧
        ∀ e, verify C payload header secret now tolerance = .ok e →
          CoversText C payload header secret now tolerance →
          CoversText C payload header' secret now tolerance →
          timestampText header = timestampText header') ∧
      ∃ header', Carries header' t sigs ∧ Canonical (timestampText header') := by
  refine ⟨fun payload header secret now tolerance => ⟨coversText_iff hkey hhex hct, fun e he => ?_⟩,
    fun header t sigs hc => ⟨fun header' payload secret now tolerance hc' =>
      ⟨verify_congr hc hc', fun e he h h' => ?_⟩, ?_⟩⟩
  · obtain ⟨hs, t, sigs, hp, hw, -⟩ := verify_eq_ok_iff.mp he
    have hc := parseSignatureHeader_eq_ok_iff.mp hp
    refine ⟨fun h => ?_, fun h => (coversText_iff hkey hhex hct).mpr (.inr fun _ _ _ _ => .inl h)⟩
    exact (i64ToString_eq_iff hc.timestampText_denotes).mp (utf8_injective (h.1 e t sigs he hp))
  · have htext := h.1 e t sigs he (parseSignatureHeader_eq_ok_iff.mpr hc)
    rw [verify_congr hc hc'] at he
    have htext' := h'.1 e t sigs he (parseSignatureHeader_eq_ok_iff.mpr hc')
    exact utf8_injective (htext.symm.trans htext')
  · obtain ⟨hc', ht⟩ := carries_spelled (denotes_render t.toInt) hc.isValue hc.v1_ne_nil
    exact ⟨_, hc', by rw [ht]; exact canonical_render t.toInt⟩

open Recorded in
/-- The recorded signature, in a header that spells its timestamp with a `+`:
accepted, though what is authenticated is another text and the literal is
refused. The header with the plain spelling is accepted as well. -/
theorem accepts_other_spelling :
    verify recorded stripeBody redeliveredHeader secret 1680000000 300 = .ok stripeEvent ∧
      timestampText redeliveredHeader = "+1680000000".toList ∧
      macInput 1680000000 stripeBody ≠ literalInput "+1680000000".toList stripeBody ∧
      verifyLiteral recorded stripeBody redeliveredHeader secret 1680000000 300 =
        .error .signatureMismatch ∧
      verify recorded stripeBody stripeHeader secret 1680000000 300 = .ok stripeEvent ∧
      valuesOf "v1" (redeliveredHeader.splitOn ',') = valuesOf "v1" (stripeHeader.splitOn ',') := by
  decide +kernel

open Recorded in
/-- The recorded header has the plain spelling, and the other one does not. -/
theorem recorded_mac_covers_text :
    CoversText recorded stripeBody stripeHeader secret 1680000000 300 ∧
      ¬ CoversText recorded stripeBody redeliveredHeader secret 1680000000 300 := by
  have hcover := (mac_covers_text_iff_canonical recorded hmacAcceptsEveryKey hexDecodesSpellings
    ctEqIsEquality).1
  have hok : verify recorded stripeBody stripeHeader secret 1680000000 300 = .ok stripeEvent := by
    decide +kernel
  have hok' : verify recorded stripeBody redeliveredHeader secret 1680000000 300 =
      .ok stripeEvent := by decide +kernel
  have htext : timestampText stripeHeader = "1680000000".toList := by decide +kernel
  have htext' : timestampText redeliveredHeader = "+1680000000".toList := by decide +kernel
  rw [(hcover _ _ _ _ _).2 _ hok, (hcover _ _ _ _ _).2 _ hok', htext, htext']
  decide

end Fiducia.Stripe
