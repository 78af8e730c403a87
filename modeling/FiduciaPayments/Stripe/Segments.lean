import FiduciaPayments.Stripe.Verify

/-!
# The segments of a header

The verdict reads a header as its `,`-separated segments, and of these only
the values of the keys `t` and `v1`. `Agree` is the relation of two lists of
segments that this cannot tell apart, and `verify_eq_of_agree` that it cannot:
the order of the segments (`Agree.of_perm`) and the segments of other schemes
(`Agree.of_foreign`) do not matter. Another `v1` segment keeps an accepted
request (`verify_insert_v1`), another `t` segment rejects every request
(`verify_insert_t`).
-/

namespace Fiducia.Stripe

open Lib.Text

/-! ## Joining and splitting -/

/-- The header with the given segments. -/
def join (segments : List Str) : Str := [','].intercalate segments

theorem join_splitOn (header : Str) : join (header.splitOn ',') = header :=
  List.intercalate_splitOn ','

theorem splitOn_join {segments : List Str} (hne : segments ≠ []) (hc : ∀ s ∈ segments, ',' ∉ s) :
    (join segments).splitOn ',' = segments :=
  List.splitOn_intercalate ',' hc hne

/-- A header and its segments with one more. -/
theorem splitOn_join_insert {header : Str} {before after : List Str} {s : Str}
    (h : header.splitOn ',' = before ++ after) (hs : ',' ∉ s) :
    (join (before ++ s :: after)).splitOn ',' = before ++ s :: after := by
  apply splitOn_join (by simp)
  intro x hx
  rcases List.mem_append.mp hx with hx | hx
  · exact not_mem_of_mem_splitOn (h ▸ List.mem_append_left _ hx)
  · rcases List.mem_cons.mp hx with rfl | hx
    · exact hs
    · exact not_mem_of_mem_splitOn (h ▸ List.mem_append_right _ hx)

/-- A header with a segment that has a key is not blank. -/
theorem not_blank_of_keyed {header s : Str} (hs : s ∈ header.splitOn ',') (hk : '=' ∈ s) :
    ¬ Blank header := fun hb => by
  have hm : '=' ∈ header := by
    rw [← join_splitOn header, join, mem_intercalate_of_ne (by decide)]
    exact ⟨s, hs, hk⟩
  exact absurd (hb '=' hm) (by decide)

/-! ## Keys -/

/-- The segment is `k=v` with the trimmed key `key`. -/
def HasKey (key : String) (s : Str) : Prop := ∃ v, keyValue s = some (key.toList, v)

/-- The segment is `k=v` with a trimmed key that is neither `t` nor `v1`. -/
def IsForeign (s : Str) : Prop :=
  ∃ k v, keyValue s = some (k, v) ∧ k ≠ "t".toList ∧ k ≠ "v1".toList

theorem mem_of_keyValue {s : Str} {kv : Str × Str} (h : keyValue s = some kv) : '=' ∈ s := by
  obtain ⟨⟨k, v⟩, hs, -⟩ := Option.map_eq_some_iff.mp h
  rw [(splitOnce_eq_some_iff.mp hs).1]
  simp

theorem valuesOf_append (key : String) (l r : List Str) :
    valuesOf key (l ++ r) = valuesOf key l ++ valuesOf key r :=
  List.filterMap_append

theorem valuesOf_cons_of_keyValue {key : String} {s k v : Str} (h : keyValue s = some (k, v))
    (l : List Str) :
    valuesOf key (s :: l) = (if k = key.toList then [v] else []) ++ valuesOf key l := by
  rw [valuesOf, List.filterMap_cons, h, Option.bind_some]
  split <;> simp_all [valuesOf]

/-- The values of the segments with one more. -/
theorem valuesOf_insert {key : String} {s k v : Str} (h : keyValue s = some (k, v))
    (before after : List Str) :
    valuesOf key (before ++ s :: after) =
      valuesOf key before ++ ((if k = key.toList then [v] else []) ++ valuesOf key after) := by
  rw [valuesOf_append, valuesOf_cons_of_keyValue h]

theorem allKeyed_insert {s : Str} (h : '=' ∈ s) (before after : List Str) :
    AllKeyed (before ++ s :: after) ↔ AllKeyed (before ++ after) := by
  simp only [AllKeyed, List.forall_mem_append, List.forall_mem_cons, h, true_and]

/-! ## Agreement -/

/-- Two lists of segments with the same values for `t` and `v1`, up to their
order. -/
structure Agree (segments segments' : List Str) : Prop where
  allKeyed : AllKeyed segments ↔ AllKeyed segments'
  timestamp : (valuesOf "t" segments).Perm (valuesOf "t" segments')
  v1 : (valuesOf "v1" segments).Perm (valuesOf "v1" segments')

theorem Agree.symm {segments segments' : List Str} (h : Agree segments segments') :
    Agree segments' segments :=
  ⟨h.allKeyed.symm, h.timestamp.symm, h.v1.symm⟩

theorem Agree.of_perm {segments segments' : List Str} (h : segments.Perm segments') :
    Agree segments segments' :=
  ⟨⟨fun hk s hs => hk s (h.mem_iff.mpr hs), fun hk s hs => hk s (h.mem_iff.mp hs)⟩,
    h.filterMap _, h.filterMap _⟩

/-- Segments of other schemes have no part in it. -/
theorem Agree.of_foreign {s : Str} (h : IsForeign s) (before after : List Str) :
    Agree (before ++ s :: after) (before ++ after) := by
  obtain ⟨k, v, hs, ht, hv⟩ := h
  refine ⟨allKeyed_insert (mem_of_keyValue hs) before after, ?_, ?_⟩
  · rw [valuesOf_insert hs, valuesOf_append, if_neg ht, List.nil_append]
  · rw [valuesOf_insert hs, valuesOf_append, if_neg hv, List.nil_append]

/-- Agreeing headers carry the same timestamp, and the same signatures in
another order. -/
theorem Agree.carries {header header' : Str} (hb : Blank header ↔ Blank header')
    (h : Agree (header.splitOn ',') (header'.splitOn ',')) {t : Int64} {sigs : List Str}
    (hc : Carries header t sigs) : ∃ sigs', Carries header' t sigs' ∧ sigs.Perm sigs' := by
  obtain ⟨text, htext, ht⟩ := hc.timestamp
  have hv := h.v1
  rw [hc.v1] at hv
  refine ⟨_, ⟨mt hb.mpr hc.notBlank, h.allKeyed.mp hc.allKeyed, ⟨text, ?_, ht⟩, rfl, ?_⟩, hv⟩
  · exact List.perm_singleton.mp (htext ▸ h.timestamp.symm)
  · exact fun hn => hc.v1_ne_nil (hn ▸ hv).eq_nil

section
variable {C : Crates} {payload : Bytes} {secret : Str} {now : Int64} {tolerance : UInt64}

theorem authenticate_perm {t : Int64} {sigs sigs' : List Str} (h : sigs.Perm sigs') :
    authenticate C payload secret t sigs = authenticate C payload secret t sigs' := by
  rw [authenticate_eq, authenticate_eq, h.any_eq]

/-- Agreeing headers have one verdict. -/
theorem verify_eq_of_agree {header header' : Str} (hb : Blank header ↔ Blank header')
    (h : Agree (header.splitOn ',') (header'.splitOn ',')) :
    verify C payload header secret now tolerance =
      verify C payload header' secret now tolerance := by
  by_cases hs : secret = []
  · subst hs
    rfl
  by_cases hc : ∃ t sigs, Carries header t sigs
  · obtain ⟨t, sigs, hc⟩ := hc
    obtain ⟨sigs', hc', hp⟩ := h.carries hb hc
    rw [verify_of_parsed hs (parseSignatureHeader_eq_ok_iff.mpr hc),
      verify_of_parsed hs (parseSignatureHeader_eq_ok_iff.mpr hc'), authenticate_perm hp]
  · have hc' : ¬ ∃ t sigs, Carries header' t sigs := fun ⟨t, sigs', hc'⟩ => by
      obtain ⟨sigs, h', -⟩ := h.symm.carries hb.symm hc'
      exact hc ⟨t, sigs, h'⟩
    rw [verify_of_parse_error hs (parseSignatureHeader_of_not_carries hc),
      verify_of_parse_error hs (parseSignatureHeader_of_not_carries hc')]
    simp only [hb]

/-! ## Reordering, inserting and deleting segments -/

variable {header : Str}

/-- Whitespace is in the header exactly where it is in the segments, and a
header of several segments has a comma. -/
theorem blank_join_iff (segments : List Str) :
    Blank (join segments) ↔ (∀ s ∈ segments, Blank s) ∧ segments.length ≤ 1 := by
  match segments with
  | [] => simp [join, Blank]
  | [s] => simp [join]
  | s :: s' :: ss =>
    refine ⟨fun h => absurd (h ',' ?_) (by decide), fun h => by simp at h⟩
    unfold join
    rw [List.intercalate_cons_cons]
    simp

/-- The order of the segments does not matter. -/
theorem verify_perm {segments : List Str} (h : segments.Perm (header.splitOn ',')) :
    verify C payload (join segments) secret now tolerance =
      verify C payload header secret now tolerance := by
  have hne : segments ≠ [] := fun hn => List.splitOn_ne_nil _ _ (hn ▸ h).symm.eq_nil
  have hc : ∀ s ∈ segments, ',' ∉ s := fun s hs => not_mem_of_mem_splitOn (h.mem_iff.mp hs)
  apply verify_eq_of_agree
  · rw [← join_splitOn header, blank_join_iff, blank_join_iff, h.length_eq]
    simp only [h.mem_iff]
  · rw [splitOn_join hne hc]
    exact .of_perm h

/-- A segment of another scheme does not matter. -/
theorem verify_insert_foreign {before after : List Str} {s : Str} (hb : ¬ Blank header)
    (h : header.splitOn ',' = before ++ after) (hc : ',' ∉ s) (hs : IsForeign s) :
    verify C payload (join (before ++ s :: after)) secret now tolerance =
      verify C payload header secret now tolerance := by
  have hsplit := splitOn_join_insert h hc
  have hk : '=' ∈ s := by
    obtain ⟨k, v, hkv, -⟩ := hs
    exact mem_of_keyValue hkv
  refine verify_eq_of_agree (iff_of_false (not_blank_of_keyed (s := s) ?_ hk) hb) ?_
  · rw [hsplit]
    simp
  · rw [hsplit, h]
    exact .of_foreign hs before after

/-- Another signature keeps an accepted request. -/
theorem verify_insert_v1 {before after : List Str} {s : Str} {e : VerifiedEvent}
    (h : header.splitOn ',' = before ++ after) (hc : ',' ∉ s) (hs : HasKey "v1" s)
    (hok : verify C payload header secret now tolerance = .ok e) :
    verify C payload (join (before ++ s :: after)) secret now tolerance = .ok e := by
  obtain ⟨v, hkv⟩ := hs
  obtain ⟨hsec, t, sigs, hp, hw, hkey, hm, he⟩ := verify_eq_ok_iff.mp hok
  have hcar := parseSignatureHeader_eq_ok_iff.mp hp
  have hsplit := splitOn_join_insert h hc
  have hk := mem_of_keyValue hkv
  obtain ⟨text, htext, ht⟩ := hcar.timestamp
  have hv := hcar.v1
  rw [h, valuesOf_append] at htext hv
  have hnb : ¬ Blank (join (before ++ s :: after)) :=
    not_blank_of_keyed (s := s) (by rw [hsplit]; simp) hk
  refine verify_eq_ok_iff.mpr ⟨hsec, t, valuesOf "v1" before ++ v :: valuesOf "v1" after,
    parseSignatureHeader_eq_ok_iff.mpr ⟨hnb, ?_, ⟨text, ?_, ht⟩, ?_, ?_⟩, hw, hkey, ?_, he⟩
  · rw [hsplit, allKeyed_insert hk, ← h]
    exact hcar.allKeyed
  · rw [hsplit, valuesOf_insert hkv, if_neg (by decide), List.nil_append, htext]
  · rw [hsplit, valuesOf_insert hkv, if_pos rfl]
    rfl
  · simp
  · rw [← hv, List.any_append, Bool.or_eq_true] at hm
    rw [List.any_append, List.any_cons]
    rcases hm with hm | hm <;> simp [hm]

/-- A second timestamp makes every header malformed. -/
theorem verify_insert_t {before after : List Str} {s s' : Str} (hsec : secret ≠ [])
    (h : header.splitOn ',' = before ++ after) (hs' : s' ∈ before ++ after) (hk' : HasKey "t" s')
    (hc : ',' ∉ s) (hs : HasKey "t" s) :
    verify C payload (join (before ++ s :: after)) secret now tolerance =
      .error .malformedSignature := by
  obtain ⟨v, hkv⟩ := hs
  obtain ⟨v', hkv'⟩ := hk'
  have hsplit := splitOn_join_insert h hc
  have hnb : ¬ Blank (join (before ++ s :: after)) :=
    not_blank_of_keyed (s := s) (by rw [hsplit]; simp) (mem_of_keyValue hkv)
  have hv' : v' ∈ valuesOf "t" before ++ valuesOf "t" after := by
    rw [← valuesOf_append, valuesOf, List.mem_filterMap]
    exact ⟨s', hs', by rw [hkv']; simp⟩
  have hcar : ¬ ∃ t sigs, Carries (join (before ++ s :: after)) t sigs := by
    intro h
    obtain ⟨t, sigs, hcar⟩ := h
    -- One value too many for a single timestamp.
    obtain ⟨text, htext, -⟩ := hcar.timestamp
    rw [hsplit, valuesOf_insert hkv, if_pos rfl] at htext
    have hl := congrArg List.length htext
    have := List.length_pos_of_mem hv'
    simp only [List.length_append, List.length_singleton] at hl this
    omega
  rw [verify_of_parse_error hsec (parseSignatureHeader_of_not_carries hcar), if_neg hnb]

end

/-- The verdict on a header does not depend on the order of its segments or on
those of foreign schemes; another `v1` segment keeps an accepted request, and
another `t` segment makes the header malformed. -/
theorem verdict_ignores_order_and_foreign_schemes (C : Crates) (payload : Bytes)
    (header secret : Str) (now : Int64) (tolerance : UInt64) (hb : ¬ Blank header) :
    (∀ segments, segments.Perm (header.splitOn ',') →
      verify C payload (join segments) secret now tolerance =
        verify C payload header secret now tolerance) ∧
    (∀ before after s, header.splitOn ',' = before ++ after → ',' ∉ s → IsForeign s →
      verify C payload (join (before ++ s :: after)) secret now tolerance =
        verify C payload header secret now tolerance) ∧
    (∀ before after s, header.splitOn ',' = before ++ s :: after → IsForeign s →
      before ++ after ≠ [] → ¬ Blank (join (before ++ after)) →
      verify C payload (join (before ++ after)) secret now tolerance =
        verify C payload header secret now tolerance) ∧
    (∀ before after s e, header.splitOn ',' = before ++ after → ',' ∉ s → HasKey "v1" s →
      verify C payload header secret now tolerance = .ok e →
      verify C payload (join (before ++ s :: after)) secret now tolerance = .ok e) ∧
    (∀ before after s s', secret ≠ [] → header.splitOn ',' = before ++ after →
      s' ∈ before ++ after → HasKey "t" s' → ',' ∉ s → HasKey "t" s →
      verify C payload (join (before ++ s :: after)) secret now tolerance =
        .error .malformedSignature) := by
  refine ⟨fun segments h => verify_perm h,
    fun before after s h hc hs => verify_insert_foreign hb h hc hs,
    fun before after s h hs hne hnb => ?_,
    fun before after s e h hc hs hok => verify_insert_v1 h hc hs hok,
    fun before after s s' hsec h hs' hk' hc hs => verify_insert_t hsec h hs' hk' hc hs⟩
  -- Deleting undoes inserting into the header that is left.
  have hmem : ∀ x ∈ before ++ s :: after, ',' ∉ x := fun x hx => not_mem_of_mem_splitOn (h ▸ hx)
  have hsplit : (join (before ++ after)).splitOn ',' = before ++ after :=
    splitOn_join hne fun x hx => hmem x (by grind)
  rw [← verify_insert_foreign hnb hsplit (hmem s (by simp)) hs, ← h, join_splitOn]

open Recorded in
/-- The recorded header reversed, with a foreign scheme, with a second
signature and with a second timestamp. -/
theorem recorded_order_and_foreign_schemes :
    verify recorded stripeBody (join [stripeHeader.drop 13, stripeHeader.take 12]) secret
        1680000000 300 = .ok stripeEvent ∧
      verify recorded stripeBody (join ["v0=".toList, stripeHeader.take 12, stripeHeader.drop 13])
        secret 1680000000 300 = .ok stripeEvent ∧
      verify recorded stripeBody (join [stripeHeader.take 12, "v1=00".toList, stripeHeader.drop 13])
        secret 1680000000 300 = .ok stripeEvent ∧
      verify recorded stripeBody (join [stripeHeader.take 12, stripeHeader.drop 13, "t=0".toList])
        secret 1680000000 300 = .error .malformedSignature := by
  have hok : verify recorded stripeBody stripeHeader secret 1680000000 300 = .ok stripeEvent := by
    decide +kernel
  have hsplit : stripeHeader.splitOn ',' = [stripeHeader.take 12, stripeHeader.drop 13] := by
    decide +kernel
  obtain ⟨hperm, hforeign, -, hv1, ht⟩ := verdict_ignores_order_and_foreign_schemes recorded
    stripeBody stripeHeader secret 1680000000 300 (by decide +kernel)
  refine ⟨?_, ?_, ?_, ?_⟩
  · exact (hperm _ (hsplit ▸ .swap _ _ _)).trans hok
  · exact (hforeign [] _ _ hsplit (by decide) ⟨"v0".toList, [], by decide +kernel⟩).trans hok
  · exact hv1 [_] [_] _ _ hsplit (by decide) ⟨"00".toList, by decide +kernel⟩ hok
  · exact ht [_, _] [] _ (stripeHeader.take 12) (by decide) hsplit (by simp)
      ⟨"1680000000".toList, by decide +kernel⟩ (by decide) ⟨"0".toList, by decide +kernel⟩

end Fiducia.Stripe
