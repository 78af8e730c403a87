import FiduciaPayments.Dotenv.Behind

/-!
# The codec and the rule

* `codecOf_run`: while every escape is documented, the codec has the Latin-1
  characters of the bytes of what the rule has;
* `behind_run_undocumented`: from the first other escape on, it has fewer ASCII
  characters.

So they agree exactly on ASCII text whose escapes are documented
(`decode_eq_unescape_iff`).
-/

namespace Fiducia.Dotenv

open Lib.Python Lib.Run
open Lib.UnicodeEscape (Decoder decode decode_of_run decode_of_run_none step latin1 stepPlain
  stepEscape)

/-! ## In step -/

section
variable {names : List UInt8 → Option CodePoint} {c : CodePoint} {r : Reader} {k : Nat}

/-- The codec, when it has the Latin-1 characters of what the rule has. -/
def codecOf (r : Reader) : Decoder :=
  { out := (bytes r.out).map latin1, pending := if r.escaped then .escape else .none }

theorem latin1_bytes_of_ascii {s : PyStr} (h : IsAscii s) : (bytes s).map latin1 = s := by
  rw [bytes_of_ascii h, List.map_map]
  refine (List.map_congr_left fun c hc => ?_).trans (List.map_id s)
  exact Lib.UnicodeEscape.latin1_ofNat (h c hc)

/-- A character that begins no escape of the codec only keeps it so. -/
theorem codecOf_step_ascii (hc : c.val < 0x80) (h : r.escaped = true → isUndocumented c = false) :
    run (step names) (codecOf r) (bytes [c]) = some (codecOf (r.step c)) := by
  obtain ⟨out, escaped⟩ := r
  have hlatin1 : (bytes [c]).map latin1 = [c] :=
    latin1_bytes_of_ascii (List.forall_mem_singleton.mpr hc)
  rw [Lib.UnicodeEscape.run_ascii hc]
  cases escaped with
  | false =>
    show some (stepPlain _ _) = _
    unfold stepPlain
    by_cases hb : c = backslash
    · rw [if_pos ((byte_eq_backslash_iff hc).mpr hb), hb, Reader.step_backslash rfl]
      rfl
    · rw [if_neg (mt (byte_eq_backslash_iff hc).mp hb), Reader.step_plain rfl hb,
        Lib.UnicodeEscape.latin1_ofNat hc]
      simp only [codecOf, Decoder.emit, bytes_append, List.map_append, hlatin1]
      rfl
  | true =>
    show some (stepEscape _ _) = _
    cases hd : documented c with
    | some m =>
      have hm : (bytes [m]).map latin1 = [m] :=
        latin1_bytes_of_ascii (List.forall_mem_singleton.mpr (documented_ascii hd))
      rw [stepEscape_documented hc hd]
      simp only [codecOf, Decoder.emit, Reader.step, hd, if_true, bytes_append, List.map_append,
        hm]
      rfl
    | none =>
      rw [stepEscape_unknown hc hd (h rfl)]
      have htwo : (bytes [backslash, c]).map latin1 = [backslash] ++ [c] := by
        rw [bytes_cons, List.map_append, hlatin1]
        rfl
      simp only [codecOf, Decoder.emit, Reader.step, hd, if_true, bytes_append, List.map_append,
        htwo, List.append_assoc]
      rfl

/-- Its bytes are Latin-1 characters when it is not ASCII. -/
theorem codecOf_step_high (hscalar : isScalar c) (hc : 0x80 ≤ c.val) :
    run (step names) (codecOf r) (bytes [c]) = some (codecOf (r.step c)) := by
  obtain ⟨out, escaped⟩ := r
  obtain ⟨b, bs, hb, hhigh⟩ := exists_bytes hscalar hc
  have hslash := ne_backslash_of_high hc
  cases escaped with
  | false =>
    rw [Reader.step_plain rfl hslash]
    simp only [codecOf, bytes_append, List.map_append, hb]
    exact Lib.UnicodeEscape.run_high_plain _ hhigh
  | true =>
    rw [Reader.step_unknown rfl (documented_high hc)]
    simp only [codecOf, bytes_append, bytes_cons backslash [c], List.map_append, hb]
    exact Lib.UnicodeEscape.run_high_escape _ hhigh

theorem codecOf_step (hscalar : isScalar c) (h : r.escaped = true → isUndocumented c = false) :
    run (step names) (codecOf r) (bytes [c]) = some (codecOf (r.step c)) := by
  by_cases hc : c.val < 0x80
  · exact codecOf_step_ascii hc h
  · exact codecOf_step_high hscalar (by omega)

/-- So does a text whose escapes are documented, which ends outside them. -/
theorem codecOf_run : ∀ {s : PyStr} {r : Reader}, (∀ c ∈ s, isScalar c) →
    onlyDocumented r.escaped s = true →
    run (step names) (codecOf r) (bytes s) = some (codecOf (s.foldl Reader.step r)) ∧
      (s.foldl Reader.step r).escaped = false
  | [], r, _, h => ⟨rfl, by simpa [onlyDocumented] using h⟩
  | c :: s, r, hscalar, h => by
    obtain ⟨hc, hscalar⟩ := List.forall_mem_cons.mp hscalar
    obtain ⟨hu, hrest⟩ := onlyDocumented_cons.mp h
    rw [bytes_cons, run_append, codecOf_step hc hu, Option.bind_some, List.foldl_cons]
    exact codecOf_run hscalar hrest

/-- A text with an escape of the codec only, or with a backslash at its end,
leaves the codec behind, or after that backslash. -/
theorem behind_run_undocumented : ∀ {s : PyStr} {d' : Decoder} {r : Reader},
    (∀ c ∈ s, isScalar c) → onlyDocumented r.escaped s = false → Behind 0 (codecOf r) r →
    run (step names) (codecOf r) (bytes s) = some d' →
    d'.pending = .escape ∨ Behind 1 d' (s.foldl Reader.step r)
  | [], d', r, _, h, _, hs => by
    cases hs
    have hr : r.escaped = true := by simpa [onlyDocumented] using h
    exact .inl (by rw [codecOf, hr]; rfl)
  | c :: s, d', r, hscalar, h, hb, hs => by
    obtain ⟨hc, hscalar⟩ := List.forall_mem_cons.mp hscalar
    rw [bytes_cons, run_append] at hs
    obtain ⟨d₁, h₁, hs⟩ := Option.bind_eq_some_iff.mp hs
    rw [List.foldl_cons]
    by_cases hu : r.escaped = true → isUndocumented c = false
    · have hstep : run (step names) (codecOf r) (bytes [c]) = some (codecOf (r.step c)) :=
        codecOf_step hc hu
      cases h₁.symm.trans hstep
      have hrest : onlyDocumented (r.step c).escaped s = false := by
        rw [← Bool.not_eq_true] at h ⊢
        exact fun h' => h (onlyDocumented_cons.mpr ⟨hu, h'⟩)
      exact behind_run_undocumented hscalar hrest (behind_char hc hb h₁) hs
    · -- The first escape that is the codec's only.
      rw [Classical.not_imp, Bool.not_eq_false] at hu
      obtain ⟨hr, hu⟩ := hu
      refine .inr (behind_run hscalar ?_ hs)
      have hascii : c.val < 0x80 := by
        by_contra hn
        rw [isUndocumented_high (by omega)] at hu
        simp at hu
      have hle : asciiCount (codecOf r).out + 0 ≤ asciiCount r.out := by
        have := hb.le
        omega
      have he := behind_escape hascii hr hle
      rw [hu, if_pos rfl] at he
      rw [Lib.UnicodeEscape.run_ascii hascii] at h₁
      have hstep : step names (codecOf r) (UInt8.ofNat c.val) =
          some (stepEscape { out := (codecOf r).out, pending := .escape } (UInt8.ofNat c.val)) := by
        simp only [step, codecOf, hr, if_true]
      cases h₁.symm.trans hstep
      exact he

/-! ## Whole texts -/

theorem codecOf_start : codecOf .start = .start := rfl

theorem behind_start : Behind 0 .start .start := ⟨rfl, Nat.le_refl 0⟩

/-- At the end of a text a codec that is behind has fewer ASCII characters. -/
theorem asciiCount_add_le {s t : PyStr} {d : Decoder}
    (hrun : run (step names) .start (bytes s) = some d)
    (h : Behind k d (s.foldl Reader.step .start)) (ht : decode names (bytes s) = some t) :
    asciiCount t + k ≤ asciiCount (unescape s) := by
  have hfinish : asciiCount (s.foldl Reader.step .start).out ≤ asciiCount (unescape s) := by
    unfold unescape Reader.finish
    split <;> simp
  obtain ⟨hin, hle⟩ := h
  rw [decode_of_run hrun] at ht
  obtain ⟨out, pending⟩ := d
  cases pending with
  | none =>
    cases ht
    have hle : asciiCount out + 0 + k ≤ _ := hle
    omega
  | octal value left =>
    obtain ⟨d₁, hd₁, rfl⟩ := Option.map_eq_some_iff.mp ht
    obtain ⟨⟨-, hle₁⟩, -⟩ := behind_value hin hle hd₁
    omega
  | escape => cases ht
  | hex value left => cases ht
  | named => cases ht
  | name read => cases ht

/-- The codec has no more ASCII characters than the rule. -/
theorem asciiCount_decode_le {s t : PyStr} (hs : ∀ c ∈ s, isScalar c)
    (ht : decode names (bytes s) = some t) : asciiCount t ≤ asciiCount (unescape s) := by
  cases hrun : run (step names) .start (bytes s) with
  | none =>
    rw [decode_of_run_none hrun] at ht
    cases ht
  | some d => exact asciiCount_add_le hrun (behind_run hs behind_start hrun) ht

/-- Where every escape is documented, the codec gives the Latin-1 characters of
the bytes of what the rule gives. -/
theorem decode_of_onlyDocumented {s : PyStr} (hs : ∀ c ∈ s, isScalar c)
    (h : onlyDocumented false s = true) :
    decode names (bytes s) = some ((bytes (unescape s)).map latin1) := by
  obtain ⟨hrun, hend⟩ : run (step names) (codecOf .start) (bytes s) =
      some (codecOf (s.foldl Reader.step .start)) ∧ (s.foldl Reader.step .start).escaped = false :=
    codecOf_run hs h
  rw [codecOf_start] at hrun
  rw [decode_of_run hrun]
  simp only [codecOf, hend, unescape, Reader.finish]
  rfl

/-- Where one is not, it does not give what the rule gives. -/
theorem decode_ne_unescape {s : PyStr} (hs : ∀ c ∈ s, isScalar c)
    (h : onlyDocumented false s = false) : decode names (bytes s) ≠ some (unescape s) := by
  intro ht
  cases hrun : run (step names) .start (bytes s) with
  | none =>
    rw [decode_of_run_none hrun] at ht
    cases ht
  | some d =>
    have hstart : Behind 0 (codecOf .start) .start := behind_start
    rcases behind_run_undocumented hs h hstart hrun with hp | hb
    · rw [decode_of_run hrun, hp] at ht
      cases ht
    · have := asciiCount_add_le hrun hb ht
      omega

/-- The rule makes no ASCII characters. -/
theorem asciiCount_foldl_le : ∀ (s : PyStr) (r : Reader),
    asciiCount (s.foldl Reader.step r).finish ≤ asciiCount r.finish + asciiCount s
  | [], r => Nat.le_add_right _ _
  | c :: s, r => by
    have hstep : asciiCount (r.step c).finish ≤ asciiCount r.finish + asciiCount [c] := by
      unfold Reader.step
      split
      · rename_i hr
        unfold Reader.finish
        rw [if_pos hr]
        split
        · rename_i m _
          have hm := asciiCount_singleton_le m
          rw [if_neg Bool.false_ne_true, asciiCount_append, asciiCount_append]
          show _ + asciiCount [m] ≤ _ + 1 + _
          omega
        · rw [if_neg Bool.false_ne_true, show [backslash, c] = [backslash] ++ [c] from rfl,
            ← List.append_assoc, asciiCount_append _ [c]]
      · rename_i hr
        unfold Reader.finish
        rw [if_neg hr]
        split
        · rename_i hc
          rw [if_pos rfl, asciiCount_append, hc]
        · rw [asciiCount_append]
    have hrest := asciiCount_foldl_le s (r.step c)
    rw [List.foldl_cons, show c :: s = [c] ++ s from rfl, asciiCount_append]
    omega

theorem asciiCount_unescape_le (s : PyStr) : asciiCount (unescape s) ≤ asciiCount s := by
  have h := asciiCount_foldl_le s .start
  rwa [show asciiCount Reader.start.finish = 0 from rfl, Nat.zero_add] at h

/-! ## ASCII -/

/-- The rule keeps the characters that are not ASCII, and makes none. -/
theorem mem_foldl_step_iff {x : CodePoint} (hx : 0x80 ≤ x.val) : ∀ {s : PyStr} {r : Reader},
    x ∈ (s.foldl Reader.step r).out ↔ x ∈ r.out ∨ x ∈ s
  | [], r => by simp
  | c :: s, r => by
    have hstep : x ∈ (r.step c).out ↔ x ∈ r.out ∨ x = c := by
      have hslash := ne_backslash_of_high hx
      unfold Reader.step
      split
      · split
        · rename_i m hm
          have hxm : x ≠ m := fun e => by
            have := documented_ascii hm
            rw [← e] at this
            omega
          have hxc : x ≠ c := fun e => by
            rw [← e, documented_high hx] at hm
            simp at hm
          simp [hxm, hxc]
        · simp [hslash]
      · split
        · rename_i hc
          simp [hc, hslash]
        · simp
    rw [List.foldl_cons, mem_foldl_step_iff hx, hstep, List.mem_cons, or_assoc]

theorem isAscii_unescape_iff {s : PyStr} : IsAscii (unescape s) ↔ IsAscii s := by
  have hmem : ∀ x : CodePoint, 0x80 ≤ x.val → (x ∈ unescape s ↔ x ∈ s) := by
    intro x hx
    have hslash := ne_backslash_of_high hx
    have hout : x ∈ unescape s ↔ x ∈ (s.foldl Reader.step .start).out := by
      unfold unescape Reader.finish
      split <;> simp [hslash]
    rw [hout, mem_foldl_step_iff hx]
    simp [Reader.start]
  refine ⟨fun h c hc => ?_, fun h c hc => ?_⟩
  · by_contra hn
    exact hn (h c ((hmem c (by omega)).mpr hc))
  · by_contra hn
    exact hn (h c ((hmem c (by omega)).mp hc))

/-- The bytes of a text are its characters exactly when it is ASCII. -/
theorem latin1_bytes_eq_iff {u : PyStr} : (bytes u).map latin1 = u ↔ IsAscii u := by
  refine ⟨fun h => ?_, latin1_bytes_of_ascii⟩
  have hscalar : ∀ c ∈ u, isScalar c := by
    intro c hc
    rw [← h] at hc
    obtain ⟨b, -, rfl⟩ := List.mem_map.mp hc
    have hb := b.toNat_lt
    rw [isScalar, Lib.UnicodeEscape.latin1_val, Bool.or_eq_true, decide_eq_true_iff]
    omega
  refine (length_bytes hscalar).2 ?_
  rw [← List.length_map latin1, h]

/-- A value decodes by the rule exactly when it is ASCII and its escapes are
documented. -/
theorem decode_eq_unescape_iff {s : PyStr} :
    (encode s).bind (decode names) = some (unescape s) ↔
      IsAscii s ∧ onlyDocumented false s = true := by
  by_cases hs : ∀ c ∈ s, isScalar c
  · have he : encode s = some (bytes s) := encode_eq_some_iff.mpr ⟨hs, rfl⟩
    rw [he, Option.bind_some]
    by_cases h : onlyDocumented false s = true
    · rw [decode_of_onlyDocumented hs h, Option.some.injEq, latin1_bytes_eq_iff,
        isAscii_unescape_iff]
      exact (and_iff_left h).symm
    · rw [Bool.not_eq_true] at h
      refine iff_of_false (decode_ne_unescape hs h) (fun h' => ?_)
      rw [h] at h'
      exact absurd h'.2 (by decide)
  · have he : encode s = none := by
      rw [Option.eq_none_iff_forall_ne_some]
      exact fun bs hb => hs (encode_eq_some_iff.mp hb).1
    rw [he]
    exact iff_of_false nofun fun h => hs fun c hc => isScalar_of_ascii (h.1 c hc)

end

end Fiducia.Dotenv
