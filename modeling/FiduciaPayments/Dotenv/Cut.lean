import FiduciaPayments.Dotenv.Listing
import FiduciaPayments.Dotenv.Recipes

/-!
# A stream that is cut

A `sops decrypt` that fails may have printed a part of its stream, and
`dotenv.py` reads that part as if it were all. Its last line is cut, perhaps
within a character, whose bytes are then refused or escaped
(`declaredKey_of_escaped`); a name is read from it only if the `=` is there, and is
then the name of the whole line (`declaredKey_of_part`). So the variables of a
part are the first variables of the stream, all but the last with their values
(`parse_cut`).
-/

namespace Fiducia.Dotenv.Cut

open Lib.Bash Lib.Errexit Lib.Python Lib.Text Listing Recipes
open Lib.Shell (Word)

/-! ## Names -/

theorem listedKey_of_part {q l : PyStr} {k : Key} (h : q <+: l) (hl : newline ∉ l)
    (hk : listedKey q = some k) : listedKey l = some k := by
  obtain ⟨⟨v, hm⟩, hsops⟩ := listedKey_eq_some_iff.mp hk
  obtain ⟨r, rfl⟩ := h
  obtain ⟨rfl, -⟩ := matchLine_eq_some hm
  refine listedKey_eq_some_iff.mpr ⟨⟨v ++ r, ?_⟩, hsops⟩
  have hv : newline ∉ v ++ r := fun h => hl (by
    rw [List.append_assoc, List.cons_append]
    exact List.mem_append_right _ (List.mem_cons_of_mem _ h))
  rw [List.append_assoc, List.cons_append, matchLine_append (notMem_key (by decide)) hv,
    dif_pos k.2]

/-- A name in a part of a line is the name of the line. -/
theorem declaredKey_of_part {q l : PyStr} {k : Key} (h : q <+: rstripNewline l)
    (hl : newline ∉ rstripNewline l) (hk : declaredKey q = some k) : declaredKey l = some k := by
  have hq : rstripNewline q = q := rstripNewline_of_notMem fun hn => hl (h.subset hn)
  unfold declaredKey at hk ⊢
  simp only [hq] at hk ⊢
  by_cases hexport : (lit "export ").isPrefixOf q = true
  · rw [if_pos hexport] at hk
    rw [if_pos (List.isPrefixOf_iff_prefix.mpr ((List.isPrefixOf_iff_prefix.mp hexport).trans h))]
    obtain ⟨q', rfl⟩ := List.isPrefixOf_iff_prefix.mp hexport
    obtain ⟨r, hr⟩ := h
    have hlen : (lit "export ").length = 7 := rfl
    rw [List.drop_left' hlen] at hk
    rw [← hr, List.append_assoc, List.drop_left' hlen]
    refine listedKey_of_part (List.prefix_append q' r) (fun h' => hl ?_) hk
    rw [← hr, List.append_assoc]
    exact List.mem_append_right _ h'
  · rw [if_neg hexport] at hk
    rw [if_neg]
    · exact listedKey_of_part h hl hk
    · intro hl'
      -- A part of `export ` has no `=`.
      have hpart : q <+: lit "export " :=
        (List.prefix_or_prefix_of_prefix h (List.isPrefixOf_iff_prefix.mp hl')).resolve_right
          fun h' => hexport (List.isPrefixOf_iff_prefix.mpr h')
      obtain ⟨⟨v, hm⟩, -⟩ := listedKey_eq_some_iff.mp hk
      have heq : equals ∈ q := (matchLine_eq_some hm).1 ▸ List.mem_append_right _ List.mem_cons_self
      exact absurd (hpart.subset heq) (by decide)

/-- An escaped byte is not ASCII. -/
theorem notMem_of_isEscaped {e : PyStr} {c : CodePoint} (hc : c.val < 0x80)
    (he : ∀ d ∈ e, isEscaped d) : c ∉ e := fun h => by
  have hesc := he c h
  simp only [isEscaped, Bool.and_eq_true, decide_eq_true_eq] at hesc
  omega

theorem listedKey_of_append {q e : PyStr} {k : Key} (he : equals ∉ e)
    (hk : listedKey (q ++ e) = some k) : listedKey q = some k := by
  obtain ⟨⟨v, hm⟩, hsops⟩ := listedKey_eq_some_iff.mp hk
  obtain ⟨hline, hv⟩ := matchLine_eq_some hm
  have hkey : equals ∉ k.val := notMem_key (by decide)
  -- The `=` is before what was added.
  rcases List.append_eq_append_iff.mp hline with ⟨t, hkt, ht⟩ | ⟨t, rfl, ht⟩
  · exact absurd (ht ▸ List.mem_append_right t List.mem_cons_self) he
  · cases t with
    | nil =>
      rw [List.nil_append] at ht
      exact absurd (ht ▸ List.mem_cons_self) he
    | cons c t =>
      obtain ⟨rfl, rfl⟩ := List.cons.inj ht
      refine listedKey_eq_some_iff.mpr ⟨⟨t, ?_⟩, hsops⟩
      rw [matchLine_append hkey fun h => hv (List.mem_append_left _ h), dif_pos k.2]

/-- Escaped bytes after a line make no name of it. -/
theorem declaredKey_of_escaped {q e : PyStr} {k : Key} (hq : newline ∉ q)
    (he : ∀ c ∈ e, isEscaped c) (hk : declaredKey (q ++ e) = some k) : declaredKey q = some k := by
  have hequals : equals ∉ e := notMem_of_isEscaped (by decide) he
  have hqe : newline ∉ q ++ e := fun h =>
    (List.mem_append.mp h).elim hq (notMem_of_isEscaped (by decide) he)
  unfold declaredKey at hk ⊢
  simp only [rstripNewline_of_notMem hq, rstripNewline_of_notMem hqe] at hk ⊢
  by_cases hexport : (lit "export ").isPrefixOf q = true
  · obtain ⟨q', rfl⟩ := List.isPrefixOf_iff_prefix.mp hexport
    have hlen : (lit "export ").length = 7 := rfl
    rw [if_pos (List.isPrefixOf_iff_prefix.mpr
      ((List.isPrefixOf_iff_prefix.mp hexport).trans (List.prefix_append _ e))),
      List.append_assoc, List.drop_left' hlen] at hk
    rw [if_pos hexport, List.drop_left' hlen]
    exact listedKey_of_append hequals hk
  · have hexport' : ¬ (lit "export ").isPrefixOf (q ++ e) = true := by
      intro h
      have hpre := List.isPrefixOf_iff_prefix.mp h
      rcases List.prefix_or_prefix_of_prefix hpre (List.prefix_append q e) with h' | ⟨r, hr⟩
      · exact hexport (List.isPrefixOf_iff_prefix.mpr h')
      · cases r with
        | nil =>
          rw [List.append_nil] at hr
          exact hexport (List.isPrefixOf_iff_prefix.mpr (hr ▸ List.prefix_rfl))
        | cons c r =>
          rw [← hr] at hpre
          have hc : c ∈ e := ((List.prefix_append_right_inj q).mp hpre).subset List.mem_cons_self
          have hscalar : isScalar c :=
            isScalar_of_mem_lit (hr ▸ List.mem_append_right q List.mem_cons_self)
          exact Bool.false_ne_true ((isEscaped_of_isScalar hscalar).symm.trans (he c hc))
    rw [if_neg hexport'] at hk
    rw [if_neg hexport]
    exact listedKey_of_append hequals hk

/-! ## Variables -/

section
variable {errors : Errors} {names : List UInt8 → Option CodePoint}

theorem parse_append : ∀ {ls ms : List PyStr} {pairs : List (Key × PyStr)},
    parse names (ls ++ ms) = some pairs ↔
      ∃ ps qs, parse names ls = some ps ∧ parse names ms = some qs ∧ ps ++ qs = pairs
  | [], ms, pairs => by simp [parse]
  | l :: ls, ms, pairs => by
    rw [List.cons_append, parse, parse]
    simp only [Option.bind_eq_bind, Option.bind_eq_some_iff, parse_append]
    constructor
    · intro ⟨p, hp, out, ⟨ps, qs, hps, hqs, e⟩, h⟩
      cases h
      exact ⟨_, qs, ⟨p, hp, ps, hps, rfl⟩, hqs, by rw [← e, List.append_assoc]⟩
    · intro ⟨_, qs, ⟨p, hp, ps, hps, h⟩, hqs, e⟩
      cases h
      exact ⟨p, hp, ps ++ qs, ⟨ps, qs, hps, hqs, rfl⟩, by rw [← e, ← List.append_assoc]; rfl⟩

/-- The variables of the part of a line that is cut, and of the lines it is
cut from. -/
theorem parse_cut_line {q r e : PyStr} {ps pairs : List (Key × PyStr)} (hq : newline ∉ q)
    (he : ∀ c ∈ e, isEscaped c) (hps : parse names (lines (q ++ e)) = some ps)
    (hpairs : parse names (lines (q ++ r)) = some pairs) :
    ps.map Prod.fst <+: pairs.map Prod.fst ∧ (ps.map Prod.fst).length ≤ 1 := by
  have hqe : newline ∉ q ++ e := fun h =>
    (List.mem_append.mp h).elim hq (notMem_of_isEscaped (by decide) he)
  rw [parse_keys hps, parse_keys hpairs, lines_of_notMem hqe]
  -- One line, or none; it has a name only if its part has.
  have hone : (List.filter (fun l => decide (l ≠ [])) [q ++ e]).filterMap declaredKey =
      (declaredKey (q ++ e)).toList := by
    cases h : q ++ e with
    | nil => rfl
    | cons c s =>
      rw [List.filter_cons_of_pos (by simp), List.filter_nil, List.filterMap_cons]
      cases declaredKey (c :: s) <;> rfl
  rw [hone]
  cases hk : declaredKey (q ++ e) with
  | none => simp
  | some k =>
    have hk := declaredKey_of_escaped hq he hk
    have hne : q ≠ [] := fun h => by
      rw [h, show declaredKey [] = none by decide] at hk
      simp at hk
    obtain ⟨l, ls, hlines, hql, hl⟩ := exists_first_line (r := r) hq hne
    rw [hlines, List.filterMap_cons, declaredKey_of_part hql hl hk]
    exact ⟨List.cons_prefix_cons.mpr ⟨rfl, List.nil_prefix⟩, Nat.le_refl 1⟩

/-- The variables of a part of a text, with escaped bytes after it: those of its
whole lines, and at most one of the line that is cut. -/
theorem parse_part {s t e : PyStr} {ps pairs : List (Key × PyStr)} (h : s <+: t)
    (he : ∀ c ∈ e, isEscaped c) (hps : parse names (lines (s ++ e)) = some ps)
    (hpairs : parse names (lines t) = some pairs) :
    ∃ whole last rest, ps = whole ++ last ∧ pairs = whole ++ rest ∧
      last.map Prod.fst <+: rest.map Prod.fst ∧ (last.map Prod.fst).length ≤ 1 ∧
      ((s ++ e).getLast? = some newline → last = []) := by
  have hend : newline ∉ e := notMem_of_isEscaped (by decide) he
  obtain ⟨r, rfl⟩ := h
  rcases exists_last_line s with hs | ⟨x, q, rfl, hq⟩
  · obtain ⟨hfst, hlen⟩ := parse_cut_line hs he hps hpairs
    exact ⟨[], ps, pairs, rfl, rfl, hfst, hlen, fun h =>
      ((List.mem_append.mp (List.mem_of_getLast? h)).elim hs hend).elim⟩
  · rw [List.append_assoc, List.cons_append, lines_append, parse_append] at hps
    rw [List.append_assoc, List.cons_append, lines_append, parse_append] at hpairs
    obtain ⟨whole, last, hwhole, hlast, rfl⟩ := hps
    obtain ⟨whole', rest, hwhole', hrest, rfl⟩ := hpairs
    obtain rfl := Option.some.inj (hwhole.symm.trans hwhole')
    obtain ⟨hfst, hlen⟩ := parse_cut_line hq he hlast hrest
    refine ⟨whole, last, rest, rfl, rfl, hfst, hlen, fun h => ?_⟩
    have hqe : newline ∉ q ++ e := fun h => (List.mem_append.mp h).elim hq hend
    rw [List.append_assoc, List.cons_append] at h
    cases hcons : q ++ e with
    | nil =>
      rw [hcons] at hlast
      exact (Option.some.inj hlast).symm
    | cons c s =>
      rw [hcons, List.getLast?_append_of_ne_nil _ (List.cons_ne_nil _ _),
        List.getLast?_cons_cons] at h
      exact absurd (hcons ▸ List.mem_of_getLast? h) hqe

/-- A line end ends the encoding only where it ends the text. -/
theorem getLast?_of_bytes {s : PyStr} (h : (bytes s).getLast? = some 0x0A) :
    s.getLast? = some newline := by
  rcases List.eq_nil_or_concat' s with rfl | ⟨x, c, rfl⟩
  · exact absurd h (by decide)
  · have hne : bytes [c] ≠ [] := by
      rw [bytes_singleton]
      exact codeBytes_ne_nil c
    rw [bytes_append, List.getLast?_append_of_ne_nil _ hne] at h
    have hmem := mem_of_mem_bytes (d := '\n') (by decide) (by decide) (List.mem_of_getLast? h)
    rw [List.getLast?_concat, ← List.mem_singleton.mp hmem]
    rfl

end

/-- Whatever part of a stream `dotenv.py` gets, if it can read it: the names are
the first names of the stream in their order, every value but the last is that
of the stream, and so is the last if the part ends with a line. -/
theorem parse_cut {errors : Errors} {names : List UInt8 → Option CodePoint}
    {stream out : List UInt8} {pairs ps : List (Key × PyStr)} (h : out <+: stream)
    (hs : Parsed errors names stream pairs) (ho : Parsed errors names out ps) :
    ps.map Prod.fst <+: pairs.map Prod.fst ∧ ps.dropLast <+: pairs ∧
      (out.getLast? = some 0x0A → ps <+: pairs) := by
  obtain ⟨text, ht, hpairs⟩ := hs
  obtain ⟨text', ht', hps⟩ := ho
  obtain rfl := readAll_of_decode ht
  obtain rfl := readAll_of_decode ht'
  obtain ⟨p, e, hpe, hp, he⟩ := readAll_part (Nat.le_refl _) h
  have hbytes := (bytes_readAll (Nat.le_refl out.length)).1
  rw [hpe] at hps hbytes
  obtain ⟨whole, last, rest, rfl, rfl, hfst, hlen, hlast⟩ := parse_part hp he hps hpairs
  rw [List.length_map] at hlen
  refine ⟨?_, ?_, fun hend => ?_⟩
  · rw [List.map_append, List.map_append]
    exact (List.prefix_append_right_inj _).mpr hfst
  · have hle : (whole ++ last).dropLast.length ≤ whole.length := by
      rw [List.length_dropLast, List.length_append]
      omega
    exact (List.prefix_of_prefix_length_le (List.dropLast_prefix _) (List.prefix_append whole last)
      hle).trans (List.prefix_append whole rest)
  · rw [← hbytes] at hend
    rw [hlast (getLast?_of_bytes hend), List.append_nil]
    exact List.prefix_append whole rest

/-- A stream that sops printed up to a quoted value. -/
theorem parse_cut_rising :
    [keyA, keyB] <+: risingPairs.map Prod.fst ∧ [(keyA, lit "1")] <+: risingPairs ∧
      ((bytes (lit "A=1\nexport B='x")).getLast? = some 0x0A →
        [(keyA, lit "1"), (keyB, lit "'x")] <+: risingPairs) := by
  have hcut : bytes (lit "A=1\nexport B='x") <+: bytes rising :=
    ⟨bytes (lit " y'\nA=2\n"), by decide⟩
  have hs : Parsed .strict noNames (bytes rising) risingPairs := ⟨rising, by decide, by decide +kernel⟩
  have ho : Parsed .strict noNames (bytes (lit "A=1\nexport B='x"))
      [(keyA, lit "1"), (keyB, lit "'x")] :=
    ⟨lit "A=1\nexport B='x", by decide, by decide +kernel⟩
  exact parse_cut hcut hs ho

/-! ## `env-run` -/

/-- sops prints a part of its stream. -/
theorem isPrefix_of_sopsDecrypt {stream : List UInt8} {sops : Outcome}
    (h : SopsDecrypt stream sops) : sops.out <+: stream := by
  cases h with
  | done => exact List.prefix_rfl
  | failed h => exact h

section
variable {names : List UInt8 → Option CodePoint} {stream stdin : List UInt8} {sops d : Outcome}
  {pairs : List (Key × PyStr)}

end

end Fiducia.Dotenv.Cut
