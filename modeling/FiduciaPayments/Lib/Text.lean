import Mathlib.Data.List.DropRight

/-!
# Splitting and trimming

Text is a list of characters. The two operations a hand-written header parser
uses, over any alphabet:

* `splitOnce`: cut at the first separator. `splitOnce_eq_some_iff` says it is
  the only cut whose left part is free of the separator, so a concatenation
  `k ++ sep :: v` determines `k` and `v` (`append_sep_inj`);
* `trimBy`: drop the characters satisfying `p` from both ends.
  `trimBy_padded` undoes padding.

The segments of `List.splitOn` are free of the separator
(`not_mem_of_mem_splitOn`), and joining them back is `List.intercalate`. A
text ends in the segments of another exactly when it is that one, or ends in a
separator and that one (`splitOn_suffix_iff`).
-/

namespace Lib.Text

variable {α : Type*}

/-! ## The first separator -/

/-- The parts of a list before and after its first `sep`. -/
def splitOnce [DecidableEq α] (sep : α) : List α → Option (List α × List α)
  | [] => none
  | c :: s => if c = sep then some ([], s) else (splitOnce sep s).map fun kv => (c :: kv.1, kv.2)

variable [DecidableEq α] {sep : α}

theorem splitOnce_eq_some_iff {s k v : List α} :
    splitOnce sep s = some (k, v) ↔ s = k ++ sep :: v ∧ sep ∉ k := by
  induction s generalizing k with
  | nil => simp [splitOnce]
  | cons c s ih =>
    unfold splitOnce
    split
    · rename_i h
      subst h
      refine ⟨fun h => ?_, fun ⟨h, hk⟩ => ?_⟩
      · obtain ⟨rfl, rfl⟩ := Prod.mk.inj (Option.some.inj h)
        simp
      · cases k with
        | nil => simpa using h
        | cons d k => exact absurd (List.cons.inj h).1 (by simp at hk; exact hk.1)
    · rename_i h
      simp only [Option.map_eq_some_iff, Prod.exists, Prod.mk.injEq]
      refine ⟨fun ⟨k', v', h', hk', hv'⟩ => ?_, fun ⟨hs, hk⟩ => ?_⟩
      · subst hk' hv'
        obtain ⟨rfl, hk⟩ := ih.mp h'
        exact ⟨rfl, by simpa [Ne.symm h] using hk⟩
      · cases k with
        | nil => exact absurd (List.cons.inj hs).1 h
        | cons d k =>
          obtain ⟨rfl, rfl⟩ := List.cons.inj hs
          exact ⟨k, v, ih.mpr ⟨rfl, fun hm => hk (List.mem_cons_of_mem _ hm)⟩, rfl, rfl⟩

theorem splitOnce_eq_none_iff {s : List α} : splitOnce sep s = none ↔ sep ∉ s := by
  induction s with
  | nil => simp [splitOnce]
  | cons c s ih =>
    unfold splitOnce
    split
    · rename_i h; simp [h]
    · rename_i h; simp [ih, Ne.symm h]

theorem splitOnce_append {k : List α} (hk : sep ∉ k) (v : List α) :
    splitOnce sep (k ++ sep :: v) = some (k, v) :=
  splitOnce_eq_some_iff.mpr ⟨rfl, hk⟩

/-- A part free of the separator, the separator and the rest: the whole
determines both. -/
theorem append_sep_inj {k₁ k₂ v₁ v₂ : List α} (h₁ : sep ∉ k₁) (h₂ : sep ∉ k₂)
    (h : k₁ ++ sep :: v₁ = k₂ ++ sep :: v₂) : k₁ = k₂ ∧ v₁ = v₂ := by
  have e := (splitOnce_append h₁ v₁).symm.trans ((congrArg _ h).trans (splitOnce_append h₂ v₂))
  simpa using e

/-! ## Segments -/

theorem not_mem_of_mem_splitOn {s part : List α} (h : part ∈ s.splitOn sep) : sep ∉ part := by
  induction s generalizing part with
  | nil => simp at h; simp [h]
  | cons c s ih =>
    rw [List.splitOn_cons_eq_if_modifyHead] at h
    split at h
    · rcases List.mem_cons.mp h with rfl | h
      · simp
      · exact ih h
    · rename_i hc
      cases hs : s.splitOn sep with
      | nil => exact absurd hs (List.splitOn_ne_nil _ _)
      | cons p ps =>
        rw [hs, List.modifyHead_cons] at h
        rcases List.mem_cons.mp h with rfl | h
        · have hp := ih (hs ▸ List.mem_cons_self)
          simp only [beq_iff_eq] at hc
          simp [hp, Ne.symm hc]
        · exact ih (hs ▸ List.mem_cons_of_mem _ h)

omit [DecidableEq α] in
/-- A character other than the separator is in the join exactly when it is in
a segment. -/
theorem mem_intercalate_of_ne {segments : List (List α)} {c : α} (hc : c ≠ sep) :
    c ∈ [sep].intercalate segments ↔ ∃ s ∈ segments, c ∈ s := by
  induction segments with
  | nil => simp
  | cons s ss ih =>
    cases ss with
    | nil => simp
    | cons t ts =>
      rw [List.intercalate_cons_cons]
      simp only [List.mem_append, List.mem_singleton, hc, or_false]
      rw [ih]
      simp

/-- Lines that each end in the separator are the segments before the last,
empty, one. -/
theorem splitOn_terminated : ∀ {lines : List (List α)}, (∀ l ∈ lines, sep ∉ l) →
    (lines.flatMap fun l => l ++ [sep]).splitOn sep = lines ++ [[]]
  | [], _ => rfl
  | l :: ls, h => by
    obtain ⟨hl, hls⟩ := List.forall_mem_cons.mp h
    rw [List.flatMap_cons, List.append_assoc, List.singleton_append,
      List.splitOn_append_cons_self_of_not_mem hl, splitOn_terminated hls, List.cons_append]

omit [DecidableEq α] in
theorem intercalate_append {d : List (List α)} (hd : d ≠ []) :
    ∀ front : List (List α), front ≠ [] →
      [sep].intercalate (front ++ d) = [sep].intercalate front ++ sep :: [sep].intercalate d
  | [p], _ => by
    rw [List.singleton_append, List.intercalate_cons_of_ne_nil hd, List.intercalate_singleton,
      List.append_assoc, List.singleton_append]
  | p :: q :: ps, _ => by
    have ih := intercalate_append hd (q :: ps) (List.cons_ne_nil q ps)
    rw [List.cons_append, List.intercalate_cons_of_ne_nil (by simp), ih,
      List.intercalate_cons_of_ne_nil (List.cons_ne_nil q ps)]
    simp only [List.append_assoc]

/-- The segments of `d` end those of `s` exactly when `s` is `d` or ends in a
separator and `d`. -/
theorem splitOn_suffix_iff {s d : List α} :
    d.splitOn sep <:+ s.splitOn sep ↔ s = d ∨ sep :: d <:+ s := by
  refine ⟨fun ⟨front, h⟩ => ?_, fun h => ?_⟩
  · have hs : s = [sep].intercalate (front ++ d.splitOn sep) := by
      rw [h, List.intercalate_splitOn]
    by_cases hf : front = []
    · rw [hf, List.nil_append, List.intercalate_splitOn] at hs
      exact .inl hs
    · rw [intercalate_append (List.splitOn_ne_nil _ _) front hf, List.intercalate_splitOn] at hs
      exact .inr ⟨_, hs.symm⟩
  · rcases h with rfl | ⟨front, rfl⟩
    · exact List.suffix_rfl
    · rw [List.splitOn_append_cons_self]
      exact List.suffix_append _ _

/-- A map that gives the separator for the separator only maps the segments. -/
theorem splitOn_map {f : α → α} (hf : ∀ c, f c = sep ↔ c = sep) (s : List α) :
    (s.map f).splitOn sep = (s.splitOn sep).map (List.map f) := by
  induction s with
  | nil => rfl
  | cons c s ih =>
    rw [List.map_cons, List.splitOn_cons_eq_if_modifyHead, List.splitOn_cons_eq_if_modifyHead, ih]
    by_cases hc : c = sep
    · simp [hc, (hf sep).mpr rfl]
    · have hfc : f c ≠ sep := mt (hf c).mp hc
      simp only [beq_iff_eq, hc, hfc, if_false]
      obtain ⟨p, ps, hp⟩ := List.exists_cons_of_ne_nil (List.splitOn_ne_nil sep s)
      rw [hp]
      rfl

omit [DecidableEq α] in
/-- Items that are printed and read back one by one. -/
theorem mapM_map_eq_some {β γ : Type*} {p : β → α} {r : α → Option γ} {f : β → γ} :
    ∀ {l : List β}, (∀ a ∈ l, r (p a) = some (f a)) → (l.map p).mapM r = some (l.map f)
  | [], _ => rfl
  | a :: l, h => by
    obtain ⟨ha, hl⟩ := List.forall_mem_cons.mp h
    rw [List.map_cons, List.mapM_cons, ha, mapM_map_eq_some hl]
    rfl

/-- What comes after the last separator. -/
theorem rtakeWhile_append_cons (s : List α) {t : List α} (ht : sep ∉ t) :
    (s ++ sep :: t).rtakeWhile (· ≠ sep) = t := by
  have all : ∀ c ∈ t.reverse, decide (c ≠ sep) = true := fun c hc =>
    decide_eq_true fun e => ht (e ▸ List.mem_reverse.mp hc)
  rw [List.rtakeWhile, List.reverse_append, List.reverse_cons, List.append_assoc,
    List.takeWhile_append_of_pos all, List.singleton_append,
    List.takeWhile_cons_of_neg (by simp), List.append_nil, List.reverse_reverse]

/-! ## Trimming -/

omit [DecidableEq α]

/-- Drop the characters satisfying `p` from both ends. -/
def trimBy (p : α → Bool) (s : List α) : List α := (s.dropWhile p).rdropWhile p

variable {p : α → Bool}

/-- A text is all padding exactly when nothing is left of it. -/
theorem trimBy_eq_nil_iff {s : List α} : trimBy p s = [] ↔ ∀ c ∈ s, p c := by
  unfold trimBy
  rw [List.rdropWhile_eq_nil_iff]
  refine ⟨fun h c hc => ?_, fun h c hc => h c ((List.dropWhile_suffix p).subset hc)⟩
  · rw [← List.takeWhile_append_dropWhile (p := p) (l := s)] at hc
    rcases List.mem_append.mp hc with hc | hc
    · exact List.mem_takeWhile_imp hc
    · exact h c hc

theorem rdropWhile_append_of_forall {s post : List α} (h : ∀ c ∈ post, p c) :
    (s ++ post).rdropWhile p = s.rdropWhile p := by
  induction post using List.reverseRecOn with
  | nil => rw [List.append_nil]
  | append_singleton post c ih =>
    rw [← List.append_assoc, List.rdropWhile_concat_pos _ _ _ (h c (by simp)),
      ih fun d hd => h d (List.mem_append_left _ hd)]

/-- Trimming undoes padding. -/
theorem trimBy_padded {pre s post : List α} (hpre : ∀ c ∈ pre, p c) (hs : ∀ c ∈ s, ¬ p c)
    (hpost : ∀ c ∈ post, p c) : trimBy p (pre ++ s ++ post) = s := by
  unfold trimBy
  rw [List.append_assoc, List.dropWhile_append_of_pos hpre]
  cases s with
  | nil => simp [List.dropWhile_eq_nil_iff.mpr hpost]
  | cons c s =>
    rw [List.cons_append, List.dropWhile_cons_of_neg (hs c List.mem_cons_self), ← List.cons_append,
      rdropWhile_append_of_forall hpost, List.rdropWhile_eq_self_iff]
    exact fun hl => hs _ (List.getLast_mem hl)

/-- Trimming takes padding away. -/
theorem exists_padding (s : List α) : ∃ pre post, s = pre ++ trimBy p s ++ post ∧
    (∀ c ∈ pre, p c) ∧ ∀ c ∈ post, p c := by
  refine ⟨s.takeWhile p, (s.dropWhile p).rtakeWhile p, ?_, fun c hc => List.mem_takeWhile_imp hc,
    fun c hc => List.mem_rtakeWhile_imp hc⟩
  rw [trimBy, List.append_assoc, List.rdropWhile_append_rtakeWhile,
    List.takeWhile_append_dropWhile]

/-- Nothing is left to trim. -/
theorem trimBy_trimBy (s : List α) : trimBy p (trimBy p s) = trimBy p s := by
  have hfront : (trimBy p s).dropWhile p = trimBy p s := by
    cases ht : trimBy p s with
    | nil => rfl
    | cons c r =>
      have hpre : c :: r <+: s.dropWhile p := ht ▸ List.rdropWhile_prefix p _
      obtain ⟨post, hpost⟩ := hpre
      have hc := List.head?_dropWhile_not p s
      rw [← hpost] at hc
      exact List.dropWhile_cons_of_neg (by simpa using hc)
  rw [trimBy, hfront, trimBy, List.rdropWhile_idempotent]

/-- Rust's `char::is_whitespace`: the Unicode property `White_Space`. -/
def isWhitespace (c : Char) : Bool :=
  let n := c.toNat
  (0x09 ≤ n && n ≤ 0x0D) || n == 0x20 || n == 0x85 || n == 0xA0 || n == 0x1680 ||
    (0x2000 ≤ n && n ≤ 0x200A) || n == 0x2028 || n == 0x2029 || n == 0x202F || n == 0x205F ||
    n == 0x3000

/-- Rust's `str::trim`. -/
def trim (s : List Char) : List Char := trimBy isWhitespace s

theorem trim_of_forall {s : List Char} (h : ∀ c ∈ s, ¬ isWhitespace c) : trim s = s := by
  have ht : trimBy isWhitespace ([] ++ s ++ []) = s := trimBy_padded nofun h nofun
  rwa [List.nil_append, List.append_nil] at ht

/-! ## Case -/

/-- Rust's `str::to_ascii_lowercase`. -/
def toAsciiLowercase (s : List Char) : List Char := s.map Char.toLower

/-- Rust's `str::eq_ignore_ascii_case`. -/
def eqIgnoreAsciiCase (s t : List Char) : Bool := toAsciiLowercase s = toAsciiLowercase t

/-- What is no letter is the lower case of itself only. -/
theorem toLower_eq_iff {d : Char} (hd : d.toNat < 'A'.toNat) (c : Char) :
    c.toLower = d ↔ c = d := by
  unfold Char.toLower
  split
  · rename_i h
    have hlo : 0x41 ≤ c.toNat := UInt32.le_iff_toNat_le.mp h.1
    have hhi : c.toNat ≤ 0x5A := UInt32.le_iff_toNat_le.mp h.2
    have hd' : d.toNat < 0x41 := hd
    refine ⟨fun e => ?_, fun e => absurd (e ▸ hd') (by omega)⟩
    have hs : d.toNat = (c.toNat + 0x20) % 2 ^ 32 :=
      (congrArg Char.toNat e).symm.trans (UInt32.toNat_add c.val _)
    omega
  · exact Iff.rfl

theorem toLower_of_isWhitespace {c : Char} (h : isWhitespace c = true) : c.toLower = c := by
  have hnot : ¬ (c.val ≥ 'A'.val ∧ c.val ≤ 'Z'.val) := by
    intro ⟨hlo, hhi⟩
    have hlo : 0x41 ≤ c.toNat := UInt32.le_iff_toNat_le.mp hlo
    have hhi : c.toNat ≤ 0x5A := UInt32.le_iff_toNat_le.mp hhi
    simp only [isWhitespace, Bool.or_eq_true, Bool.and_eq_true, decide_eq_true_eq, beq_iff_eq] at h
    omega
  unfold Char.toLower
  rw [dif_neg hnot]

end Lib.Text
