import Mathlib.Data.List.Infix

/-!
# Quoted names

git prints a path with bytes that a terminal might not show between double
quotes, with the escapes of C (`quoted`), and other paths as they are. What is
said of quoted paths is what a search of them finds: a text whose first byte no
escape has is in a quoted path exactly if it is in the path
(`infix_quoted_iff`), and no text ends one but those that end in a double quote
(`not_suffix_quoted`).
-/

namespace Lib.CQuote

abbrev doubleQuote : UInt8 := 0x22

abbrev backslash : UInt8 := 0x5C

/-- Bytes that are not printed as they are; with `core.quotePath`, which is on
unless it is turned off, those from 0x80 on as well. -/
def isUnusual (quotePath : Bool) (c : UInt8) : Bool :=
  c < 0x20 || c == doubleQuote || c == backslash || c == 0x7F || (quotePath && 0x80 ≤ c)

/-- `\a`, `\b`, `\t`, `\n`, `\v`, `\f`, `\r`, `\"`, `\\`, or three octal digits. -/
def escape : UInt8 → List UInt8
  | 0x07 => [backslash, 0x61]
  | 0x08 => [backslash, 0x62]
  | 0x09 => [backslash, 0x74]
  | 0x0A => [backslash, 0x6E]
  | 0x0B => [backslash, 0x76]
  | 0x0C => [backslash, 0x66]
  | 0x0D => [backslash, 0x72]
  | 0x22 => [backslash, doubleQuote]
  | 0x5C => [backslash, backslash]
  | c => [backslash, 0x30 + c / 64, 0x30 + c / 8 % 8, 0x30 + c % 8]

def escaped (quotePath : Bool) (path : List UInt8) : List UInt8 :=
  path.flatMap fun c => if isUnusual quotePath c then escape c else [c]

/-- What git prints of a path. -/
def quoted (quotePath : Bool) (path : List UInt8) : List UInt8 :=
  if path.any (isUnusual quotePath) then doubleQuote :: (escaped quotePath path ++ [doubleQuote])
  else path

/-- The bytes of escapes that are no digits. -/
def marks : List UInt8 :=
  [backslash, 0x61, 0x62, 0x74, 0x6E, 0x76, 0x66, 0x72, doubleQuote]

variable {q : Bool} {c x : UInt8} {t u path : List UInt8}

theorem escape_eq (c : UInt8) : ∃ rest, escape c = backslash :: rest := by
  unfold escape
  split <;> exact ⟨_, rfl⟩

theorem notMem_escape (hx : x ∉ marks) (hdigit : x < 0x30 ∨ 0x37 < x) : x ∉ escape c := by
  have hmem {u : List UInt8} (hu : u ⊆ marks) : x ∉ u := fun h => hx (hu h)
  unfold escape
  split
  case h_10 =>
    have hback : x ≠ backslash := fun h => hx (h ▸ List.mem_cons_self)
    have hoct {n : UInt8} (hn : n.toNat < 8) : x ≠ 0x30 + n := by
      rintro rfl
      have hsum : ((0x30 : UInt8) + n).toNat = 0x30 + n.toNat := by
        rw [UInt8.toNat_add]
        exact Nat.mod_eq_of_lt (by have := show (0x30 : UInt8).toNat = 0x30 from rfl; omega)
      rw [UInt8.lt_iff_toNat_lt, UInt8.lt_iff_toNat_lt, hsum] at hdigit
      have h30 : (0x30 : UInt8).toNat = 0x30 := rfl
      have h37 : (0x37 : UInt8).toNat = 0x37 := rfl
      omega
    have hlt := c.toNat_lt
    simp only [List.mem_cons, List.not_mem_nil, or_false, not_or]
    refine ⟨hback, hoct ?_, hoct ?_, hoct ?_⟩
    · rw [UInt8.toNat_div]
      exact Nat.div_lt_of_lt_mul (show c.toNat < 64 * 8 by omega)
    · rw [UInt8.toNat_mod]
      exact Nat.mod_lt _ (by decide)
    · rw [UInt8.toNat_mod]
      exact Nat.mod_lt _ (by decide)
  all_goals exact hmem (by decide)

theorem escaped_cons (c : UInt8) (path : List UInt8) : escaped q (c :: path) =
    (if isUnusual q c then escape c else [c]) ++ escaped q path := List.flatMap_cons

theorem escaped_append (t u : List UInt8) : escaped q (t ++ u) = escaped q t ++ escaped q u :=
  List.flatMap_append

theorem escaped_of_usual : ∀ {t : List UInt8}, t.any (isUnusual q) = false → escaped q t = t
  | [], _ => rfl
  | c :: t, h => by
    obtain ⟨hc, ht⟩ := Bool.or_eq_false_iff.mp h
    rw [escaped_cons, hc, if_neg Bool.false_ne_true, escaped_of_usual ht, List.singleton_append]

theorem isUnusual_backslash : isUnusual q backslash = true := by cases q <;> rfl

theorem isUnusual_doubleQuote : isUnusual q doubleQuote = true := by cases q <;> rfl

theorem prefix_of_prefix_escaped : ∀ {t path : List UInt8}, t.any (isUnusual q) = false →
    t <+: escaped q path → t <+: path
  | [], _, _, _ => List.nil_prefix
  | c :: t, [], _, h => h
  | c :: t, d :: path, ht, h => by
    obtain ⟨hc, ht⟩ := Bool.or_eq_false_iff.mp ht
    rw [escaped_cons] at h
    by_cases hd : isUnusual q d = true
    · obtain ⟨rest, hrest⟩ := escape_eq d
      rw [if_pos hd, hrest, List.cons_append, List.cons_prefix_cons] at h
      rw [h.1, isUnusual_backslash] at hc
      exact absurd hc.symm Bool.false_ne_true
    · rw [if_neg hd, List.singleton_append, List.cons_prefix_cons] at h
      exact List.cons_prefix_cons.mpr ⟨h.1, prefix_of_prefix_escaped ht h.2⟩

/-- A text is not begun in what does not have its first byte. -/
theorem infix_of_infix_append : ∀ {u v : List UInt8}, x ∉ u → x :: t <:+: u ++ v → x :: t <:+: v
  | [], _, _, h => h
  | c :: u, v, hx, h => by
    obtain ⟨hc, hu⟩ := List.ne_and_not_mem_of_not_mem_cons hx
    rcases List.infix_cons_iff.mp h with h | h
    · exact absurd (List.cons_prefix_cons.mp h).1 hc
    · exact infix_of_infix_append hu h

theorem infix_escaped_iff (hx : ∀ c, x ∉ escape c) (ht : (x :: t).any (isUnusual q) = false) :
    x :: t <:+: escaped q path ↔ x :: t <:+: path := by
  constructor
  · intro h
    induction path with
    | nil => exact h
    | cons c path ih =>
      rw [escaped_cons] at h
      by_cases hc : isUnusual q c = true
      · rw [if_pos hc] at h
        exact List.infix_cons (ih (infix_of_infix_append (hx c) h))
      · rw [if_neg hc, List.singleton_append] at h
        rcases List.infix_cons_iff.mp h with h | h
        · obtain ⟨rfl, h'⟩ := List.cons_prefix_cons.mp h
          have hpre := prefix_of_prefix_escaped (Bool.or_eq_false_iff.mp ht).2 h'
          exact (List.cons_prefix_cons.mpr ⟨rfl, hpre⟩).isInfix
        · exact List.infix_cons (ih h)
  · rintro ⟨front, back, rfl⟩
    refine ⟨escaped q front, escaped q back, ?_⟩
    rw [escaped_append, escaped_append, escaped_of_usual ht]

/-- A text without unusual bytes is in a quoted path exactly if it is in the path,
where no escape has its first byte. -/
theorem infix_quoted_iff (hx : ∀ c, x ∉ escape c) (ht : (x :: t).any (isUnusual q) = false) :
    x :: t <:+: quoted q path ↔ x :: t <:+: path := by
  unfold quoted
  split
  · have hquote : doubleQuote ∉ x :: t := fun h => by
      have hany := List.any_eq_true.mpr ⟨_, h, isUnusual_doubleQuote (q := q)⟩
      rw [ht] at hany
      exact Bool.false_ne_true hany
    refine Iff.trans ⟨fun h => ?_, fun ⟨front, back, h⟩ => ?_⟩ (infix_escaped_iff hx ht)
    · have hfirst : x ∉ [doubleQuote] := fun h => hquote (by
        rw [List.mem_singleton.mp h]
        exact List.mem_cons_self)
      have h : x :: t <:+: escaped q path ++ [doubleQuote] :=
        infix_of_infix_append (u := [doubleQuote]) hfirst h
      rcases List.infix_concat_iff.mp h with h | h
      · rcases List.suffix_concat_iff.mp h with h | ⟨t', h, -⟩
        · exact nomatch h
        · exact absurd (by rw [h]; exact List.mem_append_right _ List.mem_cons_self) hquote
      · exact h
    · exact ⟨doubleQuote :: front, back ++ [doubleQuote], by simp [← h]⟩
  · exact Iff.rfl

theorem quoted_of_unusual (h : path.any (isUnusual q) = true) :
    quoted q path = doubleQuote :: (escaped q path ++ [doubleQuote]) := if_pos h

/-- An unusual byte that no escape has is not printed. -/
theorem notMem_quoted (hx : ∀ c, x ∉ escape c) (hu : isUnusual q x = true)
    (hquote : x ≠ doubleQuote) : x ∉ quoted q path := by
  intro h
  unfold quoted at h
  split at h
  · rcases List.mem_cons.mp h with h | h
    · exact hquote h
    rcases List.mem_append.mp h with h | h
    · obtain ⟨c, -, h⟩ := List.mem_flatMap.mp h
      split at h
      · exact hx c h
      · rename_i hc
        rw [List.mem_singleton.mp h] at hu
        exact hc hu
    · exact hquote (List.mem_singleton.mp h)
  · rename_i hnone
    exact hnone (List.any_eq_true.mpr ⟨x, h, hu⟩)

/-- What ends a quoted path ends in its quote. -/
theorem not_suffix_quoted (h : path.any (isUnusual q) = true) (ht : t ≠ [])
    (hquote : doubleQuote ∉ t) : ¬ t <:+ quoted q path := by
  rw [quoted_of_unusual h, ← List.cons_append]
  intro hs
  rcases List.suffix_concat_iff.mp hs with h | ⟨t', h, -⟩
  · exact ht h
  · exact hquote (by rw [h]; exact List.mem_append_right _ List.mem_cons_self)

end Lib.CQuote
