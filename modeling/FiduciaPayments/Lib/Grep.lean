import FiduciaPayments.Lib.Errexit
import FiduciaPayments.Lib.Text

/-!
# `grep` on paths

A pattern is a list of branches. A branch is a text that may have to start a
segment of the line (`(^|/)`), and after which the line may have to end (`$`),
or to end in the same segment (`[^/]*$`). Which lines a branch finds is said by
their segments, the parts between the separators:

* `search_base`, `search_base_prefix`, `search_base_suffix`: of the last one;
* `search_directories`: of consecutive ones before the last;
* `search_inside`: of any.
-/

namespace Lib.Grep

open Lib.Errexit Lib.Shell Lib.Text

section
variable {α : Type*} [DecidableEq α]

/-- What comes after a text. -/
inductive Tail where
  | anything
  /-- `$` -/
  | finish
  /-- `[^/]*$` -/
  | segment

def Tail.accepts (sep : α) : Tail → List α → Bool
  | .anything, _ => true
  | .finish, rest => rest.isEmpty
  | .segment, rest => rest.all (· ≠ sep)

structure Branch (α : Type*) where
  /-- `(^|/)` -/
  atSegment : Bool
  text : List α
  tail : Tail

/-- The branch matches what begins here. -/
def Branch.here (sep : α) (a : Branch α) (s : List α) : Bool :=
  a.text.isPrefixOf s && a.tail.accepts sep (s.drop a.text.length)

/-- The branch matches somewhere in what is left of a line; `start` where
what is left begins a segment. -/
def Branch.search (sep : α) (a : Branch α) (start : Bool) : List α → Bool
  | [] => (start || !a.atSegment) && a.here sep []
  | c :: s => ((start || !a.atSegment) && a.here sep (c :: s)) || a.search sep (c == sep) s

/-- A text without anything else finds the lines that it is in. -/
def contains (text : List α) : List α → Bool
  | [] => text.isPrefixOf []
  | c :: s => text.isPrefixOf (c :: s) || contains text s

abbrev Pattern (α : Type*) := List (Branch α)

def Pattern.finds (sep : α) (p : Pattern α) (line : List α) : Bool :=
  p.any fun a => a.search sep true line

/-! ## Where a branch matches -/

variable {sep : α} {a : Branch α} {s t : List α} {start : Bool}

theorem here_iff : a.here sep s = true ↔
    ∃ rest, a.tail.accepts sep rest = true ∧ s = a.text ++ rest := by
  rw [Branch.here, Bool.and_eq_true, List.isPrefixOf_iff_prefix]
  constructor
  · intro ⟨⟨rest, hs⟩, ht⟩
    rw [← hs, List.drop_left] at ht
    exact ⟨rest, ht, hs.symm⟩
  · intro ⟨rest, ht, hs⟩
    rw [hs, List.drop_left]
    exact ⟨List.prefix_append _ _, ht⟩

theorem contains_iff : ∀ {s : List α}, contains t s = true ↔ t <:+: s
  | [] => by rw [contains, List.isPrefixOf_iff_prefix, List.prefix_nil, List.infix_nil]
  | c :: s => by
    rw [contains, Bool.or_eq_true, List.isPrefixOf_iff_prefix, contains_iff, List.infix_cons_iff]

theorem search_anywhere (h : a.atSegment = false) : ∀ {s : List α} {start : Bool},
    a.search sep start s = true ↔
      ∃ rest, a.tail.accepts sep rest = true ∧ a.text ++ rest <:+ s
  | [], start => by
    rw [Branch.search, h, Bool.not_false, Bool.or_true, Bool.true_and, here_iff]
    simp only [List.suffix_nil, eq_comm]
  | c :: s, start => by
    rw [Branch.search, h, Bool.not_false, Bool.or_true, Bool.true_and, Bool.or_eq_true,
      here_iff, search_anywhere h, ← exists_or]
    simp only [List.suffix_cons_iff, and_or_left, eq_comm]

/-- The branch matches at the start, or after a separator. -/
theorem search_atSegment (h : a.atSegment = true) : ∀ {s : List α} {start : Bool},
    a.search sep start s = true ↔
      ∃ rest, a.tail.accepts sep rest = true ∧
        ((start = true ∧ s = a.text ++ rest) ∨ sep :: (a.text ++ rest) <:+ s)
  | [], start => by
    rw [Branch.search, h, Bool.not_true, Bool.or_false, Bool.and_eq_true, here_iff]
    simp only [List.suffix_nil, reduceCtorEq, or_false, and_left_comm, exists_and_left]
  | c :: s, start => by
    rw [Branch.search, h, Bool.not_true, Bool.or_false, Bool.or_eq_true, Bool.and_eq_true,
      here_iff, search_atSegment h]
    simp only [List.suffix_cons_iff, beq_iff_eq, List.cons.injEq]
    constructor
    · intro hs
      rcases hs with ⟨hstart, rest, ht, hs⟩ | ⟨rest, ht, ⟨hc, hs⟩ | hs⟩
      · exact ⟨rest, ht, .inl ⟨hstart, hs⟩⟩
      · exact ⟨rest, ht, .inr (.inl ⟨hc.symm, hs.symm⟩)⟩
      · exact ⟨rest, ht, .inr (.inr hs)⟩
    · intro ⟨rest, ht, hs⟩
      rcases hs with ⟨hstart, hs⟩ | ⟨hc, hs⟩ | hs
      · exact .inl ⟨hstart, rest, ht, hs⟩
      · exact .inr ⟨rest, ht, .inl ⟨hc.symm, hs.symm⟩⟩
      · exact .inr ⟨rest, ht, .inr hs⟩

/-- The segments of the match, and what comes after it, are the last ones. -/
theorem search_segment (h : a.atSegment = true) : a.search sep true s = true ↔
    ∃ rest, a.tail.accepts sep rest = true ∧
      (a.text ++ rest).splitOn sep <:+ s.splitOn sep := by
  rw [search_atSegment h]
  simp only [true_and, splitOn_suffix_iff]

theorem infix_of_search (h : a.search sep start s = true) : a.text <:+: s := by
  rcases ha : a.atSegment with _ | _
  · obtain ⟨rest, -, hs⟩ := (search_anywhere ha).mp h
    exact (List.prefix_append _ _).isInfix.trans hs.isInfix
  · obtain ⟨rest, -, ⟨-, rfl⟩ | hs⟩ := (search_atSegment ha).mp h
    · exact (List.prefix_append _ _).isInfix
    · exact (List.prefix_append _ _).isInfix.trans ((List.suffix_cons _ _).trans hs).isInfix

/-- What is in every text of a pattern is in the lines that it finds. -/
theorem exists_mem_of_finds {p : Pattern α} {q : α → Prop} (hp : ∀ b ∈ p, ∃ c ∈ b.text, q c)
    (h : p.finds sep s = true) : ∃ c ∈ s, q c := by
  obtain ⟨b, hb, hs⟩ := List.any_eq_true.mp h
  obtain ⟨c, hc, hq⟩ := hp b hb
  exact ⟨c, (infix_of_search hs).subset hc, hq⟩

/-! ## Segments -/

/-- The last segment. -/
def base (segments : List (List α)) : List α := segments.getLastD []

/-- The segments have these in a row, and others after them. -/
def Within (dirs segments : List (List α)) : Prop :=
  ∃ front back, segments = front ++ dirs ++ back ∧ back ≠ []

omit [DecidableEq α] in
theorem singleton_suffix_iff {segments : List (List α)} (h : segments ≠ []) :
    [t] <:+ segments ↔ base segments = t := by
  rw [base, List.getLastD_eq_getLast?, List.getLast?_eq_some_getLast h, Option.getD_some]
  constructor
  · intro ⟨front, hs⟩
    simp only [← hs, List.getLast_append_singleton]
  · rintro rfl
    exact ⟨segments.dropLast, List.dropLast_append_getLast h⟩

theorem base_suffix (s : List α) : [base (s.splitOn sep)] <:+ s.splitOn sep :=
  (singleton_suffix_iff (List.splitOn_ne_nil _ _)).mpr rfl

theorem notMem_base (s : List α) : sep ∉ base (s.splitOn sep) :=
  not_mem_of_mem_splitOn ((base_suffix s).subset List.mem_cons_self)

theorem splitOn_of_notMem (h : sep ∉ t) : t.splitOn sep = [t] := by
  have hone : ([sep].intercalate [t]).splitOn sep = [t] :=
    List.splitOn_intercalate sep (List.forall_mem_singleton.mpr h) (List.cons_ne_nil _ _)
  rwa [List.intercalate_singleton] at hone

/-- A line ends in its last segment. -/
theorem base_cases (s : List α) :
    s = base (s.splitOn sep) ∨ sep :: base (s.splitOn sep) <:+ s := by
  rw [← splitOn_suffix_iff, splitOn_of_notMem (notMem_base s)]
  exact base_suffix s

/-- `(^|/)t$` -/
theorem search_base (h : sep ∉ t) :
    (Branch.mk true t .finish).search sep true s = true ↔ base (s.splitOn sep) = t := by
  rw [search_segment rfl, ← singleton_suffix_iff (List.splitOn_ne_nil _ _)]
  constructor
  · intro ⟨rest, ht, hs⟩
    obtain rfl := List.isEmpty_iff.mp ht
    rwa [List.append_nil, splitOn_of_notMem h] at hs
  · intro hs
    refine ⟨[], rfl, ?_⟩
    rwa [List.append_nil, splitOn_of_notMem h]

/-- `(^|/)t[^/]*$` -/
theorem search_base_prefix (h : sep ∉ t) :
    (Branch.mk true t .segment).search sep true s = true ↔ t <+: base (s.splitOn sep) := by
  rw [search_segment rfl]
  have hnot {rest : List α} : rest.all (· ≠ sep) = true ↔ sep ∉ t ++ rest := by
    rw [List.mem_append, not_or, and_iff_right h, List.all_eq_true]
    exact ⟨fun hr hm => of_decide_eq_true (hr sep hm) rfl,
      fun hr c hc => decide_eq_true fun e => hr (e ▸ hc)⟩
  constructor
  · intro ⟨rest, ht, hs⟩
    rw [splitOn_of_notMem (hnot.mp ht), singleton_suffix_iff (List.splitOn_ne_nil _ _)] at hs
    exact ⟨rest, hs.symm⟩
  · intro ⟨rest, hs⟩
    have hb : sep ∉ base (s.splitOn sep) := notMem_base s
    rw [← hs] at hb
    refine ⟨rest, hnot.mpr hb, ?_⟩
    rw [splitOn_of_notMem hb, hs]
    exact base_suffix s

/-- `t$` -/
theorem search_base_suffix (h : sep ∉ t) :
    (Branch.mk false t .finish).search sep true s = true ↔ t <:+ base (s.splitOn sep) := by
  rw [search_anywhere rfl]
  have hcases : s = base (s.splitOn sep) ∨ sep :: base (s.splitOn sep) <:+ s := base_cases s
  constructor
  · intro ⟨rest, ht, hs⟩
    obtain rfl := List.isEmpty_iff.mp ht
    rw [List.append_nil] at hs
    rcases hcases with hb | hb
    · rwa [← hb]
    · rcases List.suffix_or_suffix_of_suffix hs hb with h' | h'
      · refine (List.suffix_cons_iff.mp h').resolve_left fun e => h ?_
        rw [show t = sep :: _ from e]
        exact List.mem_cons_self
      · exact absurd (h'.subset List.mem_cons_self) h
  · intro hs
    refine ⟨[], rfl, ?_⟩
    rw [List.append_nil]
    rcases hcases with hb | hb
    · rwa [hb]
    · exact hs.trans ((List.suffix_cons _ _).trans hb)

/-- `(^|/)d/…/` -/
theorem search_directories {dirs : List (List α)} (h : ∀ d ∈ dirs, sep ∉ d) :
    (Branch.mk true (dirs.flatMap (· ++ [sep])) .anything).search sep true s = true ↔
      Within dirs (s.splitOn sep) := by
  have hsplit (rest : List α) :
      (dirs.flatMap (· ++ [sep]) ++ rest).splitOn sep = dirs ++ rest.splitOn sep := by
    induction dirs with
    | nil => rfl
    | cons d dirs ih =>
      obtain ⟨hd, hdirs⟩ := List.forall_mem_cons.mp h
      rw [List.flatMap_cons, List.append_assoc, List.append_assoc, List.singleton_append,
        List.splitOn_append_cons_self_of_not_mem hd, ih hdirs, List.cons_append]
  rw [search_segment rfl]
  simp only [hsplit]
  constructor
  · intro ⟨rest, _, front, hs⟩
    exact ⟨front, rest.splitOn sep, by rw [← hs, List.append_assoc], List.splitOn_ne_nil _ _⟩
  · intro ⟨front, back, hs, hback⟩
    refine ⟨[sep].intercalate back, rfl, front, ?_⟩
    rw [hs, List.splitOn_intercalate sep (fun l hl => ?_) hback, List.append_assoc]
    exact not_mem_of_mem_splitOn (s := s) (by rw [hs]; exact List.mem_append_right _ hl)

/-- A segment is an infix of the line. -/
theorem infix_of_mem_splitOn (h : t ∈ s.splitOn sep) : t <:+: s := by
  obtain ⟨front, back, hs⟩ := List.append_of_mem h
  have hline : [sep].intercalate (t :: back) <:+ s := by
    have hsuffix : ([sep].intercalate (t :: back)).splitOn sep <:+ s.splitOn sep := by
      rw [List.splitOn_intercalate sep (fun l hl => ?_) (List.cons_ne_nil _ _), hs]
      · exact List.suffix_append _ _
      · exact not_mem_of_mem_splitOn (s := s) (by rw [hs]; exact List.mem_append_right _ hl)
    rcases splitOn_suffix_iff.mp hsuffix with rfl | h'
    · exact List.suffix_rfl
    · exact (List.suffix_cons _ _).trans h'
  refine List.IsInfix.trans (List.IsPrefix.isInfix ?_) hline.isInfix
  cases back with
  | nil => exact ⟨[], by simp⟩
  | cons d back =>
    rw [List.intercalate_cons_cons, List.append_assoc]
    exact List.prefix_append _ _

/-- The segment that a text without separator begins in. -/
theorem exists_mem_splitOn (h : sep ∉ t) (rest : List α) :
    ∃ k, t ++ k ∈ (t ++ rest).splitOn sep := by
  rcases hr : splitOnce sep rest with _ | ⟨k, v⟩
  · refine ⟨rest, ?_⟩
    rw [splitOn_of_notMem (List.not_mem_append h (splitOnce_eq_none_iff.mp hr))]
    exact List.mem_cons_self
  · obtain ⟨rfl, hk⟩ := splitOnce_eq_some_iff.mp hr
    refine ⟨k, ?_⟩
    rw [← List.append_assoc, List.splitOn_append_cons_self_of_not_mem (List.not_mem_append h hk)]
    exact List.mem_cons_self

/-- `t` -/
theorem search_inside (h : sep ∉ t) :
    (Branch.mk false t .anything).search sep true s = true ↔
      ∃ segment ∈ s.splitOn sep, t <:+: segment := by
  rw [search_anywhere rfl]
  constructor
  · intro ⟨rest, _, front, hs⟩
    -- What is before the match in its segment is the last segment before it.
    obtain ⟨b, hb, hf⟩ : ∃ b, sep ∉ b ∧ (front = b ∨ sep :: b <:+ front) :=
      ⟨_, notMem_base front, base_cases front⟩
    obtain ⟨k, hk⟩ := exists_mem_splitOn (List.not_mem_append hb h) rest
    refine ⟨_, ?_, b, k, rfl⟩
    rw [← hs, ← List.append_assoc]
    rcases hf with rfl | ⟨a, rfl⟩
    · exact hk
    · rw [List.append_assoc, List.append_assoc, List.cons_append, List.splitOn_append_cons_self,
        ← List.append_assoc]
      exact List.mem_append_right _ hk
  · intro ⟨segment, hm, ht⟩
    obtain ⟨front, back, hs⟩ := ht.trans (infix_of_mem_splitOn hm)
    exact ⟨back, rfl, front, by rw [← List.append_assoc, hs]⟩

end

/-! ## Lines -/

def unlines (ls : List Word) : Word := ls.flatMap (· ++ [newline])

/-- The lines of an input; what comes after the last newline is one as well,
if it is not empty. -/
def lines (input : Word) : List Word :=
  if (input.splitOn newline).getLast? = some [] then (input.splitOn newline).dropLast
  else input.splitOn newline

/-- `grep` of an input. -/
def select (p : Word → Bool) (input : Word) : Outcome :=
  { out := unlines ((lines input).filter p), ok := (lines input).any p }

/-- `tr '\0' '\n'` -/
def tr (input : Word) : Word := input.map fun c => if c = 0 then newline else c

section
variable {ls : List Word} {p : Word → Bool}

theorem lines_unlines (h : ∀ l ∈ ls, newline ∉ l) : lines (unlines ls) = ls := by
  rw [lines, unlines, splitOn_terminated h, if_pos List.getLast?_concat, List.dropLast_concat]

theorem newline_notMem_of_mem_lines {input l : Word} (h : l ∈ lines input) : newline ∉ l := by
  refine not_mem_of_mem_splitOn (s := input) ?_
  unfold lines at h
  split at h
  · exact List.dropLast_subset _ h
  · exact h

/-- A line that a newline ends. -/
theorem mem_lines_append {l : Word} (h : newline ∉ l) (rest : Word) :
    l ∈ lines (l ++ newline :: rest) := by
  unfold lines
  rw [List.splitOn_append_cons_self_of_not_mem h]
  split
  · rw [List.dropLast_cons_of_ne_nil (List.splitOn_ne_nil _ _)]
    exact List.mem_cons_self
  · exact List.mem_cons_self

theorem unlines_intercalate : ∀ {ls : List Word}, ls ≠ [] →
    unlines ls = [newline].intercalate ls ++ [newline]
  | [l], _ => by simp [unlines]
  | l :: m :: ls, _ => by
    have ih : unlines (m :: ls) = _ := unlines_intercalate (List.cons_ne_nil m ls)
    rw [unlines, List.flatMap_cons, ← unlines, ih, List.intercalate_cons_cons]
    simp only [List.append_assoc]

theorem newline_notMem_of_mem_splitOn {paths : List Word} :
    ∀ l ∈ paths.flatMap (·.splitOn newline), newline ∉ l := by
  intro l hl
  obtain ⟨path, -, hl⟩ := List.mem_flatMap.mp hl
  exact not_mem_of_mem_splitOn hl

/-- Paths that each end in a NUL become the lines of the paths. -/
theorem tr_paths : ∀ {paths : List Word}, (∀ path ∈ paths, (0 : UInt8) ∉ path) →
    tr (paths.flatMap (· ++ [0])) = unlines (paths.flatMap (·.splitOn newline))
  | [], _ => rfl
  | path :: paths, h => by
    obtain ⟨hpath, hpaths⟩ := List.forall_mem_cons.mp h
    have hself : tr path = path := by
      have hc : ∀ c ∈ path, (if c = 0 then newline else c) = id c := fun c hc =>
        if_neg fun (h0 : c = 0) => hpath (h0 ▸ hc)
      exact (List.map_congr_left hc).trans (List.map_id path)
    have hends : unlines (path.splitOn newline) = path ++ [newline] := by
      rw [unlines_intercalate (List.splitOn_ne_nil _ _), List.intercalate_splitOn]
    rw [unlines, List.flatMap_cons, List.flatMap_cons, List.flatMap_append, ← unlines, ← unlines,
      hends, ← tr_paths hpaths, tr, List.map_append, List.map_append, ← tr, ← tr, hself]
    rfl

theorem lines_select (input : Word) : lines (select p input).out = (lines input).filter p :=
  lines_unlines fun _ hl => newline_notMem_of_mem_lines (List.mem_of_mem_filter hl)

theorem commandSubstitution_eq_nil_iff {out : Word} :
    commandSubstitution out = [] ↔ ∀ c ∈ out, c = 0 ∨ c = newline := by
  rw [commandSubstitution, List.rdropWhile_eq_nil_iff]
  simp only [List.mem_filter, decide_eq_true_eq, and_imp]
  exact forall₂_congr fun c _ => by rw [imp_iff_not_or, not_not]

/-- `[[ -n $(…) ]]` of lines that each have something else than NUL. -/
theorem commandSubstitution_unlines_ne_nil_iff (h : ∀ l ∈ ls, ∃ c ∈ l, c ≠ 0 ∧ c ≠ newline) :
    commandSubstitution (unlines ls) ≠ [] ↔ ls ≠ [] := by
  refine not_congr ⟨fun hnil => ?_, fun hnil => by rw [hnil]; rfl⟩
  refine List.eq_nil_iff_forall_not_mem.mpr fun l hl => ?_
  obtain ⟨c, hc, h0, hn⟩ := h l hl
  have hout : c ∈ unlines ls := List.mem_flatMap.mpr ⟨l, hl, List.mem_append_left _ hc⟩
  exact (commandSubstitution_eq_nil_iff.mp hnil c hout).elim h0 hn

end

end Lib.Grep
