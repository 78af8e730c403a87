import Mathlib.Data.List.Sort
import Mathlib.Data.Prod.Lex

/-!
# Mappings written as lists of pairs

An environment file, a shell script of assignments and a YAML mapping are
lists of pairs in which a later pair replaces an earlier one with the same key
(`lastWins`). Sorting the pairs may change the mapping:

* `le_of_lastWins_of_pairwise`: in a sorted list, the last value of a key is its
  greatest;
* `lastWins_sorted_iff`: so sorting keeps the mapping exactly when every key's
  last value already was;
* `lastWins_map_eq_iff`: encoding keys and values without collisions neither
  makes nor breaks an equality of mappings.
-/

namespace Lib.LastWins

variable {K V K' V' : Type*} [DecidableEq K] [DecidableEq K']

/-- The mapping of a list of pairs. -/
def lastWins : List (K × V) → K → Option V
  | [], _ => none
  | (k', v) :: l, k => (lastWins l k).or (if k' = k then some v else none)

theorem lastWins_cons_of_some {k k' : K} {v w : V} {l : List (K × V)} (h : lastWins l k = some w) :
    lastWins ((k', v) :: l) k = some w := by
  unfold lastWins
  rw [h, Option.some_or]

theorem lastWins_cons_of_none {k k' : K} {v : V} {l : List (K × V)} (h : lastWins l k = none) :
    lastWins ((k', v) :: l) k = if k' = k then some v else none := by
  unfold lastWins
  rw [h, Option.none_or]

theorem mem_of_lastWins : ∀ {l : List (K × V)} {k : K} {v : V}, lastWins l k = some v → (k, v) ∈ l
  | (k', w) :: l, k, v, h => by
    cases hl : lastWins l k with
    | some u =>
      rw [lastWins_cons_of_some hl] at h
      exact List.mem_cons_of_mem _ (mem_of_lastWins (hl.trans h))
    | none =>
      rw [lastWins_cons_of_none hl, Option.ite_none_right_eq_some, Option.some.injEq] at h
      obtain ⟨rfl, rfl⟩ := h
      exact List.mem_cons_self

theorem exists_lastWins : ∀ {l : List (K × V)} {k : K} {v : V},
    (k, v) ∈ l → ∃ w, lastWins l k = some w
  | (k', w) :: l, k, v, h => by
    cases hl : lastWins l k with
    | some u => exact ⟨u, lastWins_cons_of_some hl⟩
    | none =>
      rw [lastWins_cons_of_none hl]
      rcases List.mem_cons.mp h with h | h
      · cases h
        exact ⟨_, if_pos rfl⟩
      · obtain ⟨u, hu⟩ := exists_lastWins h
        rw [hl] at hu
        simp at hu

theorem lastWins_eq_none {l : List (K × V)} {k : K} (h : ∀ v, (k, v) ∉ l) : lastWins l k = none :=
  Option.eq_none_iff_forall_ne_some.mpr fun v hv => h v (mem_of_lastWins hv)

/-! ## Sorting -/

section
variable {K V : Type*} [LinearOrder K] [LinearOrder V]

/-- The pairs by key, and by value under one key. -/
def sorted (l : List (K × V)) : List (K × V) := l.insertionSort fun p q => toLex p ≤ toLex q

theorem sorted_perm (l : List (K × V)) : (sorted l).Perm l := List.perm_insertionSort _ _

theorem pairwise_sorted (l : List (K × V)) : (sorted l).Pairwise fun p q => toLex p ≤ toLex q :=
  List.pairwise_insertionSort _ _

variable [DecidableEq K]

/-- No value of a key is greater than its last. -/
def LastIsGreatest (l : List (K × V)) : Prop := ∀ p ∈ l, ∀ w ∈ lastWins l p.1, p.2 ≤ w

instance (l : List (K × V)) : Decidable (LastIsGreatest l) :=
  inferInstanceAs (Decidable (∀ p ∈ l, ∀ w ∈ lastWins l p.1, p.2 ≤ w))

/-- In a sorted list, the last value of a key is its greatest. -/
theorem le_of_lastWins_of_pairwise : ∀ {l : List (K × V)},
    (l.Pairwise fun p q => toLex p ≤ toLex q) → LastIsGreatest l
  | [], _ => nofun
  | (k', u) :: l, h => fun (k, v) hv w (hw : _ = some w) => by
    obtain ⟨hhead, htail⟩ := List.pairwise_cons.mp h
    cases hl : lastWins l k with
    | some w' =>
      rw [lastWins_cons_of_some hl] at hw
      cases hw
      rcases List.mem_cons.mp hv with hv | hv
      · cases hv
        rcases Prod.Lex.toLex_le_toLex.mp (hhead _ (mem_of_lastWins hl)) with hlt | ⟨-, hle⟩
        · exact absurd hlt (lt_irrefl _)
        · exact hle
      · exact le_of_lastWins_of_pairwise htail (k, v) hv w hl
    | none =>
      rw [lastWins_cons_of_none hl, Option.ite_none_right_eq_some, Option.some.injEq] at hw
      obtain ⟨rfl, rfl⟩ := hw
      rcases List.mem_cons.mp hv with hv | hv
      · cases hv
        exact le_refl _
      · obtain ⟨w', hw'⟩ := exists_lastWins hv
        rw [hl] at hw'
        simp at hw'

/-- Sorting keeps the mapping exactly when the last value of every key is its
greatest. -/
theorem lastWins_sorted_iff {l : List (K × V)} :
    lastWins (sorted l) = lastWins l ↔ LastIsGreatest l := by
  have hmem : ∀ {p}, p ∈ sorted l ↔ p ∈ l := (sorted_perm l).mem_iff
  have greatest := le_of_lastWins_of_pairwise (pairwise_sorted l)
  refine ⟨fun h p hp w hw => greatest p (hmem.mpr hp) w (h ▸ hw), fun h => funext fun k => ?_⟩
  cases hl : lastWins l k with
  | none =>
    apply lastWins_eq_none
    intro v hv
    obtain ⟨w, hw⟩ := exists_lastWins (hmem.mp hv)
    rw [hl] at hw
    simp at hw
  | some w =>
    have hw := hmem.mpr (mem_of_lastWins hl)
    obtain ⟨w', hw'⟩ := exists_lastWins hw
    have hle : w' ≤ w := h (k, w') (hmem.mp (mem_of_lastWins hw')) w hl
    rw [hw', hle.antisymm (greatest (k, w) hw w' hw')]

end

/-! ## Encoding -/

theorem lastWins_map {f : K → K'} (hf : Function.Injective f) (g : V → V') (l : List (K × V))
    (k : K) :
    lastWins (l.map (Prod.map f g)) (f k) = (lastWins l k).map g := by
  induction l with
  | nil => rfl
  | cons p l ih =>
    obtain ⟨k', v⟩ := p
    rw [List.map_cons, Prod.map_apply, lastWins, lastWins, ih]
    cases lastWins l k <;> simp [hf.eq_iff, apply_ite (Option.map g)]

/-- Mappings of the same pairs in two orders are equal after an encoding
without collisions exactly when they were equal before. -/
theorem lastWins_map_eq_iff {f : K → K'} {g : V → V'} {l l' : List (K × V)}
    (hf : Function.Injective f) (hg : ∀ p ∈ l, ∀ q ∈ l, g p.2 = g q.2 → p.2 = q.2)
    (hp : l'.Perm l) :
    lastWins (l'.map (Prod.map f g)) = lastWins (l.map (Prod.map f g)) ↔
      lastWins l' = lastWins l := by
  refine ⟨fun h => funext fun k => ?_, fun h => funext fun b => ?_⟩
  · have hk := congrFun h (f k)
    rw [lastWins_map hf, lastWins_map hf] at hk
    cases h₁ : lastWins l' k with
    | none =>
      rw [h₁] at hk
      exact (Option.map_eq_none_iff.mp hk.symm).symm
    | some v =>
      rw [h₁] at hk
      obtain ⟨w, hw, e⟩ := Option.map_eq_some_iff.mp hk.symm
      rw [hw]
      exact congrArg some (hg _ (hp.mem_iff.mp (mem_of_lastWins h₁)) _ (mem_of_lastWins hw) e.symm)
  · by_cases hb : ∃ k, f k = b
    · obtain ⟨k, rfl⟩ := hb
      rw [lastWins_map hf, lastWins_map hf, h]
    · have none : ∀ m : List (K × V), lastWins (m.map (Prod.map f g)) b = none := by
        intro m
        apply lastWins_eq_none
        intro v hv
        obtain ⟨p, -, hp⟩ := List.mem_map.mp hv
        exact hb ⟨p.1, congrArg Prod.fst hp⟩
      rw [none, none]

end Lib.LastWins
