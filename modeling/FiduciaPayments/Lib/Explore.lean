import Mathlib.Algebra.BigOperators.Group.Finset.Basic
import Mathlib.Data.Finset.Card
import Mathlib.Logic.Relation

/-!
# Exploring a system

A worklist takes states from the front of a queue, asserts something of each
and of each step out of it, and puts the states that are new at the back. The
states that have left the queue are `expanded`:

* `expand_spec`: what the steps out of one state add;
* `Inv`: the states seen are reachable, and of those expanded everything has
  been asserted, with every step counted once;
* `explore_isSome`: one more round than there are states is enough;
* `explore_ok_iff`: the exploration ends well exactly when every reachable
  state, and every step out of one, is as asserted.
-/

namespace Lib.Explore

variable {S E : Type*} [DecidableEq S]

/-- The steps of a system, and what is asserted of its states and steps. -/
structure System (S E : Type*) where
  next : S → List S
  assertState : S → Except E Unit
  assertStep : S → S → Except E Unit

/-- A queue, a set and a counter. -/
structure Search (S : Type*) where
  queue : List S
  seen : Finset S
  edges : Nat

def start (s : S) : Search S := { queue := [s], seen := {s}, edges := 0 }

/-- One more step counted, and its state queued if it is new. -/
def Search.visit (x : Search S) (t : S) : Search S :=
  if t ∈ x.seen then { x with edges := x.edges + 1 }
  else { queue := x.queue ++ [t], seen := insert t x.seen, edges := x.edges + 1 }

variable (sys : System S E)

/-- The steps out of a state, one after another. -/
def expand (s : S) : List S → Search S → Except E (Search S)
  | [], x => .ok x
  | t :: ts, x =>
    match sys.assertStep s t with
    | .error e => .error e
    | .ok () => expand s ts (x.visit t)

/-- The state at the front of the queue. -/
def pop (s : S) (x : Search S) : Except E (Search S) :=
  match sys.assertState s with
  | .error e => .error e
  | .ok () => expand sys s (sys.next s) x

/-- Rounds until the queue is empty or an assertion fails. -/
def explore : Nat → Search S → Option (Except E (Search S))
  | 0, _ => none
  | fuel + 1, x =>
    match x.queue with
    | [] => some (.ok x)
    | s :: queue =>
      match pop sys s { x with queue } with
      | .error e => some (.error e)
      | .ok x => explore fuel x

/-! ## Reachable states -/

/-- Some steps lead from one state to the other. -/
def Reach : S → S → Prop := Relation.ReflTransGen fun s t => t ∈ sys.next s

/-- A state and the steps out of it are as asserted. -/
def Asserted (s : S) : Prop :=
  sys.assertState s = .ok () ∧ ∀ t ∈ sys.next s, sys.assertStep s t = .ok ()

/-- A state, or a step out of it, is not. -/
def Fails (s : S) (e : E) : Prop :=
  sys.assertState s = .error e ∨ ∃ t ∈ sys.next s, sys.assertStep s t = .error e

variable {sys}

omit [DecidableEq S] in
theorem not_asserted_of_fails {s : S} {e : E} (h : Fails sys s e) : ¬ Asserted sys s := by
  intro ⟨hs, ht⟩
  rcases h with h | ⟨t, hm, h⟩
  · rw [hs] at h
    exact nomatch h
  · rw [ht t hm] at h
    exact nomatch h

omit [DecidableEq S] in
theorem Reach.mem {root s : S} {U : Finset S} (hroot : root ∈ U)
    (hU : ∀ s ∈ U, ∀ t ∈ sys.next s, t ∈ U) (h : Reach sys root s) : s ∈ U := by
  induction h with
  | refl => exact hroot
  | tail _ hst ih => exact hU _ ih _ hst

/-! ## The steps out of a state -/

section
variable {s t : S} {ts : List S} {x x' : Search S} {e : E}

/-- Visiting adds a state to the queue and the set, or to neither. -/
theorem visit_spec (x : Search S) (t : S) : ∃ new : List S,
    (x.visit t).queue = x.queue ++ new ∧ (x.visit t).seen = x.seen ∪ new.toFinset ∧
      (x.visit t).edges = x.edges + 1 ∧ new.Nodup ∧ t ∈ (x.visit t).seen ∧
      ∀ u ∈ new, u = t ∧ u ∉ x.seen := by
  unfold Search.visit
  split
  · rename_i h
    exact ⟨[], by simp, by simp, rfl, List.nodup_nil, h, nofun⟩
  · rename_i h
    exact ⟨[t], rfl, by simp, rfl, by simp, by simp,
      by simpa using h⟩

theorem expand_spec : ∀ {ts : List S} {x : Search S}, expand sys s ts x = .ok x' →
    (∀ t ∈ ts, sys.assertStep s t = .ok () ∧ t ∈ x'.seen) ∧ x'.edges = x.edges + ts.length ∧
      ∃ new : List S, x'.queue = x.queue ++ new ∧ x'.seen = x.seen ∪ new.toFinset ∧
        new.Nodup ∧ ∀ u ∈ new, u ∈ ts ∧ u ∉ x.seen
  | [], x, h => by
    obtain rfl : x = x' := Except.ok.inj h
    exact ⟨nofun, rfl, [], by simp, by simp, List.nodup_nil, nofun⟩
  | t :: ts, x, h => by
    unfold expand at h
    split at h
    · exact nomatch h
    · rename_i hstep
      obtain ⟨hall, hedges, later, hq, hs, hn, hl⟩ := expand_spec h
      obtain ⟨new, hq₁, hs₁, he₁, hn₁, ht, hl₁⟩ := visit_spec x t
      rw [hq₁] at hq
      have hsub : (x.visit t).seen ⊆ x'.seen := hs ▸ Finset.subset_union_left
      refine ⟨List.forall_mem_cons.mpr ⟨⟨hstep, hsub ht⟩, hall⟩, ?_, new ++ later, ?_, ?_, ?_, ?_⟩
      · rw [hedges, he₁, List.length_cons]
        omega
      · rw [hq, List.append_assoc]
      · rw [hs, hs₁, List.toFinset_append, Finset.union_assoc]
      · refine List.nodup_append.mpr ⟨hn₁, hn, fun u hu v hv => ?_⟩
        intro huv
        apply (hl v hv).2
        rw [hs₁, ← huv]
        exact Finset.mem_union_right _ (List.mem_toFinset.mpr hu)
      · intro u hu
        rcases List.mem_append.mp hu with hu | hu
        · obtain ⟨rfl, hx⟩ := hl₁ u hu
          exact ⟨List.mem_cons_self, hx⟩
        · refine ⟨List.mem_cons_of_mem _ (hl u hu).1, fun hx => (hl u hu).2 ?_⟩
          rw [hs₁]
          exact Finset.mem_union_left _ hx

theorem expand_error : ∀ {ts : List S} {x : Search S}, expand sys s ts x = .error e →
    ∃ t ∈ ts, sys.assertStep s t = .error e
  | [], x, h => nomatch h
  | t :: ts, x, h => by
    unfold expand at h
    split at h
    · rename_i hstep
      exact ⟨t, List.mem_cons_self, by rw [hstep, Except.error.inj h]⟩
    · obtain ⟨u, hu, he⟩ := expand_error h
      exact ⟨u, List.mem_cons_of_mem _ hu, he⟩

theorem pop_ok (h : pop sys s x = .ok x') :
    sys.assertState s = .ok () ∧ expand sys s (sys.next s) x = .ok x' := by
  unfold pop at h
  split at h
  · exact nomatch h
  · rename_i hs
    exact ⟨hs, h⟩

theorem fails_of_pop (h : pop sys s x = .error e) : Fails sys s e := by
  unfold pop at h
  split at h
  · rename_i hs
    exact .inl (by rw [hs, Except.error.inj h])
  · exact .inr (expand_error h)

end

/-! ## The invariant -/

/-- The states that have left the queue. -/
def Search.expanded (x : Search S) : Finset S := x.seen \ x.queue.toFinset

structure Inv (sys : System S E) (root : S) (x : Search S) : Prop where
  root_mem : root ∈ x.seen
  reach : ∀ s ∈ x.seen, Reach sys root s
  queue : ∀ s ∈ x.queue, s ∈ x.seen
  nodup : x.queue.Nodup
  closed : ∀ s ∈ x.expanded, Asserted sys s ∧ ∀ t ∈ sys.next s, t ∈ x.seen
  edges : x.edges = ∑ s ∈ x.expanded, (sys.next s).length

section
variable {root s : S} {x x' : Search S} {queue : List S} {e : E}

omit [DecidableEq S] in
theorem not_mem_tail (hn : (s :: queue).Nodup) : s ∉ queue := (List.nodup_cons.mp hn).1

theorem inv_start (root : S) : Inv sys root (start root) where
  root_mem := Finset.mem_singleton_self root
  reach s hs := by rw [Finset.mem_singleton.mp hs]; exact .refl
  queue s hs := by simpa [start] using hs
  nodup := List.nodup_singleton root
  closed s hs := by simp [Search.expanded, start] at hs
  edges := by simp [Search.expanded, start]

/-- One round expands the state at the front. -/
theorem expanded_of_pop (h : Inv sys root x) (hq : x.queue = s :: queue)
    (hp : pop sys s { x with queue } = .ok x') :
    x'.expanded = insert s x.expanded ∧ s ∉ x.expanded := by
  obtain ⟨-, hx⟩ := pop_ok hp
  obtain ⟨-, -, new, hq', hs', -, hnew⟩ := expand_spec hx
  have hsq : s ∉ queue := not_mem_tail (hq ▸ h.nodup)
  have hs : s ∈ x.seen := h.queue s (hq ▸ List.mem_cons_self)
  have hsn : s ∉ new := fun hm => (hnew s hm).2 hs
  refine ⟨Finset.ext fun t => ?_, by simp [Search.expanded, hq]⟩
  simp only [Search.expanded, hq', hs', hq, Finset.mem_sdiff, Finset.mem_union,
    List.mem_toFinset, List.mem_append, List.mem_cons, Finset.mem_insert, not_or]
  constructor
  · intro ⟨ht, htq, htn⟩
    rcases ht with ht | ht
    · by_cases hts : t = s
      · exact .inl hts
      · exact .inr ⟨ht, hts, htq⟩
    · exact absurd ht htn
  · intro ht
    rcases ht with rfl | ⟨ht, hts, htq⟩
    · exact ⟨.inl hs, hsq, hsn⟩
    · exact ⟨.inl ht, htq, fun hm => (hnew t hm).2 ht⟩

theorem inv_pop (h : Inv sys root x) (hq : x.queue = s :: queue)
    (hp : pop sys s { x with queue } = .ok x') : Inv sys root x' := by
  obtain ⟨hex, hsex⟩ := expanded_of_pop h hq hp
  obtain ⟨hstate, hx⟩ := pop_ok hp
  obtain ⟨hall, hedges, new, hq', hs', hn, hnew⟩ := expand_spec hx
  have hs : s ∈ x.seen := h.queue s (hq ▸ List.mem_cons_self)
  have hsub : x.seen ⊆ x'.seen := hs' ▸ Finset.subset_union_left
  have hnd : (s :: queue).Nodup := hq ▸ h.nodup
  have hqs : ∀ t ∈ queue, t ∈ x.seen := fun t ht => h.queue t (hq ▸ List.mem_cons_of_mem s ht)
  refine ⟨hsub h.root_mem, ?_, ?_, ?_, ?_, ?_⟩
  · intro t ht
    rw [hs', Finset.mem_union, List.mem_toFinset] at ht
    rcases ht with ht | ht
    · exact h.reach t ht
    · exact (h.reach s hs).tail (hnew t ht).1
  · intro t ht
    rw [hq', List.mem_append] at ht
    rw [hs', Finset.mem_union, List.mem_toFinset]
    exact ht.imp (hqs t) id
  · rw [hq']
    refine List.nodup_append.mpr ⟨(List.nodup_cons.mp hnd).2, hn, fun t ht u hu htu => ?_⟩
    exact (hnew u hu).2 (htu ▸ hqs t ht)
  · intro t ht
    rw [hex, Finset.mem_insert] at ht
    rcases ht with rfl | ht
    · exact ⟨⟨hstate, fun u hu => (hall u hu).1⟩, fun u hu => (hall u hu).2⟩
    · exact ⟨(h.closed t ht).1, fun u hu => hsub ((h.closed t ht).2 u hu)⟩
  · rw [hex, Finset.sum_insert hsex, hedges, ← h.edges]
    exact Nat.add_comm _ _

end

/-! ## The exploration -/

section
variable {root : S} {x x' : Search S} {fuel : Nat} {e : E}

/-- What an exploration keeps until the queue is empty. -/
theorem explore_ok : ∀ {fuel : Nat} {x : Search S}, Inv sys root x →
    explore sys fuel x = some (.ok x') → Inv sys root x' ∧ x'.queue = []
  | 0, _, _, h => nomatch h
  | fuel + 1, x, hi, h => by
    unfold explore at h
    split at h
    · rename_i hq
      obtain rfl : x = x' := Except.ok.inj (Option.some.inj h)
      exact ⟨hi, hq⟩
    · rename_i s queue hq
      split at h
      · exact nomatch h
      · rename_i hp
        exact explore_ok (inv_pop hi hq hp) h

theorem explore_error : ∀ {fuel : Nat} {x : Search S}, Inv sys root x →
    explore sys fuel x = some (.error e) → ∃ s, Reach sys root s ∧ Fails sys s e
  | 0, _, _, h => nomatch h
  | fuel + 1, x, hi, h => by
    unfold explore at h
    split at h
    · exact nomatch h
    · rename_i s queue hq
      split at h
      · rename_i hp
        obtain rfl := Except.error.inj (Option.some.inj h)
        exact ⟨s, hi.reach s (hi.queue s (hq ▸ List.mem_cons_self)), fails_of_pop hp⟩
      · rename_i hp
        exact explore_error (inv_pop hi hq hp) h

/-- Each round expands one more state of a finite set. -/
theorem explore_ne_none {U : Finset S} (hroot : root ∈ U)
    (hU : ∀ s ∈ U, ∀ t ∈ sys.next s, t ∈ U) : ∀ {fuel : Nat} {x : Search S}, Inv sys root x →
    U.card < fuel + x.expanded.card → explore sys fuel x ≠ none
  | 0, x, hi, hf => by
    have hsub : x.expanded ⊆ U := fun s hs =>
      (hi.reach s (Finset.mem_sdiff.mp hs).1).mem hroot hU
    have := Finset.card_le_card hsub
    omega
  | fuel + 1, x, hi, hf => by
    unfold explore
    split
    · exact nofun
    · rename_i s queue hq
      split
      · exact nofun
      · rename_i x' hp
        obtain ⟨hex, hs⟩ := expanded_of_pop hi hq hp
        refine explore_ne_none hroot hU (inv_pop hi hq hp) ?_
        rw [hex, Finset.card_insert_of_notMem hs]
        omega

theorem explore_isSome {U : Finset S} (hroot : root ∈ U)
    (hU : ∀ s ∈ U, ∀ t ∈ sys.next s, t ∈ U) (hf : U.card < fuel) :
    ∃ r, explore sys fuel (start root) = some r :=
  Option.ne_none_iff_exists'.mp
    (explore_ne_none hroot hU (inv_start root) (Nat.lt_add_right _ hf))

/-- When the queue is empty, the states seen are those that can be reached, as
asserted, and every step out of one was counted once. -/
theorem seen_of_explore (h : explore sys fuel (start root) = some (.ok x)) :
    (∀ s, s ∈ x.seen ↔ Reach sys root s) ∧ (∀ s ∈ x.seen, Asserted sys s) ∧
      x.edges = ∑ s ∈ x.seen, (sys.next s).length := by
  obtain ⟨hi, hq⟩ := explore_ok (inv_start root) h
  have hex : x.expanded = x.seen := by simp [Search.expanded, hq]
  have hclosed := hi.closed
  rw [hex] at hclosed
  refine ⟨fun s => ⟨hi.reach s, fun hr => ?_⟩, fun s hs => (hclosed s hs).1, hex ▸ hi.edges⟩
  exact hr.mem hi.root_mem fun s hs => (hclosed s hs).2

theorem explore_ok_iff {U : Finset S} (hroot : root ∈ U)
    (hU : ∀ s ∈ U, ∀ t ∈ sys.next s, t ∈ U) (hf : U.card < fuel) :
    (∃ x, explore sys fuel (start root) = some (.ok x)) ↔
      ∀ s, Reach sys root s → Asserted sys s := by
  constructor
  · intro ⟨x, h⟩ s hr
    obtain ⟨hseen, hall, -⟩ := seen_of_explore h
    exact hall s ((hseen s).mpr hr)
  · intro hall
    obtain ⟨r, hr⟩ := explore_isSome hroot hU hf
    match r, hr with
    | .ok x, hr => exact ⟨x, hr⟩
    | .error e, hr =>
      obtain ⟨s, hs, hf⟩ := explore_error (inv_start root) hr
      exact absurd (hall s hs) (not_asserted_of_fails hf)

end

end Lib.Explore
