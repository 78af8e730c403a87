import FiduciaPayments.Stripe.Verify
import Mathlib

/-!
# The replay window

A request with a readable header meets the clock and the tolerance in one
place, the replay window (`verify_of_parsed`). So the clock values that accept
it are all of the window or none of it (`acceptedAt_eq`), and the window is
the interval of the integers from `t - tolerance` to `t + tolerance`
(`inWindow_iff_mem_Icc`): convex, left for good by a clock that does not run
backwards (`expired_forever`), and growing with the tolerance
(`inWindow_mono`).
-/

namespace Fiducia.Stripe

open Lib.Wide

/-- The clock values at which a request is accepted. -/
def acceptedAt (C : Crates) (payload : Bytes) (header secret : Str) (tolerance : UInt64) :
    Set Int64 :=
  {now | ∃ e, verify C payload header secret now tolerance = .ok e}

/-! ## The window -/

section
variable {now now' t : Int64} {tolerance tolerance' : UInt64}

theorem inWindow_iff_mem_Icc :
    InWindow now t tolerance ↔
      now.toInt ∈ Set.Icc (t.toInt - tolerance.toNat) (t.toInt + tolerance.toNat) := by
  unfold InWindow
  rw [Set.mem_Icc]
  omega

/-- Between two points of the window there are only points of it. -/
theorem inWindow_convex {now'' : Int64} (h : InWindow now t tolerance)
    (h'' : InWindow now'' t tolerance) (h₁ : now ≤ now') (h₂ : now' ≤ now'') :
    InWindow now' t tolerance := by
  rw [inWindow_iff_mem_Icc] at *
  rw [Int64.le_iff_toInt_le] at h₁ h₂
  exact Set.ordConnected_Icc.out h h'' ⟨h₁, h₂⟩

/-- A clock past the window stays past it. -/
theorem expired_forever (h : t.toInt + tolerance.toNat < now.toInt) (h' : now ≤ now') :
    ¬ InWindow now' t tolerance := by
  rw [inWindow_iff_mem_Icc, Set.mem_Icc]
  rw [Int64.le_iff_toInt_le] at h'
  omega

theorem inWindow_mono (ht : tolerance ≤ tolerance') (h : InWindow now t tolerance) :
    InWindow now t tolerance' :=
  Nat.le_trans h (UInt64.le_iff_toNat_le.mp ht)

theorem toInt_clampedSkew : (clampedSkew now t).toInt =
    max Int64.minValue.toInt (min Int64.maxValue.toInt (now.toInt - t.toInt)) := by
  rw [← saturateI64_skew, toInt_saturateI64, toInt_skew]

end

/-! ## The verdict over the clock -/

section
variable (C : Crates) (payload : Bytes) {header secret : Str} {t : Int64} {sigs : List Str}
  (hs : secret ≠ []) (hp : parseSignatureHeader header = .ok (t, sigs))

include hs hp

/-- The request is accepted in the whole window, with one event for every
clock and tolerance, or nowhere. -/
theorem verify_eq_ok_iff_inWindow :
    (∀ now tolerance e, verify C payload header secret now tolerance ≠ .ok e) ∨
      ∃ e, ∀ now tolerance e', verify C payload header secret now tolerance = .ok e' ↔
        InWindow now t tolerance ∧ e' = e := by
  cases ha : authenticate C payload secret t sigs with
  | error err =>
    apply Or.inl
    intro now tolerance e h
    rw [verify_of_parsed hs hp, ha] at h
    split at h <;> cases h
  | ok e =>
    refine .inr ⟨e, fun now tolerance e' => ?_⟩
    rw [verify_of_parsed hs hp, ha]
    split
    · rename_i hw
      simp [hw, eq_comm]
    · rename_i hw
      simp [hw]

theorem acceptedAt_eq (tolerance : UInt64) :
    acceptedAt C payload header secret tolerance = ∅ ∨
      acceptedAt C payload header secret tolerance = {now | InWindow now t tolerance} ∧
        ∃ e, ∀ now ∈ acceptedAt C payload header secret tolerance,
          verify C payload header secret now tolerance = .ok e := by
  rcases verify_eq_ok_iff_inWindow C payload hs hp with h | ⟨e, h⟩
  · exact .inl (Set.eq_empty_iff_forall_notMem.mpr fun now ⟨e, he⟩ => h now tolerance e he)
  · refine .inr ⟨Set.ext fun now => ⟨fun ⟨e', he⟩ => ((h now tolerance e').mp he).1,
      fun hw => ⟨e, (h now tolerance e).mpr ⟨hw, rfl⟩⟩⟩, e, fun now ⟨e', he⟩ => ?_⟩
    rw [he, ((h now tolerance e').mp he).2]

/-- An accepted request was in its window. -/
theorem inWindow_of_mem_acceptedAt {now : Int64} {tolerance : UInt64}
    (h : now ∈ acceptedAt C payload header secret tolerance) : InWindow now t tolerance := by
  rcases acceptedAt_eq C payload hs hp tolerance with h' | ⟨h', -⟩
  · rw [h'] at h
    exact absurd h (Set.notMem_empty now)
  · rwa [h'] at h

/-- Where a request is accepted at all, the points of its window accept it. -/
theorem mem_acceptedAt_of_inWindow {now now' : Int64} {tolerance : UInt64}
    (h : now ∈ acceptedAt C payload header secret tolerance) (hw : InWindow now' t tolerance) :
    now' ∈ acceptedAt C payload header secret tolerance := by
  rcases acceptedAt_eq C payload hs hp tolerance with h' | ⟨h', -⟩
  · rw [h'] at h
    exact absurd h (Set.notMem_empty now)
  · rwa [h']

/-- Enlarging the tolerance keeps an accepted request and its event. -/
theorem verify_mono_tolerance {now : Int64} {tolerance tolerance' : UInt64} {e : VerifiedEvent}
    (ht : tolerance ≤ tolerance') (h : verify C payload header secret now tolerance = .ok e) :
    verify C payload header secret now tolerance' = .ok e := by
  rcases verify_eq_ok_iff_inWindow C payload hs hp with h' | ⟨e₀, h'⟩
  · exact absurd h (h' now tolerance e)
  · obtain ⟨hw, rfl⟩ := (h' now tolerance e).mp h
    exact (h' now tolerance' e).mpr ⟨inWindow_mono ht hw, rfl⟩

/-- Along a clock that does not run backwards, a request that is accepted and
later is not, or that is past its window, is not accepted from then on. -/
theorem never_accepted_again (tolerance : UInt64) (clock : ℕ → Int64)
    (hclock : ∀ i j, i ≤ j → clock i ≤ clock j) :
    (∀ i j k, i ≤ j → j ≤ k → clock i ∈ acceptedAt C payload header secret tolerance →
      clock j ∉ acceptedAt C payload header secret tolerance →
      clock k ∉ acceptedAt C payload header secret tolerance) ∧
    (∀ j k, j ≤ k → t.toInt + tolerance.toNat < (clock j).toInt →
      clock k ∉ acceptedAt C payload header secret tolerance) := by
  refine ⟨fun i j k hij hjk hi hj hk => hj ?_, fun j k hjk hx hk => ?_⟩
  · have hwi := inWindow_of_mem_acceptedAt C payload hs hp hi
    have hwk := inWindow_of_mem_acceptedAt C payload hs hp hk
    exact mem_acceptedAt_of_inWindow C payload hs hp hi
      (inWindow_convex hwi hwk (hclock i j hij) (hclock j k hjk))
  · exact expired_forever hx (hclock j k hjk) (inWindow_of_mem_acceptedAt C payload hs hp hk)

/-- The replay window is exact. The clock values that accept a request are
none or the whole window over the integers, with one event; a clock that does
not run backwards never accepts an expired request again; a larger tolerance
accepts what a smaller one did. Outside the window the answer is the clamped
skew and the tolerance, and no operation on the way there overflows. -/
theorem replay_window_is_exact (tolerance : UInt64) :
    (acceptedAt C payload header secret tolerance = ∅ ∨
      acceptedAt C payload header secret tolerance =
          {now | |now.toInt - t.toInt| ≤ tolerance.toNat} ∧
        ∃ e, ∀ now ∈ acceptedAt C payload header secret tolerance,
          verify C payload header secret now tolerance = .ok e) ∧
    (∀ clock : ℕ → Int64, (∀ i j, i ≤ j → clock i ≤ clock j) →
      (∀ i j k, i ≤ j → j ≤ k → clock i ∈ acceptedAt C payload header secret tolerance →
        clock j ∉ acceptedAt C payload header secret tolerance →
        clock k ∉ acceptedAt C payload header secret tolerance) ∧
      (∀ j k, j ≤ k → (tolerance.toNat : Int) < (clock j).toInt - t.toInt →
        clock k ∉ acceptedAt C payload header secret tolerance)) ∧
    (∀ now tolerance' e, tolerance ≤ tolerance' →
      verify C payload header secret now tolerance = .ok e →
      verify C payload header secret now tolerance' = .ok e) ∧
    (∀ now : Int64, (tolerance.toNat : Int) < |now.toInt - t.toInt| →
      ∃ skewSecs : Int64,
        skewSecs.toInt =
          max Int64.minValue.toInt (min Int64.maxValue.toInt (now.toInt - t.toInt)) ∧
        verify C payload header secret now tolerance =
          .error (.timestampOutOfTolerance skewSecs tolerance)) ∧
    (∀ now : Int64, BitVec.ssubOverflow (I128.ofI64 now) (I128.ofI64 t) = false ∧
      (skew now t).toInt = now.toInt - t.toInt ∧
      ((skew now t).unsignedAbs.toNat : Int) = |now.toInt - t.toInt| ∧
      (U128.ofU64 tolerance).toNat = tolerance.toNat) := by
  have window : ∀ now : Int64,
      InWindow now t tolerance ↔ |now.toInt - t.toInt| ≤ (tolerance.toNat : Int) := fun now => by
    unfold InWindow
    rw [Int.abs_eq_natAbs, Int.ofNat_le]
  refine ⟨?_, fun clock hclock => ⟨(never_accepted_again C payload hs hp tolerance clock hclock).1,
    fun j k hjk hx => ?_⟩, fun now tolerance' e ht h => verify_mono_tolerance C payload hs hp ht h,
    fun now hx => ⟨clampedSkew now t, toInt_clampedSkew, ?_⟩, fun now =>
    ⟨ssubOverflow_ofI64 now t, toInt_skew now t, ?_, toNat_ofU64 tolerance⟩⟩
  · simpa only [window] using acceptedAt_eq C payload hs hp tolerance
  · exact (never_accepted_again C payload hs hp tolerance clock hclock).2 j k hjk (by omega)
  · rw [verify_of_parsed hs hp, if_neg (mt (window now).mp (by omega))]
  · rw [toNat_unsignedAbs, toInt_skew, Int.abs_eq_natAbs]

end

open Recorded in
/-- The recorded delivery is accepted from 300 seconds before its timestamp to
300 seconds after it. -/
theorem recorded_replay_window :
    acceptedAt recorded stripeBody stripeHeader secret 300 =
      {now | |now.toInt - 1680000000| ≤ 300} := by
  have hp : parseSignatureHeader stripeHeader = .ok (1680000000, [stripeHeader.drop 16]) := by
    decide +kernel
  have h := (replay_window_is_exact recorded stripeBody (by decide : secret ≠ []) hp 300).1
  have ok : (1680000000 : Int64) ∈ acceptedAt recorded stripeBody stripeHeader secret 300 :=
    ⟨stripeEvent, by decide +kernel⟩
  rcases h with h | ⟨h, -⟩
  · rw [h] at ok
    exact absurd ok (Set.notMem_empty _)
  · exact h

end Fiducia.Stripe
