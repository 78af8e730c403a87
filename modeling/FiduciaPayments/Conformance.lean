import FiduciaPayments.Lib.Explore
import FiduciaPayments.Lib.Run
import Mathlib.Data.Fintype.Card
import Mathlib.Data.Fintype.Prod
import Mathlib.Order.Lattice

/-!
# The payment lifecycle model

`conformance/payment_lifecycle_model.rs`: a payment is created, authorized,
captured and refunded, and `main` walks through the states that `next_states`
leads to, with assertions about each state and each step. The repository runs
`main` on its one `next_states`; here `next_states` is any function:

* `main_iff`: `main` ends, and prints its counts exactly when every payment
  lifecycle is as asserted and some payment is refunded;
* `capture_once`: when it does, a payment is captured at most once along any
  run, and exactly once if it ends captured or refunded.
-/

namespace Fiducia.Conformance

open Lib.Explore

inductive Phase where
  | created
  | authorized
  | captured
  | refunded
  deriving DecidableEq

/-- The order of declaration, which is the derived one. -/
instance : LinearOrder Phase :=
  LinearOrder.lift' Phase.ctorIdx fun a b h => by
    cases a <;> cases b <;> first | rfl | exact absurd h (by decide)

instance : Fintype Phase where
  elems := {.created, .authorized, .captured, .refunded}
  complete p := by cases p <;> decide

structure State where
  phase : Phase
  captures : UInt8
  deriving DecidableEq

def State.created : State := { phase := .created, captures := 0 }

def nextStates (state : State) : List State :=
  let next := match state.phase with
    | .created => { phase := .authorized, captures := 0 }
    | .authorized => { phase := .captured, captures := 1 }
    | .captured => { phase := .refunded, captures := 1 }
    | .refunded => state
  [next]

/-- `assert!`, with its message. -/
def assert (b : Bool) (message : String) : Except String Unit :=
  if b then .ok () else .error message

/-- The assertion about a state taken from the queue. -/
def assertState (state : State) : Except String Unit :=
  assert (state.captures ≤ 1) "double capture"

/-- The assertions about a step. -/
def assertStep (state next : State) : Except String Unit := do
  assert (next.phase ≥ state.phase) "payment state regressed"
  assert (next.captures ≥ state.captures) "capture count regressed"
  if next.phase ≥ .captured then
    assert (next.captures == 1) "captured/refunded payment missing capture"

def system (nextStates : State → List State) : System State String :=
  { next := nextStates, assertState, assertStep }

def refunded : State := { phase := .refunded, captures := 1 }

/-- What `main` prints. -/
def report (states transitions : ℕ) : String :=
  "payment lifecycle model: " ++ toString states ++ " states, " ++ toString transitions ++
    " transitions"

/-- `main`, of at most some rounds of its loop. -/
def main (nextStates : State → List State) (rounds : ℕ) : Option (Except String String) :=
  (explore (system nextStates) rounds (start .created)).map fun r => do
    let x ← r
    assert (refunded ∈ x.seen) "refunded state is unreachable"
    return report x.seen.card x.edges

/-! ## Assertions -/

theorem assert_eq_ok_iff {b : Bool} {message : String} :
    assert b message = .ok () ↔ b = true := by
  cases b <;> simp [assert]

theorem assertState_eq_ok_iff {s : State} : assertState s = .ok () ↔ s.captures ≤ 1 := by
  rw [assertState, assert_eq_ok_iff, decide_eq_true_iff]

/-- What the assertions say of a step. -/
structure Forward (s t : State) : Prop where
  phase : s.phase ≤ t.phase
  captures : s.captures ≤ t.captures
  captured : .captured ≤ t.phase → t.captures = 1

theorem assertStep_eq_ok_iff {s t : State} : assertStep s t = .ok () ↔ Forward s t := by
  have bind {x : Except String Unit} {y : Except String Unit} :
      (x >>= fun _ => y) = .ok () ↔ x = .ok () ∧ y = .ok () := by
    cases x with
    | error e => exact iff_of_false nofun fun h => nomatch h.1
    | ok u => exact (and_iff_right rfl).symm
  have hif : (if t.phase ≥ .captured then assert (t.captures == 1)
      "captured/refunded payment missing capture" else pure ()) = .ok () ↔
      (.captured ≤ t.phase → t.captures = 1) := by
    split
    · rename_i h
      rw [assert_eq_ok_iff, beq_iff_eq]
      exact ⟨fun e _ => e, fun e => e h⟩
    · rename_i h
      exact iff_of_true rfl fun e => absurd e h
  rw [assertStep, bind, bind, hif, assert_eq_ok_iff, assert_eq_ok_iff, decide_eq_true_iff,
    decide_eq_true_iff]
  exact ⟨fun ⟨h, h', h''⟩ => ⟨h, h', h''⟩, fun h => ⟨h.phase, h.captures, h.captured⟩⟩

/-! ## `main` -/

theorem injective_fields :
    Function.Injective fun s : State => (s.phase, s.captures.toBitVec.toFin) := by
  intro ⟨p, c⟩ ⟨p', c'⟩ h
  obtain ⟨hp, hc⟩ := Prod.mk.inj h
  exact State.mk.injEq .. ▸ ⟨hp, UInt8.eq_of_toBitVec_eq (BitVec.eq_of_toFin_eq hc)⟩

noncomputable instance : Fintype State := Fintype.ofInjective _ injective_fields

/-- Four phases, and a byte. -/
theorem card_state_le : (Finset.univ : Finset State).card ≤ 1024 := by
  have h := Fintype.card_le_of_injective _ injective_fields
  rw [Fintype.card_prod, Fintype.card_fin] at h
  exact h

section
variable {nextStates : State → List State} {rounds : ℕ}

/-- The states that a lifecycle gets to. -/
def Reachable (nextStates : State → List State) (s : State) : Prop :=
  Reach (system nextStates) .created s

open Classical in
noncomputable def reachable (nextStates : State → List State) : Finset State :=
  Finset.univ.filter (Reachable nextStates)

theorem mem_reachable {s : State} : s ∈ reachable nextStates ↔ Reachable nextStates s := by
  simp [reachable]

/-- Every lifecycle is as asserted. -/
def Sound (nextStates : State → List State) : Prop :=
  ∀ s, Reachable nextStates s → s.captures ≤ 1 ∧ ∀ t ∈ nextStates s, Forward s t

theorem asserted_iff {s : State} : Asserted (system nextStates) s ↔
    s.captures ≤ 1 ∧ ∀ t ∈ nextStates s, Forward s t :=
  and_congr assertState_eq_ok_iff (forall₂_congr fun _ _ => assertStep_eq_ok_iff)

theorem main_eq_ok_iff {out : String} : main nextStates rounds = some (.ok out) ↔
    ∃ x, explore (system nextStates) rounds (start .created) = some (.ok x) ∧
      refunded ∈ x.seen ∧ report x.seen.card x.edges = out := by
  unfold main
  cases explore (system nextStates) rounds (start .created) with
  | none => simp
  | some r =>
    cases r with
    | error e => simp [bind, Except.bind]
    | ok x =>
      simp only [Option.map_some, Option.some.injEq, bind, Except.bind, pure, Except.pure,
        Except.ok.injEq, exists_eq_left']
      by_cases h : refunded ∈ x.seen <;> simp [assert, h]

/-- `main` ends for every `next_states`, and prints its counts, of the states
that can be reached and of the steps out of them, exactly when every lifecycle
is as asserted and the refunded state can be reached. -/
theorem main_iff (hr : 1024 < rounds) :
    (∃ r, main nextStates rounds = some r) ∧
      ∀ out, main nextStates rounds = some (.ok out) ↔
        (Sound nextStates ∧ Reachable nextStates refunded) ∧
          out = report (reachable nextStates).card
            (∑ s ∈ reachable nextStates, (nextStates s).length) := by
  have hU : ∀ s ∈ Finset.univ, ∀ t ∈ (system nextStates).next s, t ∈ Finset.univ :=
    fun _ _ t _ => Finset.mem_univ t
  have hroot := Finset.mem_univ State.created
  have hcard := Nat.lt_of_le_of_lt card_state_le hr
  have hok := explore_ok_iff hroot hU hcard
  constructor
  · obtain ⟨r, h⟩ := explore_isSome hroot hU hcard
    rw [main, h]
    exact ⟨_, rfl⟩
  · intro out
    -- The states seen are the reachable ones.
    have hseen {x : Search State}
        (h : explore (system nextStates) rounds (start .created) = some (.ok x)) :
        x.seen = reachable nextStates ∧
          x.edges = ∑ s ∈ reachable nextStates, (nextStates s).length := by
      obtain ⟨hs, -, he⟩ := seen_of_explore h
      have : x.seen = reachable nextStates :=
        Finset.ext fun s => (hs s).trans mem_reachable.symm
      rw [this] at he
      exact ⟨this, he⟩
    have hsound : Sound nextStates ↔
        ∃ x, explore (system nextStates) rounds (start .created) = some (.ok x) :=
      (forall₂_congr fun _ _ => asserted_iff.symm).trans hok.symm
    rw [main_eq_ok_iff, hsound]
    constructor
    · intro ⟨x, h, hm, hout⟩
      obtain ⟨hs, he⟩ := hseen h
      rw [hs] at hm hout
      rw [he] at hout
      exact ⟨⟨⟨x, h⟩, mem_reachable.mp hm⟩, hout.symm⟩
    · intro ⟨⟨⟨x, h⟩, hm⟩, hout⟩
      obtain ⟨hs, he⟩ := hseen h
      refine ⟨x, h, ?_, ?_⟩
      · rw [hs]
        exact mem_reachable.mpr hm
      · rw [hs, he, hout]

end

/-- Four states, each with one step. -/
theorem main_nextStates :
    main nextStates 1025 = some (.ok "payment lifecycle model: 4 states, 4 transitions") ∧
      (∃ r, main nextStates 1025 = some r) ∧
      ∀ out, main nextStates 1025 = some (.ok out) ↔
        (Sound nextStates ∧ Reachable nextStates refunded) ∧
          out = report (reachable nextStates).card
            (∑ s ∈ reachable nextStates, (nextStates s).length) :=
  ⟨by decide +kernel, main_iff (by decide)⟩

/-! ## Runs -/

/-- A payment goes on to one of the next states. -/
def step (nextStates : State → List State) (state next : State) : Option State :=
  if next ∈ nextStates state then some next else none

/-- The steps of a run that capture the payment. -/
def captureSteps (s : State) : List State → ℕ
  | [] => 0
  | t :: ts => (if s.captures < t.captures then 1 else 0) + captureSteps t ts

/-- Neither the phase nor the number of captures goes back. -/
def NotBefore (s t : State) : Prop := s.phase ≤ t.phase ∧ s.captures ≤ t.captures

theorem NotBefore.trans {s t u : State} (h : NotBefore s t) (h' : NotBefore t u) :
    NotBefore s u :=
  ⟨h.1.trans h'.1, UInt8.le_trans h.2 h'.2⟩

section
variable {nextStates : State → List State} {rounds : ℕ} {out : String} {s s' t : State}

theorem sound_of_main (h : main nextStates rounds = some (.ok out)) : Sound nextStates := by
  obtain ⟨x, hx, -, -⟩ := main_eq_ok_iff.mp h
  obtain ⟨hseen, hall, -⟩ := seen_of_explore hx
  exact fun s hs => asserted_iff.mp (hall s ((hseen s).mpr hs))

theorem run_cons {ts : List State} (h : Lib.Run.run (step nextStates) s (t :: ts) = some s') :
    t ∈ nextStates s ∧ Lib.Run.run (step nextStates) t ts = some s' := by
  obtain ⟨t', ht, h⟩ := Option.bind_eq_some_iff.mp h
  unfold step at ht
  split at ht
  · rename_i hm
    obtain rfl := Option.some.inj ht
    exact ⟨hm, h⟩
  · exact nomatch ht

/-- A step captures the payment at most once. -/
theorem captures_step (hs : Sound nextStates) (hr : Reachable nextStates s)
    (ht : t ∈ nextStates s) :
    (if s.captures < t.captures then 1 else 0) + s.captures.toNat = t.captures.toNat := by
  have hle := UInt8.le_iff_toNat_le.mp ((hs s hr).2 t ht).captures
  have hone : t.captures.toNat ≤ 1 := UInt8.le_iff_toNat_le.mp (hs t (hr.tail ht)).1
  split
  · rename_i h
    have := UInt8.lt_iff_toNat_lt.mp h
    omega
  · rename_i h
    have := mt UInt8.lt_iff_toNat_lt.mpr h
    omega

/-- The counter counts the captures of a run. -/
theorem captures_run (hs : Sound nextStates) : ∀ {run : List State} {s : State},
    Reachable nextStates s → Lib.Run.run (step nextStates) s run = some s' →
    captureSteps s run + s.captures.toNat = s'.captures.toNat
  | [], s, _, h => by
    obtain rfl := Option.some.inj h
    exact Nat.zero_add _
  | t :: ts, s, hr, h => by
    obtain ⟨ht, h⟩ := run_cons h
    have hstep := captures_step hs hr ht
    have hrest := captures_run hs (hr.tail ht) h
    show (if s.captures < t.captures then 1 else 0) + captureSteps t ts + _ = _
    omega

theorem pairwise_run (hs : Sound nextStates) : ∀ {run : List State} {s : State},
    Reachable nextStates s → Lib.Run.run (step nextStates) s run = some s' →
    (s :: run).Pairwise NotBefore
  | [], s, _, _ => List.pairwise_singleton _ s
  | t :: ts, s, hr, h => by
    obtain ⟨ht, h⟩ := run_cons h
    have hrest := pairwise_run hs (hr.tail ht) h
    have hst : NotBefore s t := ⟨((hs s hr).2 t ht).phase, ((hs s hr).2 t ht).captures⟩
    refine List.pairwise_cons.mpr ⟨fun u hu => ?_, hrest⟩
    rcases List.mem_cons.mp hu with rfl | hu
    · exact hst
    · exact hst.trans ((List.pairwise_cons.mp hrest).1 u hu)

/-- The last state of a run is reachable, and came by a step if it is not the first. -/
theorem last_run : ∀ {run : List State} {s : State},
    Reachable nextStates s → Lib.Run.run (step nextStates) s run = some s' →
    s' = s ∨ ∃ r, Reachable nextStates r ∧ s' ∈ nextStates r
  | [], s, _, h => .inl (Option.some.inj h).symm
  | t :: ts, s, hr, h => by
    obtain ⟨ht, h⟩ := run_cons h
    rcases last_run (hr.tail ht) h with rfl | h
    · exact .inr ⟨s, hr, ht⟩
    · exact .inr h

/-- Where `main` prints its counts, no run goes back, and a run captures the
payment at most once, and once if it ends captured or refunded. -/
theorem capture_once (h : main nextStates rounds = some (.ok out)) {run : List State}
    (hrun : Lib.Run.run (step nextStates) .created run = some s) :
    (State.created :: run).Pairwise NotBefore ∧
      captureSteps .created run = s.captures.toNat ∧ captureSteps .created run ≤ 1 ∧
      (.captured ≤ s.phase → captureSteps .created run = 1) := by
  have hs := sound_of_main h
  have hroot : Reachable nextStates .created := .refl
  have hcount : captureSteps .created run = s.captures.toNat := captures_run hs hroot hrun
  have hlast := last_run hroot hrun
  refine ⟨pairwise_run hs hroot hrun, hcount, ?_, fun hc => ?_⟩
  · rw [hcount]
    rcases hlast with rfl | ⟨r, hr, hm⟩
    · decide
    · exact UInt8.le_iff_toNat_le.mp (hs s (hr.tail hm)).1
  · rw [hcount]
    rcases hlast with rfl | ⟨r, hr, hm⟩
    · exact absurd hc (by decide)
    · rw [((hs r hr).2 s hm).captured hc]
      rfl

end

/-- A payment that is refunded was captured once. -/
theorem capture_once_refunded :
    captureSteps .created [⟨.authorized, 0⟩, ⟨.captured, 1⟩, ⟨.refunded, 1⟩] = 1 :=
  (capture_once (by decide +kernel : main nextStates 5 = some (.ok (report 4 4)))
    (by decide : Lib.Run.run (step nextStates) .created
      [⟨.authorized, 0⟩, ⟨.captured, 1⟩, ⟨.refunded, 1⟩] = some refunded)).2.2.2 (by decide)

/-- A `next_states` that captures an authorized payment again is found out. -/
example : main (fun s => match s.phase with
    | .authorized => [{ phase := .captured, captures := 1 }]
    | .captured => [{ phase := .captured, captures := 2 }]
    | _ => nextStates s) 9 = some (.error "captured/refunded payment missing capture") := by
  decide +kernel

end Fiducia.Conformance
