import FiduciaPayments.Lib.Run
import FiduciaPayments.Paypal.Verify
import FiduciaPayments.Stripe.Verify

/-!
# Clients of the crate

What code outside the crate can do with `VerifiedEvent`s: call the verifiers,
clone and drop events, and whatever the declaration of the struct allows, which
is to build one from its fields and to assign its fields, all four being `pub`.
A client is a list of such operations.

An event is genuine when a call of its provider's verifier returned it. Calls,
clones and drops keep the held events genuine (`genuine_step_iff`); a struct
literal or an assignment does when what it writes had been returned before
(`Honest`), and the crate checks nothing of the kind.
-/

namespace Fiducia.Client

open Lib.Run

/-! ## The declaration -/

inductive Field where
  | provider
  | id
  | eventType
  | payload
  deriving DecidableEq

inductive Visibility where
  | pub
  | pubCrate
  | inherited
  deriving DecidableEq

/-- The visibility of the fields of `VerifiedEvent`. -/
def fieldVisibility : Field → Visibility
  | .provider => .pub
  | .id => .pub
  | .eventType => .pub
  | .payload => .pub

/-- Whether `VerifiedEvent` is `#[non_exhaustive]`. -/
def nonExhaustive : Bool := false

/-- Code outside the crate may read and assign the field. -/
def assignable (f : Field) : Bool := fieldVisibility f = .pub

/-- Code outside the crate may write a struct literal. -/
def constructible : Bool :=
  !nonExhaustive && [Field.provider, .id, .eventType, .payload].all assignable

/-! ## Operations -/

/-- A new value for one field. -/
inductive Assignment where
  | provider (value : Provider)
  | id (value : Str)
  | eventType (value : Str)
  | payload (value : Bytes)

def Assignment.field : Assignment → Field
  | .provider _ => .provider
  | .id _ => .id
  | .eventType _ => .eventType
  | .payload _ => .payload

def Assignment.assign (e : VerifiedEvent) : Assignment → VerifiedEvent
  | .provider value => { e with provider := value }
  | .id value => { e with id := value }
  | .eventType value => { e with eventType := value }
  | .payload value => { e with payload := value }

/-- An operation of a client; `i` is the position of a held event. -/
inductive Op where
  | stripeVerify (payload : Bytes) (sigHeader secret : Str) (nowUnix : Int64)
    (toleranceSecs : UInt64)
  | paypalVerify (t : Paypal.Transmission) (webhookId : Str) (rawBody : Bytes) (certPem : Str)
  | clone (i : Nat)
  | drop (i : Nat)
  | literal (provider : Provider) (id eventType : Str) (payload : Bytes)
  | assign (i : Nat) (a : Assignment)

/-- The events a client holds, and those the verifiers have returned. -/
structure State where
  held : List VerifiedEvent
  returned : List (Provider × VerifiedEvent)

/-- A client before its first operation. -/
def State.empty : State := { held := [], returned := [] }

/-- A call of `provider`'s verifier with this result. -/
def State.call (s : State) (provider : Provider) :
    Except VerifyError VerifiedEvent → State
  | .ok e => { held := e :: s.held, returned := (provider, e) :: s.returned }
  | .error _ => s

/-- One operation, where the language allows it. -/
def step (C : Crates) (s : State) : Op → Option State
  | .stripeVerify payload sigHeader secret nowUnix toleranceSecs =>
    some (s.call .stripe (Stripe.verify C payload sigHeader secret nowUnix toleranceSecs))
  | .paypalVerify t webhookId rawBody certPem =>
    some (s.call .paypal (Paypal.verify C t webhookId rawBody certPem))
  | .clone i => s.held[i]?.map fun e => { s with held := e :: s.held }
  | .drop i => if i < s.held.length then some { s with held := s.held.eraseIdx i } else none
  | .literal provider id eventType payload =>
    if constructible then some { s with held := { provider, id, eventType, payload } :: s.held }
    else none
  | .assign i a =>
    if assignable a.field then
      s.held[i]?.map fun e => { s with held := s.held.set i (a.assign e) }
    else none

/-! ## Genuine events -/

/-- Every held event was returned by its provider's verifier. -/
def Genuine (s : State) : Prop := ∀ e ∈ s.held, (e.provider, e) ∈ s.returned

/-- The event that a struct literal or an assignment writes. -/
def written (s : State) : Op → Option VerifiedEvent
  | .literal provider id eventType payload => some { provider, id, eventType, payload }
  | .assign i a => s.held[i]?.map a.assign
  | _ => none

/-- The operation writes no event, or one that its provider's verifier has
returned. -/
def Honest (s : State) (op : Op) : Prop :=
  ∀ e, written s op = some e → (e.provider, e) ∈ s.returned

theorem genuine_empty : Genuine State.empty := fun _ h => by cases h

theorem genuine_call {s : State} {provider : Provider} {result : Except VerifyError VerifiedEvent}
    (hp : ∀ e, result = .ok e → e.provider = provider) (h : Genuine s) :
    Genuine (s.call provider result) := by
  cases result with
  | error err => exact h
  | ok e =>
    refine List.forall_mem_cons.mpr ⟨?_, fun e' he' => List.mem_cons_of_mem _ (h e' he')⟩
    rw [hp e rfl]
    exact List.mem_cons_self

/-- A step keeps the held events genuine exactly when it is honest. -/
theorem genuine_step_iff {C : Crates} {s s' : State} {op : Op} (h : Genuine s)
    (hs : step C s op = some s') : Genuine s' ↔ Honest s op := by
  cases op with
  | stripeVerify payload sigHeader secret nowUnix toleranceSecs =>
    cases hs
    refine iff_of_true (genuine_call (fun e he => ?_) h) nofun
    obtain ⟨-, t, sigs, -, -, -, -, hb⟩ := Stripe.verify_eq_ok_iff.mp he
    obtain ⟨_, _, _, _, hp, _⟩ := VerifiedEvent.fromBody_eq_ok_iff.mp hb
    exact hp
  | paypalVerify t webhookId rawBody certPem =>
    cases hs
    refine iff_of_true (genuine_call (fun e he => ?_) h) nofun
    obtain ⟨-, signature, publicKey, -, -, -, hb⟩ := Paypal.verify_eq_ok_iff.mp he
    obtain ⟨_, _, _, _, hp, _⟩ := VerifiedEvent.fromBody_eq_ok_iff.mp hb
    exact hp
  | clone i =>
    obtain ⟨e, he, rfl⟩ := Option.map_eq_some_iff.mp hs
    exact iff_of_true (List.forall_mem_cons.mpr ⟨h e (List.mem_of_getElem? he), h⟩) nofun
  | drop i =>
    obtain ⟨-, hs⟩ := Option.ite_none_right_eq_some.mp hs
    cases hs
    exact iff_of_true (fun e he => h e (List.mem_of_mem_eraseIdx he)) nofun
  | literal provider id eventType payload =>
    rw [step] at hs
    obtain ⟨-, hs⟩ := Option.ite_none_right_eq_some.mp hs
    cases hs
    refine ⟨fun hg e he => ?_, fun hh e he => ?_⟩
    · cases he
      exact hg _ List.mem_cons_self
    · rcases List.mem_cons.mp he with rfl | he
      · exact hh _ rfl
      · exact h e he
  | assign i a =>
    rw [step] at hs
    obtain ⟨-, hs⟩ := Option.ite_none_right_eq_some.mp hs
    obtain ⟨e, he, rfl⟩ := Option.map_eq_some_iff.mp hs
    refine ⟨fun hg e' he' => ?_, fun hh e' he' => ?_⟩
    · rw [written, he] at he'
      cases he'
      exact hg _ (List.mem_set (List.getElem?_eq_some_iff.mp he).1 _)
    · rcases List.mem_or_eq_of_mem_set he' with he' | rfl
      · exact h e' he'
      · exact hh _ (by rw [written, he]; rfl)

/-- In every run of a client, every event it holds at any point was returned by
its provider's verifier exactly when every struct literal and every assignment
of the run writes an event that its provider's verifier had returned. -/
theorem held_events_genuine_iff_writes_honest (C : Crates) (ops : List Op) :
    Throughout (step C) Genuine State.empty ops ↔ Along (step C) Honest State.empty ops :=
  throughout_iff_along genuine_step_iff genuine_empty

/-- A client that only calls, clones and drops holds genuine events. -/
theorem genuine_of_no_writes {C : Crates} {ops : List Op} {s : State}
    (hw : ∀ op ∈ ops, ∀ s, written s op = none) (hr : run (step C) State.empty ops = some s) :
    Genuine s := by
  have ha : Along (step C) Honest State.empty ops :=
    along_of_forall fun op hop s e he => by rw [hw op hop s] at he; cases he
  exact ((throughout_iff_along genuine_step_iff genuine_empty).mpr ha).last hr

/-- A client that never called a verifier holds an event. -/
theorem literal_forges_event :
    ∃ s, run (step recorded) State.empty
        [.literal .stripe "evt_forged".toList "invoice.paid".toList []] = some s ∧
      s.returned = [] ∧ ¬ Genuine s := by
  refine ⟨_, rfl, rfl, fun h => ?_⟩
  exact absurd (h _ List.mem_cons_self) List.not_mem_nil

end Fiducia.Client
