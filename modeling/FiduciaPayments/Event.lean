import FiduciaPayments.Crates
import FiduciaPayments.Lib.Result

/-!
# Events and errors

`provider.rs`, `error.rs` and `event.rs`: what a verifier returns. An event is
read from the body it was verified on; `fromBody_eq_ok_iff` says exactly when
that succeeds and with which event, `fromBody_eq_error` that every failure is
a `MalformedEvent`.
-/

namespace Fiducia

open Lib.Result

/-- A supported payment provider. -/
inductive Provider where
  | stripe
  | paypal
  deriving DecidableEq

/-- Why a webhook failed verification. -/
inductive VerifyError where
  | missingSignature
  | malformedSignature
  | timestampOutOfTolerance (skewSecs : Int64) (toleranceSecs : UInt64)
  | signatureMismatch
  | invalidInput (message : Str)
  | malformedEvent (message : Str)
  deriving DecidableEq

/-- A webhook whose signature verification succeeded. -/
structure VerifiedEvent where
  provider : Provider
  id : Str
  eventType : Str
  /-- The exact verified bytes. -/
  payload : Bytes
  deriving DecidableEq

/-- The top-level member `type`, or `event_type` when there is none. -/
def Value.eventName (value : Value) : Option Value :=
  (value.get "type".toList).or (value.get "event_type".toList)

/-- `VerifiedEvent::from_body`: the event of a verified body. -/
def VerifiedEvent.fromBody (C : Crates) (provider : Provider) (payload : Bytes) :
    Except VerifyError VerifiedEvent := do
  let value ← (C.fromSlice payload).mapError fun e =>
    .malformedEvent ("not JSON: ".toList ++ e)
  let id ← okOr ((value.get "id".toList).bind Value.asStr)
    (.malformedEvent "missing string `id`".toList)
  -- PayPal uses `event_type`; Stripe uses `type`. Accept either.
  let eventType ← okOr (value.eventName.bind Value.asStr)
    (.malformedEvent "missing string `type`".toList)
  return { provider, id, eventType, payload }

/-- An object whose member `key` is the string `s`. -/
def Value.HasString (value : Value) (key : String) (s : Str) : Prop :=
  ∃ members, value = .object members ∧ members.lookup key.toList = some (.string s)

namespace Value

variable {value : Value} {s : Str}

theorem get_asStr_eq_some_iff {key : String} :
    (value.get key.toList).bind asStr = some s ↔ value.HasString key s := by
  refine ⟨fun h => ?_, fun ⟨members, hv, hs⟩ => by simp [hv, get, hs, asStr]⟩
  obtain ⟨w, hw, hs⟩ := Option.bind_eq_some_iff.mp h
  unfold get at hw
  split at hw
  · rename_i members
    unfold asStr at hs
    split at hs <;> simp at hs
    exact ⟨members, rfl, hs ▸ hw⟩
  · simp at hw

theorem hasString_iff_get {key : String} :
    value.HasString key s ↔ value.get key.toList = some (.string s) := by
  refine ⟨fun ⟨members, hv, hs⟩ => by rw [hv]; exact hs, fun h => ?_⟩
  rw [← get_asStr_eq_some_iff, h]
  rfl

/-- The name is the string `type`, or `event_type` where there is no `type`. -/
theorem eventName_asStr_eq_some_iff :
    value.eventName.bind asStr = some s ↔
      value.HasString "type" s ∨ value.get "type".toList = none ∧ value.HasString "event_type" s := by
  rw [← get_asStr_eq_some_iff, ← get_asStr_eq_some_iff, eventName]
  cases value.get "type".toList with
  | none => simp only [Option.none_or, Option.bind_none, reduceCtorEq, false_or, true_and]
  | some w => simp only [Option.some_or, reduceCtorEq, false_and, or_false]

end Value

namespace VerifiedEvent

variable {C : Crates} {p : Provider} {payload : Bytes} {e : VerifiedEvent}

/-- A body gives an event exactly when it is JSON with a string `id` and a
string event name; the event has these, the provider and the body. -/
theorem fromBody_eq_ok_iff :
    fromBody C p payload = .ok e ↔
      ∃ value, C.fromSlice payload = .ok value ∧
        (value.get "id".toList).bind Value.asStr = some e.id ∧
        value.eventName.bind Value.asStr = some e.eventType ∧
        e.provider = p ∧ e.payload = payload := by
  simp only [fromBody, bind_eq_ok_iff, mapError_eq_ok_iff, okOr_eq_ok_iff, pure, Except.pure,
    Except.ok.injEq]
  refine ⟨fun ⟨v, hv, id, hid, ty, hty, he⟩ => ?_, fun ⟨v, hv, hid, hty, hp, hb⟩ => ?_⟩
  · subst he
    exact ⟨v, hv, hid, hty, rfl, rfl⟩
  · subst hp hb
    exact ⟨v, hv, e.id, hid, e.eventType, hty, rfl⟩

/-- Every failure is a `MalformedEvent`. -/
theorem fromBody_eq_error {err : VerifyError} (h : fromBody C p payload = .error err) :
    ∃ message, err = .malformedEvent message := by
  simp only [fromBody, bind_eq_error_iff, mapError_eq_error_iff, okOr_eq_error_iff] at h
  rcases h with ⟨e, -, rfl⟩ | ⟨v, -, ⟨-, rfl⟩ | ⟨id, -, ⟨-, rfl⟩ | ⟨ty, -, h⟩⟩⟩
  · exact ⟨_, rfl⟩
  · exact ⟨_, rfl⟩
  · exact ⟨_, rfl⟩
  · cases h

/-- The event of a body that is JSON. -/
theorem fromBody_of_json {value : Value} (hv : C.fromSlice payload = .ok value) :
    (∀ e, fromBody C p payload = .ok e ↔
      e.provider = p ∧ e.payload = payload ∧ value.HasString "id" e.id ∧
        (value.HasString "type" e.eventType ∨
          value.get "type".toList = none ∧ value.HasString "event_type" e.eventType)) ∧
      ((¬ ∃ e, fromBody C p payload = .ok e) →
        ∃ message, fromBody C p payload = .error (.malformedEvent message)) := by
  refine ⟨fun e => ?_, fun h => ?_⟩
  · simp only [fromBody_eq_ok_iff, hv, Except.ok.injEq, exists_eq_left',
      Value.get_asStr_eq_some_iff, Value.eventName_asStr_eq_some_iff]
    exact ⟨fun ⟨hid, hty, hp, hb⟩ => ⟨hp, hb, hid, hty⟩,
      fun ⟨hp, hb, hid, hty⟩ => ⟨hid, hty, hp, hb⟩⟩
  · obtain ⟨err, he⟩ := not_exists_ok_iff.mp h
    obtain ⟨message, rfl⟩ := fromBody_eq_error he
    exact ⟨message, he⟩

end VerifiedEvent

/-- The event of the recorded Stripe delivery. -/
def Recorded.stripeEvent : VerifiedEvent :=
  { provider := .stripe, id := "evt_123".toList, eventType := "invoice.paid".toList,
    payload := stripeBody }

end Fiducia
