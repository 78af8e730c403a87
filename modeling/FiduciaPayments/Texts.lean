import FiduciaPayments.Stripe.Binding

/-!
# Texts

The texts of `provider.rs` and `error.rs`. A provider is read from its name in
either case and with whitespace around it, and from nothing else
(`fromStr_iff`). The text of a rejection tells which one it is, with all that it
carries (`display_injective`).
-/

namespace Fiducia

open Lib.Text

/-- `Provider::as_str` -/
def Provider.asStr : Provider → Str
  | .stripe => "stripe".toList
  | .paypal => "paypal".toList

/-- `Display for Provider` -/
def Provider.display (provider : Provider) : Str := provider.asStr

structure UnknownProvider where
  name : Str
  deriving DecidableEq

/-- `FromStr for Provider` -/
def Provider.fromStr (s : Str) : Except UnknownProvider Provider :=
  if toAsciiLowercase (trim s) = "stripe".toList then .ok .stripe
  else if toAsciiLowercase (trim s) = "paypal".toList then .ok .paypal
  else .error ⟨s⟩

def u64ToString (n : UInt64) : Str := Lib.Decimal.render n.toNat

/-- `Display for VerifyError` -/
def VerifyError.display : VerifyError → Str
  | .missingSignature => "missing signature header".toList
  | .malformedSignature => "malformed signature header".toList
  | .timestampOutOfTolerance skewSecs toleranceSecs =>
    "timestamp outside tolerance (".toList ++ Stripe.i64ToString skewSecs ++ "s > ".toList ++
      u64ToString toleranceSecs ++ "s)".toList
  | .signatureMismatch => "signature mismatch".toList
  | .invalidInput message => "verification input invalid: ".toList ++ message
  | .malformedEvent message => "event body malformed: ".toList ++ message

/-! ## Providers -/

/-- The text is the name of the provider in either case, with whitespace around
it. -/
def Names (s : Str) (provider : Provider) : Prop :=
  ∃ pre name post, s = pre ++ name ++ post ∧ (∀ c ∈ pre, isWhitespace c = true) ∧
    (∀ c ∈ post, isWhitespace c = true) ∧ toAsciiLowercase name = provider.asStr

section
variable {s : Str} {p : Provider}

theorem not_isWhitespace_of_mem_asStr : ∀ c ∈ p.asStr, isWhitespace c = false := by
  have hall : p.asStr.all (fun c => !isWhitespace c) = true := by
    cases p <;> rfl
  simpa using List.all_eq_true.mp hall

theorem names_iff : Names s p ↔ toAsciiLowercase (trim s) = p.asStr := by
  constructor
  · intro ⟨pre, name, post, hs, hpre, hpost, hname⟩
    have hplain : ∀ c ∈ name, ¬ isWhitespace c = true := by
      intro c hc hw
      have hmem : c ∈ p.asStr := by
        rw [← hname, ← toLower_of_isWhitespace hw]
        exact List.mem_map_of_mem hc
      exact absurd (not_isWhitespace_of_mem_asStr c hmem) (by simp [hw])
    rw [hs, trim, trimBy_padded hpre hplain hpost, hname]
  · intro h
    obtain ⟨pre, post, hs, hpre, hpost⟩ := exists_padding (p := isWhitespace) s
    exact ⟨pre, trim s, post, hs, hpre, hpost, h⟩

theorem asStr_injective : Function.Injective Provider.asStr := by
  intro p q h
  cases p <;> cases q <;> first | rfl | exact absurd h (by decide)

end

theorem fromStr_eq (s : Str) : Provider.fromStr s =
    if toAsciiLowercase (trim s) = Provider.stripe.asStr then .ok .stripe
    else if toAsciiLowercase (trim s) = Provider.paypal.asStr then .ok .paypal
    else .error ⟨s⟩ := rfl

/-- A text is read as a provider exactly if it names it; every other text is
refused, and comes back in the error. -/
theorem fromStr_iff (s : Str) :
    (∀ p, Provider.fromStr s = .ok p ↔ Names s p) ∧
      ∀ e, Provider.fromStr s = .error e ↔ e = ⟨s⟩ ∧ ∀ p, ¬ Names s p := by
  simp only [names_iff, fromStr_eq]
  by_cases hstripe : toAsciiLowercase (trim s) = Provider.stripe.asStr
  · rw [if_pos hstripe]
    refine ⟨fun p => ?_, fun e => iff_of_false nofun fun h => h.2 .stripe hstripe⟩
    rw [hstripe, asStr_injective.eq_iff, Except.ok.injEq]
  · by_cases hpaypal : toAsciiLowercase (trim s) = Provider.paypal.asStr
    · rw [if_neg hstripe, if_pos hpaypal]
      refine ⟨fun p => ?_, fun e => iff_of_false nofun fun h => h.2 .paypal hpaypal⟩
      rw [hpaypal, asStr_injective.eq_iff, Except.ok.injEq]
    · have hnone : ∀ p : Provider, ¬ toAsciiLowercase (trim s) = p.asStr := fun p => by
        cases p with
        | stripe => exact hstripe
        | paypal => exact hpaypal
      rw [if_neg hstripe, if_neg hpaypal]
      refine ⟨fun p => iff_of_false nofun (hnone p), fun e => ?_⟩
      rw [Except.error.injEq, eq_comm, and_iff_left hnone]

theorem fromStr_display (p : Provider) : Provider.fromStr p.display = .ok p := by
  cases p <;> decide

/-! ## Rejections -/

/-- The first two letters of a text. -/
def VerifyError.initials : VerifyError → Str
  | .missingSignature => ['m', 'i']
  | .malformedSignature => ['m', 'a']
  | .timestampOutOfTolerance .. => ['t', 'i']
  | .signatureMismatch => ['s', 'i']
  | .invalidInput _ => ['v', 'e']
  | .malformedEvent _ => ['e', 'v']

theorem take_display (e : VerifyError) : e.display.take 2 = e.initials := by
  cases e <;> rfl

theorem u64ToString_injective : Function.Injective u64ToString := fun _ _ h =>
  UInt64.toNat_inj.mp (Int.ofNat_inj.mp (Lib.Decimal.render_injective h))

theorem s_notMem_i64ToString (n : Int64) : 's' ∉ Stripe.i64ToString n := by
  intro h
  rcases Lib.Decimal.isDigit_or_minus_of_mem_render h with hd | hm
  · exact absurd hd (by decide)
  · exact absurd hm (by decide)

theorem display_timestamp (skew : Int64) (tolerance : UInt64) :
    (VerifyError.timestampOutOfTolerance skew tolerance).display =
      "timestamp outside tolerance (".toList ++
        (Stripe.i64ToString skew ++ 's' ::
          (" > ".toList ++ (u64ToString tolerance ++ "s)".toList))) := by
  have hs : "s > ".toList = 's' :: " > ".toList := by decide
  show "timestamp outside tolerance (".toList ++ Stripe.i64ToString skew ++ "s > ".toList ++
    u64ToString tolerance ++ "s)".toList = _
  rw [hs]
  simp only [List.append_assoc, List.cons_append]

theorem timestamp_injective {skew skew' : Int64} {tolerance tolerance' : UInt64}
    (h : (VerifyError.timestampOutOfTolerance skew tolerance).display =
      (VerifyError.timestampOutOfTolerance skew' tolerance').display) :
    skew = skew' ∧ tolerance = tolerance' := by
  rw [display_timestamp, display_timestamp, List.append_right_inj] at h
  obtain ⟨hskew, hrest⟩ := append_sep_inj (s_notMem_i64ToString skew)
    (s_notMem_i64ToString skew') h
  rw [List.append_right_inj, List.append_left_inj] at hrest
  exact ⟨Stripe.i64ToString_injective hskew, u64ToString_injective hrest⟩

/-- The text of a rejection tells which it is, and what it carries. -/
theorem display_injective : Function.Injective VerifyError.display := by
  intro e e' h
  have hinitials : e.initials = e'.initials := by rw [← take_display, ← take_display, h]
  cases e <;> cases e' <;> simp only [VerifyError.initials, List.cons.injEq, Char.reduceEq,
    and_false, false_and] at hinitials
  case missingSignature => rfl
  case malformedSignature => rfl
  case signatureMismatch => rfl
  case timestampOutOfTolerance =>
    obtain ⟨rfl, rfl⟩ := timestamp_injective h
    rfl
  case invalidInput => exact congrArg _ (List.append_cancel_left h)
  case malformedEvent => exact congrArg _ (List.append_cancel_left h)

end Fiducia
