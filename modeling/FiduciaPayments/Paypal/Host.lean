import FiduciaPayments.Paypal.Verify

/-!
# The host of a certificate URL

`cert_url_is_paypal` looks at the last characters of the host. That is a test
of its last two labels (`hostIsPaypal_iff`), so the gate is the HTTPS URLs
without credentials whose host is `paypal.com` or below it
(`certUrlIsPaypal_iff`), whatever the rest of the URL is. The usual spoofs are
outside: a longer label (`not_inPaypalZone_of_glued`), more labels
(`not_inPaypalZone_of_more`) and a trailing dot
(`not_inPaypalZone_of_trailing_dot`).
-/

namespace Fiducia.Paypal

open Lib.Text

/-- The host is `paypal.com` or below it: its last two labels, in any case. -/
def InPaypalZone (host : Str) : Prop :=
  ["paypal".toList, "com".toList] <:+ (host.splitOn '.').map toAsciiLowercase

instance (host : Str) : Decidable (InPaypalZone host) :=
  inferInstanceAs (Decidable (_ <:+ _))

/-! ## Labels -/

theorem labels_toAsciiLowercase (host : Str) :
    (toAsciiLowercase host).splitOn '.' = (host.splitOn '.').map toAsciiLowercase :=
  splitOn_map (toLower_eq_iff (by decide)) host

/-- The two comparisons of the host are a test of its last two labels. -/
theorem hostIsPaypal_iff {host : Str} :
    toAsciiLowercase host = "paypal.com".toList ∨ ".paypal.com".toList <:+ toAsciiLowercase host ↔
      InPaypalZone host := by
  have hz : ["paypal".toList, "com".toList] = "paypal.com".toList.splitOn '.' := by decide
  unfold InPaypalZone
  rw [← labels_toAsciiLowercase, hz]
  exact splitOn_suffix_iff.symm

/-- A label that only ends in `paypal`. -/
theorem not_inPaypalZone_of_glued {c : Char} {zone : Str} (front : Str)
    (hz : toAsciiLowercase zone = "paypal.com".toList) (hc : c ≠ '.') :
    ¬ InPaypalZone (front ++ c :: zone) := by
  intro h
  have hl : toAsciiLowercase (front ++ c :: zone) =
      toAsciiLowercase front ++ c.toLower :: "paypal.com".toList := by
    rw [← hz]
    simp [toAsciiLowercase]
  rcases hostIsPaypal_iff.mpr h with he | ⟨pre, he⟩
  · rw [hl] at he
    have := congrArg List.length he
    simp at this
  · rw [hl] at he
    have hcons := (List.append_inj' he rfl).2
    exact hc ((toLower_eq_iff (by decide) c).mp (List.cons.inj hcons).1.symm)

/-- The root label is not `com`. -/
theorem not_inPaypalZone_of_trailing_dot (front : Str) : ¬ InPaypalZone (front ++ ['.']) := by
  intro h
  unfold InPaypalZone at h
  rw [List.splitOn_append_cons_self, List.map_append] at h
  obtain ⟨pre, h⟩ := h
  have := congrArg List.getLast? h
  simp [toAsciiLowercase] at this

/-- Labels after `paypal.com` count in its place. -/
theorem not_inPaypalZone_of_more {zone rest : Str}
    (hz : toAsciiLowercase zone = "paypal.com".toList) (hr : ¬ InPaypalZone rest) :
    ¬ InPaypalZone (zone ++ '.' :: rest) := by
  intro h
  have hzone : (zone.splitOn '.').map toAsciiLowercase = ["paypal".toList, "com".toList] := by
    rw [← labels_toAsciiLowercase, hz]
    decide
  unfold InPaypalZone at h
  rw [List.splitOn_append_cons_self, List.map_append, hzone] at h
  obtain ⟨l, ls, hl⟩ := List.exists_cons_of_ne_nil (List.splitOn_ne_nil '.' rest)
  by_cases hls : ls = []
  · -- One label follows, and `com` is not `paypal`.
    obtain ⟨pre, h⟩ := h
    rw [hl, hls] at h
    have hdrop := congrArg (fun labels => labels.dropLast.getLast?) h
    simp at hdrop
  · refine hr (List.suffix_of_suffix_length_le h (List.suffix_append _ _) ?_)
    have := List.length_pos_iff.mpr hls
    rw [hl, List.length_map, List.length_cons]
    show 2 ≤ ls.length + 1
    omega

/-! ## The gate -/

section
variable {C : Crates} {certUrl : Str}

/-- The gate admits HTTPS, no credentials, and the zone `paypal.com`. -/
theorem certUrlIsPaypal_iff :
    certUrlIsPaypal C certUrl = true ↔
      ∃ url, C.urlParse certUrl = some url ∧ url.scheme = "https".toList ∧
        url.username = [] ∧ url.password = none ∧
        ∃ host, url.hostStr = some host ∧ InPaypalZone host := by
  unfold certUrlIsPaypal
  cases C.urlParse certUrl with
  | none => simp
  | some url =>
    have hgate : (url.scheme ≠ "https".toList ∨ ¬ url.username.isEmpty ∨ url.password.isSome) ↔
        ¬ (url.scheme = "https".toList ∧ url.username = [] ∧ url.password = none) := by
      rw [not_and_or, not_and_or, List.isEmpty_iff, Option.isSome_iff_ne_none]
    simp only [Option.some.injEq, exists_eq_left', hgate, ite_not]
    by_cases h : url.scheme = "https".toList ∧ url.username = [] ∧ url.password = none
    · rw [if_pos h]
      obtain ⟨hs, hu, hp⟩ := h
      simp only [hs, hu, hp, true_and]
      cases url.hostStr with
      | none => simp
      | some host =>
        simp only [Option.some.injEq, exists_eq_left', Bool.or_eq_true, beq_iff_eq,
          List.isSuffixOf_iff_suffix]
        exact hostIsPaypal_iff
    · rw [if_neg h]
      exact ⟨nofun, fun ⟨hs, hu, hp, _⟩ => absurd ⟨hs, hu, hp⟩ h⟩

/-- No host outside the zone is admitted. -/
theorem certUrlIsPaypal_of_host {url : Url} {host : Str} (hp : C.urlParse certUrl = some url)
    (hh : url.hostStr = some host) (hz : ¬ InPaypalZone host) :
    certUrlIsPaypal C certUrl = false := by
  rw [← Bool.not_eq_true, certUrlIsPaypal_iff]
  intro h
  obtain ⟨url', hp', -, -, -, host', hh', hz'⟩ := h
  cases hp.symm.trans hp'
  cases hh.symm.trans hh'
  exact hz hz'

end

/-- The gate admits exactly the HTTPS URLs without credentials whose host is in
the zone `paypal.com`, as a test of labels. A URL with any other host is
refused, and `verify` answers it with an `InvalidInput` whatever else the
request is. Hosts with a label that only ends in `paypal`, with labels after
`paypal.com`, or with a trailing dot are such hosts. -/
theorem certUrl_gate_is_label_zone (C : Crates) :
    (∀ certUrl, certUrlIsPaypal C certUrl = true ↔
      ∃ url, C.urlParse certUrl = some url ∧ url.scheme = "https".toList ∧
        url.username = [] ∧ url.password = none ∧
        ∃ host, url.hostStr = some host ∧ InPaypalZone host) ∧
    (∀ certUrl url host, C.urlParse certUrl = some url → url.hostStr = some host →
      ¬ InPaypalZone host →
      certUrlIsPaypal C certUrl = false ∧
        ∀ (t : Transmission) webhookId rawBody certPem, t.certUrl = certUrl →
          ∃ message, verify C t webhookId rawBody certPem = .error (.invalidInput message)) ∧
    (∀ zone, toAsciiLowercase zone = "paypal.com".toList →
      (∀ front c, c ≠ '.' → ¬ InPaypalZone (front ++ c :: zone)) ∧
      ∀ rest, ¬ InPaypalZone rest → ¬ InPaypalZone (zone ++ '.' :: rest)) ∧
    ∀ front, ¬ InPaypalZone (front ++ ['.']) := by
  refine ⟨fun _ => certUrlIsPaypal_iff, fun certUrl url host hp hh hz => ?_, fun zone hzone =>
    ⟨fun front _ => not_inPaypalZone_of_glued front hzone, fun _ => not_inPaypalZone_of_more hzone⟩,
    not_inPaypalZone_of_trailing_dot⟩
  have hu := certUrlIsPaypal_of_host hp hh hz
  exact ⟨hu, fun t _ _ _ ht => verify_of_refused_url (ht ▸ hu)⟩

end Fiducia.Paypal
