import FiduciaPayments.Dotenv.Check
import FiduciaPayments.Dotenv.History

/-!
# What `env-check` sees of a history

A ciphertext that does not decrypt for any key after a history is empty: it is
what the shell made for a sops that then failed (`empty_of_damaged`). `env-check`
looks for what sops writes in every file, so it finds these without a key
(`damage_is_noted`).
-/

namespace Fiducia.Dotenv.Check

open Lib.Grep Lib.Shell
open Lib.Run (Along)
open Store (Action Calls Change Files Intact IsSample Name Text Truncates after change isVisible
  noFiles prod sample)

variable {D : Calls → Prop} {plain canon : Text → Option Text}

/-- Every ciphertext decrypts or is empty. -/
def EmptyOrIntact (plain : Text → Option Text) (s : Files) : Prop :=
  ∀ n c, s.enc n = some c → (plain c).isSome ∨ c = []

theorem emptyOrIntact_setEnc {s : Files} {n : Name} {file : Text} (hs : EmptyOrIntact plain s)
    (hf : (plain file).isSome ∨ file = []) : EmptyOrIntact plain (s.setEnc n file) := by
  intro m c hm
  by_cases hmn : m = n
  · subst hmn
    rw [Store.setEnc_enc_self, Option.some.injEq] at hm
    rwa [← hm]
  · rw [Store.setEnc_enc_of_ne hmn] at hm
    exact hs m c hm

theorem emptyOrIntact_change {calls : Calls} {r : Store.Recipe} {n : Name} {s s' : Files}
    {ok : Bool} (hedit : calls.Edits plain canon) (hrekey : calls.Rekeys plain)
    (henc : calls.Encrypts plain canon) (h : Change calls r n s s' ok)
    (hs : EmptyOrIntact plain s) : EmptyOrIntact plain s' := by
  cases h with
  | edited _ he => exact emptyOrIntact_setEnc hs (.inl (hedit.isSome_of_changed he))
  | rekeyed _ hn hu =>
    refine emptyOrIntact_setEnc hs (.inl ?_)
    rw [hrekey.updatekeys hu]
    refine (hs n _ hn).resolve_right ?_
    rintro rfl
    rw [hrekey.updatekeys_nil] at hu
    exact nomatch hu
  | @encrypted t _ _ =>
    refine emptyOrIntact_setEnc hs ?_
    rcases hok : (calls.encrypt t).ok with _ | _
    · exact .inr (henc.encrypt_failed hok)
    · obtain ⟨p, -, hp⟩ := henc.encrypt hok
      exact .inl (by rw [hp]; rfl)
  | _ => exact hs

section
variable (hedit : ∀ calls, D calls → calls.Edits plain canon)
  (hrekey : ∀ calls, D calls → calls.Rekeys plain)
  (henc : ∀ calls, D calls → calls.Encrypts plain canon)
include hedit hrekey henc

theorem emptyOrIntact_step {s s' : Files} {a : Action D} (hs : EmptyOrIntact plain s)
    (h : Store.step s a = some s') : EmptyOrIntact plain s' := by
  obtain rfl := Option.some.inj h
  cases a with
  | round r n sops =>
    exact emptyOrIntact_change (hedit _ sops.documented) (hrekey _ sops.documented)
      (henc _ sops.documented) (change r n sops s) hs
  | save => exact hs
  | discard => exact hs
  | clean => exact hs

theorem empty_of_damaged {s s' : Files} (hs : Intact plain s) {as : List (Action D)}
    (h : after s as = some s') {n : Name} {c : Text} (hn : s'.enc n = some c)
    (hc : plain c = none) : c = [] := by
  have hfirst : EmptyOrIntact plain s := fun n c hc => .inl (hs n c hc)
  have hlast : EmptyOrIntact plain s' :=
    Lib.Run.run_invariant (fun hs h => emptyOrIntact_step hedit hrekey henc hs h) hfirst h
  refine (hlast n c hn).resolve_left fun hsome => ?_
  rw [hc] at hsome
  exact nomatch hsome

/-- The files that `env/enc/*.env.enc` finds, with their lines; the host may hold
the keys of any of them. -/
structure Reads (w : World) (s : Files) : Prop where
  of_mem : ∀ f ∈ w.files, isVisible f.name = true ∧ ∃ c, s.enc f.name = some c ∧
    f.lines = lines c
  mem : ∀ n, isVisible n = true → s.enc n ≠ none → ∃ f ∈ w.files, f.name = n

/-- With or without a key, `env-check` notes that a file is not encrypted exactly
if it does not decrypt for a holder of its key. So it notes none exactly if no
round, since all files decrypted, failed and left one; but for names that `*`
does not match. -/
theorem damage_is_noted (hnil : plain [] = none)
    (hseal : ∀ c, (plain c).isSome → ∃ l ∈ lines c, ascii "ENC[AES256_GCM" <:+: l)
    {s s' : Files} (hs : Intact plain s) {as : List (Action D)} (h : after s as = some s')
    {w : World} (hw : Reads w s') :
    (∀ n, Fault w (.notEncrypted n) ↔
      isVisible n = true ∧ ∃ c, s'.enc n = some c ∧ plain c = none) ∧
    ((∀ n, s'.enc n ≠ none → isVisible n = true) →
      ((∀ n, ¬ Fault w (.notEncrypted n)) ↔
        Along Store.step (fun s a => ¬ Truncates s a) s as)) := by
  have hnoted (n : Name) : Fault w (.notEncrypted n) ↔
      isVisible n = true ∧ ∃ c, s'.enc n = some c ∧ plain c = none := by
    constructor
    · intro hf
      cases hf with
      | @notEncrypted f hf hnone =>
        obtain ⟨hv, c, hc, hlines⟩ := hw.of_mem f hf
        refine ⟨hv, c, hc, Option.not_isSome_iff_eq_none.mp fun hsome => ?_⟩
        obtain ⟨l, hl, henc⟩ := hseal c hsome
        exact hnone l (hlines ▸ hl) henc
    · intro ⟨hv, c, hc, hp⟩
      obtain rfl := empty_of_damaged hedit hrekey henc hs h hc hp
      obtain ⟨f, hf, rfl⟩ := hw.mem n hv (by rw [hc]; exact Option.some_ne_none _)
      obtain ⟨-, c, hc', hlines⟩ := hw.of_mem f hf
      rw [hc, Option.some.injEq] at hc'
      rw [← hc'] at hlines
      exact .notEncrypted hf fun l hl => nomatch hlines ▸ hl
  refine ⟨hnoted, fun hv => ?_⟩
  rw [← Lib.Run.throughout_iff_along (Store.intact_step hedit hrekey hnil henc) hs,
    Store.throughout_intact_iff hedit hrekey h]
  simp only [hnoted, not_and, not_exists]
  constructor
  · intro hnone n c hc
    have hne : s'.enc n ≠ none := by
      rw [hc]
      exact Option.some_ne_none c
    exact Option.ne_none_iff_isSome.mp (hnone n (hv n hne) c hc)
  · intro hi n _ c hc
    exact Option.ne_none_iff_isSome.mpr (hi n c hc)

end

/-! ## A failed `env-new` -/

theorem sample_sealed (c : Text) (h : (Store.samplePlain c).isSome) :
    ∃ l ∈ lines c, ascii "ENC[AES256_GCM" <:+: l := by
  unfold Store.samplePlain at h
  split at h
  · rename_i hc
    obtain ⟨t, rfl⟩ := List.isPrefixOf_iff_prefix.mp hc
    have hrow : Store.header = ascii "sops_mac=ENC[AES256_GCM]" ++ [newline] := by decide
    rw [hrow, List.append_assoc, List.singleton_append]
    have henc : ascii "ENC[AES256_GCM" <:+: ascii "sops_mac=ENC[AES256_GCM]" :=
      ⟨ascii "sops_mac=", ascii "]", by decide⟩
    exact ⟨_, mem_lines_append (by decide) t, henc⟩
  · exact nomatch h

/-- A checkout after an `env-new` that failed, on a host without a key. -/
def failedNew : World where
  tracked := nothingListed
  staged := nothingListed
  checkIgnore _ := { out := [], ok := false }
  gitignore := some rules
  files := [{ name := prod, lines := [], decrypts := false }]
  sopsAgeKeyFile := none
  xdgConfigHome := none
  home := some (ascii "/root")
  sopsAgeKey := none
  isFile _ := false

theorem reads_failedNew : Reads failedNew (noFiles.setEnc prod []) where
  of_mem f hf := by
    obtain rfl := List.mem_singleton.mp hf
    exact ⟨by decide, [], Store.setEnc_enc_self, rfl⟩
  mem n _ hn := by
    by_cases h : n = prod
    · exact ⟨_, List.mem_singleton_self _, h.symm⟩
    · rw [Store.setEnc_enc_of_ne h] at hn
      exact absurd rfl hn

theorem damage_is_noted_new : Fault failedNew (.notEncrypted prod) :=
  ((damage_is_noted IsSample.edits IsSample.rekeys IsSample.encrypts Store.samplePlain_nil
    sample_sealed Store.intact_noFiles
    (rfl : after noFiles ([.round .envNew prod (sample false)] : List Store.SampleAction) = some _)
    reads_failedNew).1 prod).mpr ⟨by decide, [], Store.setEnc_enc_self, by decide⟩

end Fiducia.Dotenv.Check
