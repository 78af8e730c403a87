import FiduciaPayments.Dotenv.Store
import FiduciaPayments.Lib.Run

/-!
# Histories of the environment files

What holds of the files under `env/` after any sequence of rounds of the
recipes, of files saved or removed by hand in `env/dec`, and of `env-clean`,
whichever of the rounds fail:

* `dec_whole`: a plaintext file holds a whole text;
* `intact_iff`: every ciphertext decrypts for a holder of its key, unless a round
  failed while it made a file; `stuck_forever`: no recipe repairs such a file;
* `clean_leaves_nothing_iff`: when `env-clean` leaves nothing in `env/dec`;
* `environments_apart`: environments do not depend on one another.
-/

namespace Fiducia.Dotenv.Store

open Lib.Errexit Lib.Python
open Lib.Run (Along Throughout)

/-- Calls of which something is known. -/
structure Sops (D : Calls → Prop) where
  calls : Calls
  documented : D calls

section
variable {D : Calls → Prop} {errors : Errors} {names : List UInt8 → Option CodePoint}
  {plain canon : Text → Option Text}

/-- What happens under `env/`. -/
inductive Action (D : Calls → Prop) where
  | round (r : Recipe) (n : Name) (sops : Sops D)
  /-- A plaintext file is written by hand, or by a tool. -/
  | save (n : Name) (t : Text)
  | discard (n : Name)
  | clean

/-- The files, and whether a recipe succeeded. -/
def act (s : Files) : Action D → Files × Bool
  | .round r n sops => r.round n sops.calls s
  | .save n t => (s.setDec n t, true)
  | .discard n => ({ s with dec := Function.update s.dec n none }, true)
  | .clean => (envClean s, true)

def step (s : Files) (a : Action D) : Option Files := some (act s a).1

/-- A history. -/
def after (s : Files) (as : List (Action D)) : Option Files := Lib.Run.run step s as

/-- The loop of a recipe is a history of its rounds. -/
theorem after_recipe (r : Recipe) : ∀ (rounds : List (Name × Sops D)) (s : Files),
    ∃ done, done <+: rounds ∧ after s (done.map fun c => .round r c.1 c.2) =
      some (r.run (rounds.map fun c => (c.1, c.2.calls)) s).1
  | [], s => ⟨[], List.nil_prefix, rfl⟩
  | c :: rounds, s => by
    rcases hb : r.round c.1 c.2.calls s with ⟨s₁, _ | _⟩
    · refine ⟨[c], List.prefix_append [c] rounds, ?_⟩
      rw [List.map_cons, List.map_cons, Recipe.run_failed hb]
      show some (r.round c.1 c.2.calls s).1 = some s₁
      rw [hb]
    · obtain ⟨done, hd, hr⟩ := after_recipe r rounds s₁
      refine ⟨c :: done, (List.prefix_cons_inj c).mpr hd, ?_⟩
      rw [List.map_cons, List.map_cons, Recipe.run_ok hb]
      show after (r.round c.1 c.2.calls s).1 _ = _
      rw [hb]
      exact hr

theorem change (r : Recipe) (n : Name) (sops : Sops D) (s : Files) :
    Change sops.calls r n s (act s (.round r n sops)).1 (act s (.round r n sops)).2 :=
  round_change

/-- The calls of `sampleCalls`. -/
def IsSample (calls : Calls) : Prop := ∃ encrypts, calls = sampleCalls encrypts

abbrev SampleAction := Action IsSample

def sample (encrypts : Bool) : Sops IsSample := ⟨sampleCalls encrypts, encrypts, rfl⟩

theorem IsSample.decrypts : ∀ calls, IsSample calls → calls.Decrypts samplePlain
  | _, ⟨encrypts, rfl⟩ => sampleCalls_decrypts encrypts

theorem IsSample.encrypts : ∀ calls, IsSample calls → calls.Encrypts samplePlain some
  | _, ⟨encrypts, rfl⟩ => sampleCalls_encrypts encrypts

theorem IsSample.edits : ∀ calls, IsSample calls → calls.Edits samplePlain some
  | _, ⟨encrypts, rfl⟩ => sampleCalls_edits encrypts

theorem IsSample.rekeys : ∀ calls, IsSample calls → calls.Rekeys samplePlain
  | _, ⟨encrypts, rfl⟩ => sampleCalls_rekeys encrypts

theorem IsSample.renders : ∀ calls, IsSample calls → calls.Renders .strict noNames
  | _, ⟨encrypts, rfl⟩ => sampleCalls_renders .strict noNames encrypts

/-! ## Plaintexts -/

/-- An action that leaves a whole text in a plaintext file. -/
def Writes (errors : Errors) (names : List UInt8 → Option CodePoint)
    (plain : Text → Option Text) (n : Name) (t : Text) (s : Files) : Action D → Prop
  | .round r m _ => r.materialises = true ∧ m = n ∧
      ∃ c p, s.enc n = some c ∧ plain c = some p ∧ Whole errors names p t
  | .save m u => m = n ∧ u = t
  | _ => False

theorem setDec_dec {s : Files} {m n : Name} {t u : Text} (h : (s.setDec m t).dec n = some u) :
    (m = n ∧ t = u) ∨ s.dec n = some u := by
  by_cases hmn : m = n
  · subst hmn
    have : (s.setDec m t).dec m = some t := Function.update_self ..
    rw [this] at h
    exact .inl ⟨rfl, Option.some.inj h⟩
  · have : (s.setDec m t).dec n = s.dec n := Function.update_of_ne (Ne.symm hmn) ..
    rw [this] at h
    exact .inr h

theorem writes_of_dec (hdec : ∀ calls, D calls → calls.Decrypts plain)
    (hdotenv : ∀ calls, D calls → calls.Renders errors names) {n : Name} {t : Text} {s : Files}
    (a : Action D) (h : (act s a).1.dec n = some t) :
    s.dec n = some t ∨ Writes errors names plain n t s a := by
  cases a with
  | round r m sops =>
    have hc := change r m sops s
    generalize act s (.round r m sops) = res at h hc
    obtain ⟨s', ok⟩ := res
    cases hc with
    | refused => exact .inl h
    | unchanged => exact .inl h
    | edited => exact .inl h
    | rekeyed => exact .inl h
    | encrypted => exact .inl h
    | stranded => exact .inl h
    | decrypted hr hc hok =>
      rcases setDec_dec h with ⟨rfl, rfl⟩ | h
      · have hp := (hdec _ sops.documented).out_eq hok
        exact .inr ⟨hr, rfl, _, _, hc, hp, .inl rfl⟩
      · exact .inl h
    | rendered hr hc hok hpy =>
      rcases setDec_dec h with ⟨rfl, rfl⟩ | h
      · have hp := (hdec _ sops.documented).out_eq hok
        exact .inr ⟨hr, rfl, _, _, hc, hp, (hdotenv _ sops.documented).whole hpy⟩
      · exact .inl h
  | save m u => exact (setDec_dec h).symm
  | discard m =>
    left
    by_cases hmn : n = m
    · subst hmn
      rw [show (act s (.discard n : Action D)).1.dec n = none from
        Function.update_self ..] at h
      exact nomatch h
    · rwa [show (act s (.discard m : Action D)).1.dec n = s.dec n from
        Function.update_of_ne hmn ..] at h
  | clean =>
    left
    have h : (if isVisible n then none else s.dec n) = some t := h
    split at h
    · exact nomatch h
    · exact h

/-- A plaintext file holds what it held at first, what someone saved, or the
whole of a plaintext or of its env-file: never what a call that failed had
printed. -/
theorem dec_whole (hdec : ∀ calls, D calls → calls.Decrypts plain)
    (hdotenv : ∀ calls, D calls → calls.Renders errors names) {n : Name} {t : Text} :
    ∀ {as : List (Action D)} {s s' : Files}, after s as = some s' →
      s'.dec n = some t → s.dec n = some t ∨ ∃ before a rest s₁, as = before ++ a :: rest ∧
        after s before = some s₁ ∧ Writes errors names plain n t s₁ a
  | [], s, s', h, ht => by
    obtain rfl := Option.some.inj h
    exact .inl ht
  | a :: as, s, s', h, ht => by
    have h : after (act s a).1 as = some s' := h
    rcases dec_whole hdec hdotenv h ht with h₁ | ⟨before, b, rest, s₁, rfl, hb, hw⟩
    · rcases writes_of_dec hdec hdotenv a h₁ with h₁ | hw
      · exact .inl h₁
      · exact .inr ⟨[], a, as, s, rfl, rfl, hw⟩
    · exact .inr ⟨a :: before, b, rest, s₁, rfl, hb, hw⟩

/-- Saved, encrypted, wiped and decrypted. -/
def saved : List SampleAction :=
  [.save prod line, .round .envEncrypt prod (sample true), .clean,
    .round .envDecrypt prod (sample true)]

theorem dec_whole_saved : ∃ s' : Files, after noFiles saved = some s' ∧
    (noFiles.dec prod = some line ∨ ∃ before a rest s₁, saved = before ++ a :: rest ∧
      after noFiles before = some s₁ ∧
        Writes .strict noNames samplePlain prod line s₁ a) :=
  ⟨_, rfl, dec_whole IsSample.decrypts IsSample.renders rfl (by decide)⟩

/-! ## Ciphertexts -/

/-- Every ciphertext decrypts for a holder of its key. -/
def Intact (plain : Text → Option Text) (s : Files) : Prop :=
  ∀ n c, s.enc n = some c → (plain c).isSome

/-- A round that fails, and leaves a file where there was none. -/
def Truncates (s : Files) : Action D → Prop
  | .round r n sops => s.enc n = none ∧ (r.round n sops.calls s).2 = false ∧
      (r.round n sops.calls s).1.enc n ≠ none
  | _ => False

section
variable {calls : Calls} {r : Recipe} {m n : Name} {s s' : Files} {c t file : Text} {ok : Bool}

theorem setEnc_enc_self : (s.setEnc n t).enc n = some t := Function.update_self ..

theorem setEnc_enc_of_ne (h : m ≠ n) : (s.setEnc n t).enc m = s.enc m :=
  Function.update_of_ne h ..

/-- A round leaves the ciphertexts of the other environments alone. -/
theorem Change.enc_of_ne (h : Change calls r n s s' ok) (hmn : m ≠ n) : s'.enc m = s.enc m := by
  cases h with
  | edited => exact setEnc_enc_of_ne hmn
  | rekeyed => exact setEnc_enc_of_ne hmn
  | encrypted => exact setEnc_enc_of_ne hmn
  | _ => rfl

theorem intact_setEnc (hs : Intact plain s) (hf : (plain file).isSome) :
    Intact plain (s.setEnc n file) := by
  intro m c hm
  by_cases hmn : m = n
  · subst hmn
    rw [setEnc_enc_self, Option.some.injEq] at hm
    rwa [← hm]
  · rw [setEnc_enc_of_ne hmn] at hm
    exact hs m c hm

theorem Calls.Edits.isSome_of_changed (h : calls.Edits plain canon) {c : Option Text}
    (he : calls.edit c t = .changed file) : (plain file).isSome := by
  obtain ⟨p, -, hp⟩ := h.changed he
  rw [hp]
  rfl

/-- A ciphertext that there is decrypts afterwards exactly if it did before. -/
theorem Change.kept (hedit : calls.Edits plain canon) (hrekey : calls.Rekeys plain)
    (h : Change calls r n s s' ok) (hm : s.enc m = some c) :
    ∃ c', s'.enc m = some c' ∧ ((plain c').isSome ↔ (plain c).isSome) := by
  by_cases hmn : m = n
  · subst hmn
    cases h with
    | @edited t file _ he =>
      rw [hm] at he
      obtain ⟨p, hp, -⟩ := hedit.changed_some he
      exact ⟨file, setEnc_enc_self, iff_of_true (hedit.isSome_of_changed he) (by rw [hp]; rfl)⟩
    | @rekeyed c₀ file _ hn hu =>
      rw [hm] at hn
      obtain rfl := Option.some.inj hn
      exact ⟨file, setEnc_enc_self, by rw [hrekey.updatekeys hu]⟩
    | encrypted _ hn =>
      rw [hm] at hn
      exact nomatch hn
    | _ => exact ⟨c, hm, Iff.rfl⟩
  · exact ⟨c, (h.enc_of_ne hmn).trans hm, Iff.rfl⟩

/-- What a round needs to leave every ciphertext intact. -/
theorem Change.leaves_intact_iff (hnil : plain [] = none) (henc : calls.Encrypts plain canon)
    (hedit : calls.Edits plain canon) (hrekey : calls.Rekeys plain)
    (h : Change calls r n s s' ok) (hs : Intact plain s) :
    Intact plain s' ↔ ¬ (s.enc n = none ∧ ok = false ∧ s'.enc n ≠ none) := by
  have same (he : s'.enc = s.enc) :
      Intact plain s' ↔ ¬ (s.enc n = none ∧ ok = false ∧ s'.enc n ≠ none) :=
    iff_of_true (fun m c hm => hs m c (he ▸ hm)) fun ⟨hn, _, hn'⟩ => hn' (he ▸ hn)
  cases h with
  | refused => exact same rfl
  | unchanged => exact same rfl
  | decrypted => exact same rfl
  | rendered => exact same rfl
  | stranded => exact same rfl
  | edited _ he =>
    exact iff_of_true (intact_setEnc hs (hedit.isSome_of_changed he)) fun ⟨_, hok, _⟩ => nomatch hok
  | rekeyed _ hn hu =>
    have hf := hrekey.updatekeys hu ▸ hs n _ hn
    exact iff_of_true (intact_setEnc hs hf) fun ⟨_, hok, _⟩ => nomatch hok
  | @encrypted t _ hn =>
    rw [setEnc_enc_self]
    rcases hok : (calls.encrypt t).ok with _ | _
    · rw [henc.encrypt_failed hok]
      refine iff_of_false (fun hs' => ?_) fun h => h ⟨hn, rfl, Option.some_ne_none _⟩
      have hempty := hs' n [] setEnc_enc_self
      rw [hnil] at hempty
      exact Bool.false_ne_true hempty
    · obtain ⟨p, -, hp⟩ := henc.encrypt hok
      exact iff_of_true (intact_setEnc hs (by rw [hp]; rfl)) fun ⟨_, hok, _⟩ => nomatch hok

/-- At a file that does not decrypt a round fails, unless it encrypts the data
key again. -/
theorem Change.broken (hdec : calls.Decrypts plain) (hedit : calls.Edits plain canon)
    (hrekey : calls.Rekeys plain) (h : Change calls r n s s' ok) (hn : s.enc n = some c)
    (hc : plain c = none) : ok = false ∧ s'.enc n = some c ∨
      r = .envRekey ∧ c ≠ [] ∧ ∃ c', s'.enc n = some c' ∧ plain c' = none := by
  have undecrypted {c₁ : Text} (h₁ : s.enc n = some c₁) (hok : (calls.decrypt c₁).ok = true) :
      False := by
    rw [hn] at h₁
    obtain rfl := Option.some.inj h₁
    exact absurd hok (Bool.eq_false_iff.mp (hdec.decrypt_none hc))
  cases h with
  | refused => exact .inl ⟨rfl, hn⟩
  | stranded => exact .inl ⟨rfl, hn⟩
  | decrypted _ h₁ hok => exact (undecrypted h₁ hok).elim
  | rendered _ h₁ hok _ => exact (undecrypted h₁ hok).elim
  | unchanged _ h₁ he =>
    rw [hn] at h₁
    obtain rfl := Option.some.inj h₁
    rw [hedit.unchanged he] at hc
    exact nomatch hc
  | edited _ he =>
    rw [hn] at he
    obtain ⟨p, hp, -⟩ := hedit.changed_some he
    rw [hp] at hc
    exact nomatch hc
  | @rekeyed c₁ file hr h₁ hu =>
    rw [hn] at h₁
    obtain rfl := Option.some.inj h₁
    refine .inr ⟨hr, ?_, file, setEnc_enc_self, (hrekey.updatekeys hu).trans hc⟩
    rintro rfl
    rw [hrekey.updatekeys_nil] at hu
    exact nomatch hu
  | encrypted _ h₁ =>
    rw [hn] at h₁
    exact nomatch h₁

end

section
variable (hedit : ∀ calls, D calls → calls.Edits plain canon)
  (hrekey : ∀ calls, D calls → calls.Rekeys plain)
include hedit hrekey

theorem act_kept {m : Name} {s : Files} {c : Text} (a : Action D) (hm : s.enc m = some c) :
    ∃ c', (act s a).1.enc m = some c' ∧ ((plain c').isSome ↔ (plain c).isSome) := by
  cases a with
  | round r n sops =>
    exact (change r n sops s).kept (hedit _ sops.documented) (hrekey _ sops.documented) hm
  | save => exact ⟨c, hm, Iff.rfl⟩
  | discard => exact ⟨c, hm, Iff.rfl⟩
  | clean => exact ⟨c, hm, Iff.rfl⟩

theorem intact_of_step {s s' : Files} {a : Action D} (h : step s a = some s')
    (hs' : Intact plain s') : Intact plain s := by
  obtain rfl := Option.some.inj h
  intro n c hn
  obtain ⟨c', hc', hiff⟩ := act_kept hedit hrekey a hn
  exact hiff.mp (hs' n c' hc')

theorem throughout_intact_iff {s s' : Files} {as : List (Action D)} (h : after s as = some s') :
    Throughout step (Intact plain) s as ↔ Intact plain s' :=
  Lib.Run.throughout_iff_last (fun h => intact_of_step hedit hrekey h) h

variable (hnil : plain [] = none) (henc : ∀ calls, D calls → calls.Encrypts plain canon)
include hnil henc

theorem intact_step {s s' : Files} {a : Action D} (hs : Intact plain s)
    (h : step s a = some s') : Intact plain s' ↔ ¬ Truncates s a := by
  obtain rfl := Option.some.inj h
  cases a with
  | round r n sops =>
    exact (change r n sops s).leaves_intact_iff hnil (henc _ sops.documented)
      (hedit _ sops.documented) (hrekey _ sops.documented) hs
  | save => exact iff_of_true hs id
  | discard => exact iff_of_true hs id
  | clean => exact iff_of_true hs id

/-- After a history, every ciphertext decrypts for a holder of its key exactly if
no round failed at an environment for which it had made the file. -/
theorem intact_iff {s s' : Files} (hs : Intact plain s) {as : List (Action D)}
    (h : after s as = some s') :
    Intact plain s' ↔ Along step (fun s a => ¬ Truncates s a) s as := by
  rw [← throughout_intact_iff hedit hrekey h]
  exact Lib.Run.throughout_iff_along (intact_step hedit hrekey hnil henc) hs

end

theorem intact_noFiles : Intact samplePlain noFiles := fun _ _ h => nomatch h

/-- An `env-new` that fails leaves a file, and one that does not decrypt. -/
theorem intact_iff_new : ∃ s' : Files,
    after noFiles ([.round .envNew prod (sample false)] : List SampleAction) = some s' ∧
      (Intact samplePlain s' ↔ Along step (fun s a => ¬ Truncates s a) noFiles
        ([.round .envNew prod (sample false)] : List SampleAction)) ∧
      s'.enc prod = some [] :=
  ⟨_, rfl, intact_iff IsSample.edits IsSample.rekeys samplePlain_nil IsSample.encrypts
    intact_noFiles rfl, by decide⟩

section
variable (hdec : ∀ calls, D calls → calls.Decrypts plain)
  (hedit : ∀ calls, D calls → calls.Edits plain canon)
  (hrekey : ∀ calls, D calls → calls.Rekeys plain)
include hdec hedit hrekey

/-- A file that no key decrypts stays one, and an empty one stays empty. -/
theorem broken_step {n : Name} (e : Prop) {s s' : Files} {a : Action D}
    (hs : ∃ c, s.enc n = some c ∧ plain c = none ∧ (e → c = []))
    (h : step s a = some s') :
    ∃ c, s'.enc n = some c ∧ plain c = none ∧ (e → c = []) := by
  obtain rfl := Option.some.inj h
  obtain ⟨c, hn, hc, hnil⟩ := hs
  cases a with
  | round r m sops =>
    have hch := change r m sops s
    by_cases hnm : n = m
    · subst hnm
      rcases hch.broken (hdec _ sops.documented) (hedit _ sops.documented)
          (hrekey _ sops.documented) hn hc with ⟨-, hn⟩ | ⟨-, hne, c', hn, hc⟩
      · exact ⟨c, hn, hc, hnil⟩
      · exact ⟨c', hn, hc, fun h => absurd (hnil h) hne⟩
    · exact ⟨c, (hch.enc_of_ne hnm).trans hn, hc, hnil⟩
  | save => exact ⟨c, hn, hc, hnil⟩
  | discard => exact ⟨c, hn, hc, hnil⟩
  | clean => exact ⟨c, hn, hc, hnil⟩

/-- Once a file is there that does not decrypt for any key, there is one after
every history, and an empty one stays empty. Every round of every recipe fails at
it and leaves it, but for `env-rekey` of a file that is not empty, which leaves
another that does not decrypt. -/
theorem stuck_forever {s s' : Files} {n : Name} {c : Text} (hn : s.enc n = some c)
    (hc : plain c = none) {as : List (Action D)} (h : after s as = some s') :
    ∃ c', s'.enc n = some c' ∧ plain c' = none ∧ (c = [] → c' = []) ∧
      ∀ (r : Recipe) (sops : Sops D),
        (r.round n sops.calls s').2 = false ∧ (r.round n sops.calls s').1.enc n = some c' ∨
          r = .envRekey ∧ c' ≠ [] ∧
            ∃ c'', (r.round n sops.calls s').1.enc n = some c'' ∧ plain c'' = none := by
  obtain ⟨c', hn', hc', hnil⟩ := Lib.Run.run_invariant
    (fun hs h => broken_step hdec hedit hrekey (c = []) hs h) ⟨c, hn, hc, id⟩ h
  exact ⟨c', hn', hc', hnil, fun r sops => round_change.broken (hdec _ sops.documented)
    (hedit _ sops.documented) (hrekey _ sops.documented) hn' hc'⟩

end

theorem stuck_forever_prod : ∃ s' : Files,
    after (noFiles.setEnc prod []) saved = some s' ∧
      ∃ c', s'.enc prod = some c' ∧ samplePlain c' = none ∧ (([] : Text) = [] → c' = []) ∧
        ∀ (r : Recipe) (sops : Sops IsSample),
          (r.round prod sops.calls s').2 = false ∧
              (r.round prod sops.calls s').1.enc prod = some c' ∨
            r = .envRekey ∧ c' ≠ [] ∧ ∃ c'',
              (r.round prod sops.calls s').1.enc prod = some c'' ∧ samplePlain c'' = none :=
  ⟨_, rfl, stuck_forever (s := noFiles.setEnc prod []) IsSample.decrypts IsSample.edits
    IsSample.rekeys setEnc_enc_self samplePlain_nil
    (rfl : after (noFiles.setEnc prod []) saved = some _)⟩

/-! ## What is left in `env/dec` -/

/-- A round that leaves a temporary file. -/
def Strands (s : Files) : Action D → Prop
  | .round r n sops => r.materialises = true ∧ (s.enc n).isSome ∧
      (r.round n sops.calls s).2 = false
  | _ => False

section
variable {calls : Calls} {r : Recipe} {n : Name} {s s' : Files} {ok : Bool}

theorem Change.temps (h : Change calls r n s s' ok) :
    s'.temps = s.temps ∧ ¬ (r.materialises = true ∧ (s.enc n).isSome ∧ ok = false) ∨
      s'.temps ≠ [] ∧ r.materialises = true ∧ (s.enc n).isSome ∧ ok = false := by
  cases h with
  | refused h =>
    refine .inl ⟨rfl, fun ⟨hr, hn, _⟩ => ?_⟩
    rw [h hr] at hn
    exact nomatch hn
  | encrypted hr =>
    exact .inl ⟨rfl, fun ⟨h, _, _⟩ => absurd (hr.symm.trans h) Bool.false_ne_true⟩
  | stranded hr hn => exact .inr ⟨List.cons_ne_nil _ _, hr, by rw [hn]; rfl, rfl⟩
  | _ => exact .inl ⟨rfl, fun ⟨_, _, h⟩ => nomatch h⟩

theorem temps_step {a : Action D} (h : step s a = some s') :
    s'.temps = s.temps ∧ ¬ Strands s a ∨ s'.temps ≠ [] ∧ Strands s a := by
  obtain rfl := Option.some.inj h
  cases a with
  | round r n sops => exact (change r n sops s).temps
  | save => exact .inl ⟨rfl, id⟩
  | discard => exact .inl ⟨rfl, id⟩
  | clean => exact .inl ⟨rfl, id⟩

/-- Nothing removes a temporary file. -/
theorem temps_eq_nil_iff (hs : s.temps = []) {as : List (Action D)}
    (h : after s as = some s') :
    s'.temps = [] ↔ Along step (fun s a => ¬ Strands s a) s as := by
  have hkeep {s s' : Files} {a : Action D} (h : step s a = some s')
      (hs' : s'.temps = []) : s.temps = [] := by
    rcases temps_step h with ⟨ht, -⟩ | ⟨ht, -⟩
    · rw [← ht, hs']
    · exact absurd hs' ht
  rw [← Lib.Run.throughout_iff_last (P := fun s => s.temps = []) hkeep h]
  refine Lib.Run.throughout_iff_along (P := fun s => s.temps = [])
    (fun {s s' a} (hs : s.temps = []) (h : step s a = some s') => ?_) hs
  rcases temps_step h with ⟨ht, hn⟩ | ⟨ht, hn⟩
  · exact iff_of_true (ht.trans hs) hn
  · exact iff_of_false ht (not_not_intro hn)

end

/-- `env-clean` after a history leaves nothing in `env/dec` exactly if no round
of it decrypted an environment and failed, and no file is hidden from `*.env`. -/
theorem clean_leaves_nothing_iff {s s' : Files} (hs : s.temps = []) {as : List (Action D)}
    (h : after s as = some s') :
    ((∀ n, (envClean s').dec n = none) ∧ (envClean s').temps = []) ↔
      Along step (fun s a => ¬ Strands s a) s as ∧
        ∀ n, isVisible n = false → s'.dec n = none := by
  rw [← temps_eq_nil_iff hs h, and_comm]
  refine and_congr_right fun _ => forall_congr' fun n => ?_
  show (if isVisible n then none else s'.dec n) = none ↔ _
  rcases isVisible n with _ | _
  · simp
  · simp

theorem clean_leaves_nothing_saved : ∃ s' : Files, after noFiles saved = some s' ∧
    (((∀ n, (envClean s').dec n = none) ∧ (envClean s').temps = []) ↔
      Along step (fun s a => ¬ Strands s a) noFiles saved ∧
        ∀ n, isVisible n = false → s'.dec n = none) :=
  ⟨_, rfl, clean_leaves_nothing_iff rfl rfl⟩

/-! ## Environments apart -/

/-- The files of an environment. -/
def Files.view (n : Name) (s : Files) : Option Text × Option Text × List (Name × Text) :=
  (s.enc n, s.dec n, s.temps.filter fun t => decide (t.1 = n))

/-- The actions about an environment. -/
def Action.about (n : Name) : Action D → Bool
  | .round _ m _ | .save m _ | .discard m => decide (m = n)
  | .clean => true

section
variable {r : Recipe} {m n : Name} {s t : Files} {c : Text} {o : Outcome} {e : Edited}
  {calls : Calls}

theorem view_setEnc : (s.setEnc n c).view n = (some c, (s.view n).2) :=
  Prod.ext setEnc_enc_self rfl

theorem view_setDec : (s.setDec n c).view n = ((s.view n).1, some c, (s.view n).2.2) :=
  Prod.ext rfl (Prod.ext (Function.update_self ..) rfl)

theorem view_temp : ({ s with temps := (n, c) :: s.temps } : Files).view n =
    ((s.view n).1, (s.view n).2.1, (n, c) :: (s.view n).2.2) := by
  simp [Files.view]

theorem view_discard : ({ s with dec := Function.update s.dec n none } : Files).view n =
    ((s.view n).1, none, (s.view n).2.2) :=
  Prod.ext rfl (Prod.ext (Function.update_self ..) rfl)

theorem view_envClean : (envClean s).view n =
    ((s.view n).1, if isVisible n then none else (s.view n).2.1, (s.view n).2.2) := rfl

theorem view_materialise (h : s.view n = t.view n) :
    (materialise n o s).1.view n = (materialise n o t).1.view n := by
  rcases ho : o.ok with _ | _
  · rw [materialise_failed ho, materialise_failed ho, view_temp, view_temp, h]
  · rw [materialise_ok ho, materialise_ok ho, view_setDec, view_setDec, h]

theorem view_encryptTo (h : s.view n = t.view n) :
    (encryptTo n c calls s).1.view n = (encryptTo n c calls t).1.view n := by
  show (s.setEnc n _).view n = (t.setEnc n _).view n
  rw [view_setEnc, view_setEnc, h]

theorem view_edited (h : s.view n = t.view n) :
    (edited n e s).1.view n = (edited n e t).1.view n := by
  cases e with
  | changed file =>
    show (s.setEnc n file).view n = (t.setEnc n file).view n
    rw [view_setEnc, view_setEnc, h]
  | unchanged => exact h
  | failed => exact h

/-- A round reads and writes the files of its environment. -/
theorem view_round (h : s.view n = t.view n) :
    (r.round n calls s).1.view n = (r.round n calls t).1.view n := by
  have henc : s.enc n = t.enc n := congrArg Prod.fst h
  have hdec : s.dec n = t.dec n := congrArg (·.2.1) h
  cases r with
  | envDecrypt =>
    show (envDecrypt n calls s).1.view n = (envDecrypt n calls t).1.view n
    unfold envDecrypt
    rw [henc]
    cases t.enc n with
    | none => exact h
    | some c => exact view_materialise h
  | envEncrypt =>
    show (envEncrypt n calls s).1.view n = (envEncrypt n calls t).1.view n
    unfold envEncrypt
    rw [hdec, henc]
    cases t.dec n with
    | none => exact h
    | some src =>
      cases t.enc n with
      | none => exact view_encryptTo h
      | some c => exact view_edited h
  | envEdit text =>
    show (envEdit text n calls s).1.view n = (envEdit text n calls t).1.view n
    unfold envEdit
    rw [henc]
    cases calls.edit (t.enc n) text with
    | changed file => exact view_edited h
    | unchanged => exact h
    | failed => exact h
  | envNew =>
    show (envNew n calls s).1.view n = (envNew n calls t).1.view n
    unfold envNew
    rw [henc]
    cases t.enc n with
    | none => exact view_encryptTo h
    | some c => exact h
  | envDockerEnvFile =>
    show (envDockerEnvFile n calls s).1.view n = (envDockerEnvFile n calls t).1.view n
    unfold envDockerEnvFile
    rw [henc]
    cases t.enc n with
    | none => exact h
    | some c => exact view_materialise h
  | envRekey =>
    show (envRekey n calls s).1.view n = (envRekey n calls t).1.view n
    unfold envRekey
    rw [henc]
    cases (t.enc n).bind calls.updatekeys with
    | none => exact h
    | some file =>
      show (s.setEnc n file).view n = (t.setEnc n file).view n
      rw [view_setEnc, view_setEnc, h]

/-- A round leaves the files of the other environments alone. -/
theorem Change.view {s' : Files} {ok : Bool} (h : Change calls r m s s' ok) (hmn : m ≠ n) :
    s'.view n = s.view n := by
  have hnm : n ≠ m := Ne.symm hmn
  refine Prod.ext (h.enc_of_ne hnm) ?_
  cases h with
  | decrypted => exact Prod.ext (Function.update_of_ne hnm ..) rfl
  | rendered => exact Prod.ext (Function.update_of_ne hnm ..) rfl
  | stranded => simp [Files.view, hmn]
  | _ => rfl

theorem view_frame {s' : Files} {a : Action D} (ha : a.about n = false)
    (h : step s a = some s') : s'.view n = s.view n := by
  obtain rfl := Option.some.inj h
  cases a with
  | round r m sops => exact (change r m sops s).view (of_decide_eq_false ha)
  | save m c =>
    have hnm : n ≠ m := Ne.symm (of_decide_eq_false ha)
    exact Prod.ext rfl (Prod.ext (Function.update_of_ne hnm ..) rfl)
  | discard m =>
    have hnm : n ≠ m := Ne.symm (of_decide_eq_false ha)
    exact Prod.ext rfl (Prod.ext (Function.update_of_ne hnm ..) rfl)
  | clean => exact nomatch ha

theorem view_own {s' : Files} {a : Action D} (ha : a.about n = true)
    (hv : s.view n = t.view n) (h : step s a = some s') :
    ∃ t', step t a = some t' ∧ s'.view n = t'.view n := by
  obtain rfl := Option.some.inj h
  refine ⟨_, rfl, ?_⟩
  cases a with
  | round r m sops =>
    obtain rfl := of_decide_eq_true ha
    exact view_round hv
  | save m c =>
    obtain rfl := of_decide_eq_true ha
    show (s.setDec m c).view m = (t.setDec m c).view m
    rw [view_setDec, view_setDec, hv]
  | discard m =>
    obtain rfl := of_decide_eq_true ha
    show ({ s with dec := Function.update s.dec m none } : Files).view m =
      ({ t with dec := Function.update t.dec m none } : Files).view m
    rw [view_discard, view_discard, hv]
  | clean =>
    show (envClean s).view n = (envClean t).view n
    rw [view_envClean, view_envClean, hv]

end

/-- Two histories with the same actions about an environment, in whatever order
with those about others, leave it the same files. -/
theorem environments_apart {n : Name} {s s₁ s₂ : Files} {as bs : List (Action D)}
    (hab : as.filter (Action.about n) = bs.filter (Action.about n))
    (h₁ : after s as = some s₁) (h₂ : after s bs = some s₂) : s₁.view n = s₂.view n := by
  obtain ⟨t₁, ht₁, hv₁⟩ := Lib.Run.run_filter (fun ha h => view_frame ha h)
    (fun ha hv h => view_own ha hv h) rfl h₁
  obtain ⟨t₂, ht₂, hv₂⟩ := Lib.Run.run_filter (fun ha h => view_frame ha h)
    (fun ha hv h => view_own ha hv h) rfl h₂
  rw [hab] at ht₁
  rw [hv₁, hv₂, Option.some.inj (ht₁.symm.trans ht₂)]

/-- A file saved for another environment between two rounds. -/
theorem environments_apart_saved : ∃ s₁ s₂ : Files, after noFiles saved = some s₁ ∧
    after noFiles (.save dev line :: saved) = some s₂ ∧ s₁.view prod = s₂.view prod :=
  ⟨_, _, rfl, rfl, environments_apart
    (show saved.filter (Action.about prod) =
      (Action.save dev line :: saved).filter (Action.about prod) from rfl)
    (rfl : after noFiles saved = some _)
    (rfl : after noFiles (.save dev line :: saved) = some _)⟩

end

end Fiducia.Dotenv.Store
