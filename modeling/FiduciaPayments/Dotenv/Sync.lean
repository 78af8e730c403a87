import FiduciaPayments.Dotenv.History

/-!
# Plaintexts and ciphertexts in step

What the loops of `env-decrypt` and `env-encrypt` leave, wherever they stop
(`envDecrypt_run`, `envEncrypt_run`), and from that what the two recipes do to
one another's files: an environment that was encrypted, wiped and decrypted is
what sops makes of its plaintext (`encrypt_clean_decrypt`), encrypting what was
decrypted changes nothing (`decrypt_encrypt`), and `env-status` tells what either
recipe would change (`envStatus_iff`).
-/

namespace Fiducia.Dotenv.Store

open Lib.Errexit Lib.Python

/-- The environments that a recipe is given. -/
def namesOf (rounds : List (Name × Calls)) : List Name := rounds.map Prod.fst

theorem mem_namesOf_concat {n : Name} {c : Name × Calls} {rounds : List (Name × Calls)} :
    n ∈ namesOf (rounds ++ [c]) ↔ n ∈ namesOf rounds ∨ n = c.1 := by
  rw [namesOf, List.map_append, List.mem_append, List.map_singleton, List.mem_singleton]
  rfl

section
variable {plain canon : Text → Option Text}
  {calls : Calls} {n : Name} {s s' : Files}

/-! ## Rounds -/

/-- The plaintext that a round of `env-decrypt` writes. -/
theorem envDecrypt_ok (h : calls.Decrypts plain)
    (hr : envDecrypt n calls s = (s', true)) :
    ∃ p, (s.enc n).bind plain = some p ∧ s' = s.setDec n p := by
  unfold envDecrypt at hr
  split at hr
  · exact nomatch hr
  · rename_i c hc
    rcases ho : (calls.decrypt c).ok with _ | _
    · rw [materialise_failed ho] at hr
      exact nomatch hr
    · rw [materialise_ok ho] at hr
      refine ⟨_, ?_, (Prod.mk.inj hr).1.symm⟩
      rw [hc, Option.bind_some, h.out_eq ho]

theorem envDecrypt_failed (hr : envDecrypt n calls s = (s', false)) :
    s' = s ∧ s.enc n = none ∨ ∃ t, s' = { s with temps := (n, t) :: s.temps } := by
  unfold envDecrypt at hr
  split at hr
  · rename_i hn
    exact .inl ⟨(Prod.mk.inj hr).1.symm, hn⟩
  · rename_i c hc
    rcases ho : (calls.decrypt c).ok with _ | _
    · rw [materialise_failed ho] at hr
      exact .inr ⟨_, (Prod.mk.inj hr).1.symm⟩
    · rw [materialise_ok ho] at hr
      exact nomatch hr

/-- The ciphertext that a round of `env-encrypt` leaves. -/
theorem envEncrypt_ok (h : calls.Encrypts plain canon) (hedit : calls.Edits plain canon)
    (hcanon : ∀ c p, plain c = some p → canon p = some p)
    (hr : envEncrypt n calls s = (s', true)) :
    ∃ p c, (s.dec n).bind canon = some p ∧ plain c = some p ∧ s'.enc n = some c ∧
      (s' = s ∨ s' = s.setEnc n c) := by
  unfold envEncrypt at hr
  split at hr
  · exact nomatch hr
  · rename_i t ht
    split at hr
    · rename_i c hc
      match he : calls.edit (some c) t with
      | .failed =>
        rw [he] at hr
        exact nomatch hr
      | .unchanged =>
        rw [he] at hr
        have hp := hedit.unchanged he
        obtain rfl : s = s' := (Prod.mk.inj hr).1
        refine ⟨t, c, ?_, hp, hc, .inl rfl⟩
        rw [ht, Option.bind_some, hcanon c t hp]
      | .changed file =>
        rw [he] at hr
        obtain ⟨p, hcan, hp⟩ := hedit.changed he
        obtain rfl : s.setEnc n file = s' := (Prod.mk.inj hr).1
        refine ⟨p, file, ?_, hp, setEnc_enc_self, .inr rfl⟩
        rw [ht, Option.bind_some, hcan]
    · obtain ⟨hs, hok⟩ := Prod.mk.inj hr
      obtain ⟨p, hcan, hp⟩ := h.encrypt hok
      refine ⟨p, _, ?_, hp, by rw [← hs]; exact setEnc_enc_self, .inr hs.symm⟩
      rw [ht, Option.bind_some, hcan]

theorem envEncrypt_failed (h : calls.Encrypts plain canon)
    (hr : envEncrypt n calls s = (s', false)) :
    s' = s ∨ s.enc n = none ∧ s' = s.setEnc n [] := by
  unfold envEncrypt at hr
  split at hr
  · exact .inl (Prod.mk.inj hr).1.symm
  · rename_i t ht
    split at hr
    · rename_i c hc
      match he : calls.edit (some c) t with
      | .failed =>
        rw [he] at hr
        exact .inl (Prod.mk.inj hr).1.symm
      | .unchanged =>
        rw [he] at hr
        exact nomatch hr
      | .changed file =>
        rw [he] at hr
        exact nomatch hr
    · rename_i hn
      obtain ⟨hs, hok⟩ := Prod.mk.inj hr
      rw [h.encrypt_failed hok] at hs
      exact .inr ⟨hn, hs.symm⟩

/-! ## Loops -/

/-- What rounds of `env-decrypt` that succeed make of the files. -/
structure Decrypted (plain : Text → Option Text) (s : Files) (done : List (Name × Calls))
    (s' : Files) : Prop where
  enc : s'.enc = s.enc
  temps : s'.temps = s.temps
  isSome : ∀ n ∈ namesOf done, ((s.enc n).bind plain).isSome
  dec : ∀ n, s'.dec n = if n ∈ namesOf done then (s.enc n).bind plain else s.dec n

theorem decrypted_step {done : List (Name × Calls)} {c : Name × Calls} {s₁ s₂ : Files}
    (hc : c.2.Decrypts plain) (hs : Decrypted plain s done s₁)
    (hr : envDecrypt c.1 c.2 s₁ = (s₂, true)) : Decrypted plain s (done ++ [c]) s₂ := by
  obtain ⟨p, hp, rfl⟩ := envDecrypt_ok hc hr
  rw [hs.enc] at hp
  refine ⟨hs.enc, hs.temps, fun n hn => ?_, fun n => ?_⟩
  · rcases mem_namesOf_concat.mp hn with hn | rfl
    · exact hs.isSome n hn
    · rw [hp]
      rfl
  · by_cases hnc : n = c.1
    · subst hnc
      rw [if_pos (mem_namesOf_concat.mpr (.inr rfl)), hp]
      exact Function.update_self ..
    · rw [show (s₁.setDec c.1 p).dec n = s₁.dec n from Function.update_of_ne hnc .., hs.dec n]
      simp only [mem_namesOf_concat, hnc, or_false]

/-- `env-decrypt` decrypts environments up to the one at which it stops. Those
before it have their plaintexts, those after it keep their files, and it leaves
a temporary file at most. -/
theorem envDecrypt_run {rounds : List (Name × Calls)} (h : ∀ c ∈ rounds, c.2.Decrypts plain) :
    ∃ done rest, rounds = done ++ rest ∧ (Recipe.envDecrypt.run rounds s).2 = rest.head? ∧
      (Recipe.envDecrypt.run rounds s).1.enc = s.enc ∧
      (∀ n ∈ namesOf done, ((s.enc n).bind plain).isSome) ∧
      (∀ n, (Recipe.envDecrypt.run rounds s).1.dec n =
        if n ∈ namesOf done then (s.enc n).bind plain else s.dec n) ∧
      ((Recipe.envDecrypt.run rounds s).1.temps = s.temps ∧
          (∀ c ∈ rest.head?, s.enc c.1 = none) ∨
        ∃ c ∈ rest.head?, ∃ t, (Recipe.envDecrypt.run rounds s).1.temps = (c.1, t) :: s.temps) := by
  obtain ⟨done, rest, s₁, hrounds, ⟨henc, htemps, hall, hdec⟩, hstop, hlast⟩ :=
    Recipe.run_split (r := .envDecrypt) (P := Decrypted plain s) ⟨rfl, rfl, nofun, fun _ => rfl⟩
      fun hc hs hr => decrypted_step (h _ hc) hs hr
  refine ⟨done, rest, hrounds, hstop, ?_⟩
  rcases hlast with ⟨hrest, he⟩ | ⟨c, hc, hr⟩
  · rw [he, hrest]
    exact ⟨henc, hall, hdec, .inl ⟨htemps, nofun⟩⟩
  · rcases envDecrypt_failed hr with ⟨he, hn⟩ | ⟨t, he⟩
    · rw [he]
      refine ⟨henc, hall, hdec, .inl ⟨htemps, fun c' hc' => ?_⟩⟩
      rw [← Option.some.inj (hc.symm.trans hc'), ← henc]
      exact hn
    · rw [he]
      exact ⟨henc, hall, hdec, .inr ⟨c, hc, t, by rw [htemps]⟩⟩

/-- What rounds of `env-encrypt` that succeed make of the files. -/
structure Encrypted (plain canon : Text → Option Text) (s : Files) (done : List (Name × Calls))
    (s' : Files) : Prop where
  dec : s'.dec = s.dec
  temps : s'.temps = s.temps
  enc : ∀ n ∈ namesOf done, ∃ p, (s.dec n).bind canon = some p ∧ (s'.enc n).bind plain = some p
  other : ∀ n ∉ namesOf done, s'.enc n = s.enc n

theorem encrypted_step (hcanon : ∀ c p, plain c = some p → canon p = some p)
    {done : List (Name × Calls)} {c : Name × Calls} {s₁ s₂ : Files}
    (hc : c.2.Encrypts plain canon ∧ c.2.Edits plain canon) (hs : Encrypted plain canon s done s₁)
    (hr : envEncrypt c.1 c.2 s₁ = (s₂, true)) : Encrypted plain canon s (done ++ [c]) s₂ := by
  obtain ⟨p, file, hcan, hp, hfile, hs₂⟩ := envEncrypt_ok hc.1 hc.2 hcanon hr
  have hdec : s₂.dec = s₁.dec := by rcases hs₂ with rfl | rfl <;> rfl
  have htemps : s₂.temps = s₁.temps := by rcases hs₂ with rfl | rfl <;> rfl
  have henc {n : Name} (hn : n ≠ c.1) : s₂.enc n = s₁.enc n := by
    rcases hs₂ with rfl | rfl
    · rfl
    · exact setEnc_enc_of_ne hn
  refine ⟨hdec.trans hs.dec, htemps.trans hs.temps, fun n hn => ?_, fun n hn => ?_⟩
  · by_cases hnc : n = c.1
    · rw [hnc, ← hs.dec, hfile]
      exact ⟨p, hcan, hp⟩
    · rw [henc hnc]
      exact hs.enc n ((mem_namesOf_concat.mp hn).resolve_right hnc)
  · rw [mem_namesOf_concat, not_or] at hn
    rw [henc hn.2]
    exact hs.other n hn.1

/-- `env-encrypt` folds plaintexts into ciphertexts up to the environment at
which it stops. Those before it have ciphertexts of what sops makes of their
plaintexts, and nothing else changes, but for an empty file if it stops at an
environment that had none. -/
theorem envEncrypt_run (hcanon : ∀ c p, plain c = some p → canon p = some p)
    {rounds : List (Name × Calls)}
    (h : ∀ c ∈ rounds, c.2.Encrypts plain canon ∧ c.2.Edits plain canon) :
    ∃ done rest, rounds = done ++ rest ∧ (Recipe.envEncrypt.run rounds s).2 = rest.head? ∧
      (Recipe.envEncrypt.run rounds s).1.dec = s.dec ∧
      (Recipe.envEncrypt.run rounds s).1.temps = s.temps ∧
      (∀ n ∈ namesOf done, ∃ p, (s.dec n).bind canon = some p ∧
        ((Recipe.envEncrypt.run rounds s).1.enc n).bind plain = some p) ∧
      (∀ n ∉ namesOf done, (Recipe.envEncrypt.run rounds s).1.enc n = s.enc n ∨
        n ∈ rest.head?.map Prod.fst ∧ s.enc n = none ∧
          (Recipe.envEncrypt.run rounds s).1.enc n = some []) := by
  obtain ⟨done, rest, s₁, hrounds, ⟨hdec, htemps, hall, hother⟩, hstop, hlast⟩ :=
    Recipe.run_split (r := .envEncrypt) (P := Encrypted plain canon s)
      ⟨rfl, rfl, nofun, fun _ _ => rfl⟩ fun hc hs hr => encrypted_step hcanon (h _ hc) hs hr
  refine ⟨done, rest, hrounds, hstop, ?_⟩
  rcases hlast with ⟨-, he⟩ | ⟨c, hc, hr⟩
  · rw [he]
    exact ⟨hdec, htemps, hall, fun n hn => .inl (hother n hn)⟩
  · have hmem : c ∈ rounds := by
      rw [hrounds]
      exact List.mem_append_right _ (List.mem_of_head? hc)
    rcases envEncrypt_failed (h c hmem).1 hr with he | ⟨hn, he⟩
    · rw [he]
      exact ⟨hdec, htemps, hall, fun n hn => .inl (hother n hn)⟩
    · -- The environments before it have ciphertexts, so it is none of them.
      have hne {n : Name} (hd : n ∈ namesOf done) : n ≠ c.1 := by
        rintro rfl
        obtain ⟨p, -, hp⟩ := hall _ hd
        rw [hn] at hp
        exact nomatch hp
      rw [he]
      refine ⟨hdec, htemps, fun n hd => ?_, fun n hd => ?_⟩
      · rw [setEnc_enc_of_ne (hne hd)]
        exact hall n hd
      · by_cases hnc : n = c.1
        · subst hnc
          rw [← hother _ hd]
          exact .inr ⟨by rw [hc]; rfl, hn, setEnc_enc_self⟩
        · rw [setEnc_enc_of_ne hnc]
          exact .inl (hother n hd)

/-! ## One recipe after the other -/

theorem rest_eq_nil {done rest : List (Name × Calls)} (h : rest.head? = none) :
    done ++ rest = done := by
  rw [List.head?_eq_none_iff.mp h, List.append_nil]

/-- Environments that are encrypted, wiped and decrypted are what sops makes of
their plaintexts, and their ciphertexts decrypt to it; the others keep their
ciphertexts. -/
theorem encrypt_clean_decrypt (hcanon : ∀ c p, plain c = some p → canon p = some p)
    {es ds : List (Name × Calls)} {s s₁ s₂ : Files}
    (hes : ∀ c ∈ es, c.2.Encrypts plain canon ∧ c.2.Edits plain canon)
    (hds : ∀ c ∈ ds, c.2.Decrypts plain)
    (he : Recipe.envEncrypt.run es s = (s₁, none))
    (hd : Recipe.envDecrypt.run ds (envClean s₁) = (s₂, none)) :
    (∀ n ∈ namesOf es, n ∈ namesOf ds → ∃ p, (s.dec n).bind canon = some p ∧
      (s₂.enc n).bind plain = some p ∧ s₂.dec n = some p) ∧
    (∀ n ∉ namesOf es, s₂.enc n = s.enc n) ∧
    (∀ n ∉ namesOf ds, s₂.dec n = if isVisible n then none else s.dec n) := by
  obtain ⟨done, rest, rfl, hstop, hdec₁, -, hall, hother⟩ :=
    envEncrypt_run hcanon (s := s) hes
  obtain ⟨done', rest', rfl, hstop', henc₂, -, hdec₂, -⟩ :=
    envDecrypt_run (s := envClean s₁) hds
  rw [he] at hstop hdec₁ hall hother
  rw [hd] at hstop' henc₂ hdec₂
  rw [rest_eq_nil hstop.symm, rest_eq_nil hstop'.symm]
  have henc : s₂.enc = s₁.enc := henc₂
  refine ⟨fun n hn hn' => ?_, fun n hn => ?_, fun n hn => ?_⟩
  · obtain ⟨p, hcan, hp⟩ := hall n hn
    refine ⟨p, hcan, by rw [henc, hp], ?_⟩
    rw [hdec₂ n, if_pos hn']
    exact hp
  · rw [henc]
    rcases hother n hn with h | ⟨h, -, -⟩
    · exact h
    · rw [← hstop] at h
      exact nomatch h
  · rw [hdec₂ n, if_neg hn, ← hdec₁]
    rfl

/-- The calls of a sops that works. -/
def working : List (Name × Calls) := [(prod, sampleCalls true)]

theorem working_decrypts : ∀ c ∈ working, c.2.Decrypts samplePlain :=
  List.forall_mem_singleton.mpr (sampleCalls_decrypts true)

theorem working_edits : ∀ c ∈ working, c.2.Edits samplePlain some :=
  List.forall_mem_singleton.mpr (sampleCalls_edits true)

theorem working_encrypts : ∀ c ∈ working,
    c.2.Encrypts samplePlain some ∧ c.2.Edits samplePlain some :=
  List.forall_mem_singleton.mpr ⟨sampleCalls_encrypts true, sampleCalls_edits true⟩

/-- A plaintext, without its ciphertext. -/
def savedProd : Files := noFiles.setDec prod line

theorem encrypt_clean_decrypt_prod : ∃ s₁ s₂ : Files,
    Recipe.envEncrypt.run working savedProd = (s₁, none) ∧
    Recipe.envDecrypt.run working (envClean s₁) = (s₂, none) ∧
    (∀ n ∈ namesOf working, n ∈ namesOf working → ∃ p, (savedProd.dec n).bind some = some p ∧
      (s₂.enc n).bind samplePlain = some p ∧ s₂.dec n = some p) ∧
    (∀ n ∉ namesOf working, s₂.enc n = savedProd.enc n) ∧
    (∀ n ∉ namesOf working, s₂.dec n = if isVisible n then none else savedProd.dec n) :=
  ⟨_, _, rfl, rfl, encrypt_clean_decrypt (fun _ _ _ => rfl) working_encrypts
    working_decrypts rfl rfl⟩

/-- An `env-decrypt` that failed somewhere leaves nothing for another one to
undo: when that one finishes, the files are those that a first one would have
left, but for a temporary file at most. -/
theorem decrypt_again {ds ds' : List (Name × Calls)} {s s₂ : Files}
    (hds : ∀ c ∈ ds, c.2.Decrypts plain) (hds' : ∀ c ∈ ds', c.2.Decrypts plain)
    (hsub : ∀ n ∈ namesOf ds, n ∈ namesOf ds')
    (hd : Recipe.envDecrypt.run ds' (Recipe.envDecrypt.run ds s).1 = (s₂, none)) :
    s₂.enc = s.enc ∧
      (∀ n, s₂.dec n = if n ∈ namesOf ds' then (s.enc n).bind plain else s.dec n) ∧
      (s₂.temps = s.temps ∨ ∃ t, s₂.temps = t :: s.temps) := by
  obtain ⟨done, rest, rfl, -, henc₁, -, hdec₁, htemps₁⟩ := envDecrypt_run (s := s) hds
  obtain ⟨done', rest', rfl, hstop, henc₂, -, hdec₂, htemps₂⟩ :=
    envDecrypt_run (s := (Recipe.envDecrypt.run (done ++ rest) s).1) hds'
  rw [hd] at hstop henc₂ hdec₂ htemps₂
  rw [rest_eq_nil hstop.symm] at hsub ⊢
  refine ⟨henc₂.trans henc₁, fun n => ?_, ?_⟩
  · rw [hdec₂ n, henc₁]
    split
    · rfl
    · rename_i hn
      have hnd : n ∉ namesOf done := fun h =>
        hn (hsub n (by rw [namesOf, List.map_append]; exact List.mem_append_left _ h))
      rw [hdec₁ n, if_neg hnd]
  · have htemps : s₂.temps = (Recipe.envDecrypt.run (done ++ rest) s).1.temps := by
      rcases htemps₂ with ⟨h, -⟩ | ⟨c, hc, -⟩
      · exact h
      · rw [← hstop] at hc
        exact nomatch hc
    rw [htemps]
    rcases htemps₁ with ⟨h, -⟩ | ⟨c, -, t, h⟩
    · exact .inl h
    · exact .inr ⟨_, h⟩

theorem decrypt_again_prod : ∃ s₂ : Files,
    Recipe.envDecrypt.run working
      (Recipe.envDecrypt.run working (noFiles.setEnc prod header)).1 = (s₂, none) ∧
    s₂.enc = (noFiles.setEnc prod header).enc ∧
      (∀ n, s₂.dec n = if n ∈ namesOf working then
        ((noFiles.setEnc prod header).enc n).bind samplePlain else noFiles.dec n) ∧
      (s₂.temps = [] ∨ ∃ t, s₂.temps = [t]) :=
  ⟨_, rfl, decrypt_again working_decrypts working_decrypts (fun _ h => h) rfl⟩

/-- A round of `env-encrypt` leaves a ciphertext of the plaintext alone. -/
theorem envEncrypt_same (h : calls.Edits plain canon) {t : Text}
    (hd : s.dec n = some t) (he : (s.enc n).bind plain = some t) :
    (envEncrypt n calls s).1 = s := by
  obtain ⟨c, hc, hp⟩ := Option.bind_eq_some_iff.mp he
  unfold envEncrypt
  simp only [hd, hc]
  match hedit : calls.edit (some c) t with
  | .failed => rfl
  | .unchanged => rfl
  | .changed file =>
    obtain ⟨p, hp', hne⟩ := h.changed_some hedit
    rw [hp, Option.some.injEq] at hp'
    exact absurd hp'.symm hne

/-- After `env-decrypt`, `env-encrypt` of its environments changes nothing,
wherever it stops. -/
theorem decrypt_encrypt {ds es : List (Name × Calls)} {s s₁ : Files}
    (hds : ∀ c ∈ ds, c.2.Decrypts plain) (hes : ∀ c ∈ es, c.2.Edits plain canon)
    (hd : Recipe.envDecrypt.run ds s = (s₁, none)) (hsub : ∀ n ∈ namesOf es, n ∈ namesOf ds) :
    (Recipe.envEncrypt.run es s₁).1 = s₁ := by
  obtain ⟨done, rest, rfl, hstop, henc, hall, hdec, -⟩ := envDecrypt_run (s := s) hds
  rw [hd] at hstop henc hdec
  rw [rest_eq_nil hstop.symm] at hsub
  refine Lib.Loop.forEach_same fun c hc => ?_
  have hn : c.1 ∈ namesOf done := hsub c.1 (List.mem_map_of_mem hc)
  obtain ⟨p, hp⟩ := Option.isSome_iff_exists.mp (hall c.1 hn)
  refine envEncrypt_same (hes c hc) (t := p) ?_ ?_
  · rw [hdec c.1, if_pos hn, hp]
  · rw [show s₁.enc = s.enc from henc, hp]

theorem decrypt_encrypt_prod : ∃ s₁ : Files,
    Recipe.envDecrypt.run working (noFiles.setEnc prod header) = (s₁, none) ∧
      (Recipe.envEncrypt.run working s₁).1 = s₁ :=
  ⟨_, rfl, decrypt_encrypt (s := noFiles.setEnc prod header) working_decrypts
    working_edits rfl fun _ h => h⟩

/-! ## `env-status` -/

/-- What `env-status` says of an environment. -/
inductive Status where
  | notDecrypted
  | inSync
  | modified
  deriving DecidableEq

/-- `diff -q <(sops decrypt …) "$p"` compares what sops printed, whether or not
it succeeded. -/
def statusOf (n : Name) (calls : Calls) (s : Files) : Option Status :=
  (s.enc n).map fun f =>
    match s.dec n with
    | none => .notDecrypted
    | some p => if (calls.decrypt f).out = p then .inSync else .modified

/-- The environments listed, and `$clean`. -/
def envStatus (fs : List (Name × Calls)) (s : Files) : List (Name × Status) × Bool :=
  let rows := fs.filterMap fun c => (statusOf c.1 c.2 s).map (c.1, ·)
  (rows, rows.all fun row => row.2 ≠ .modified)

/-- A plaintext file is the plaintext of its ciphertext. -/
def InStep (plain : Text → Option Text) (n : Name) (s : Files) : Prop :=
  ∀ t, s.dec n = some t → (s.enc n).bind plain = some t

theorem envStatus_clean {fs : List (Name × Calls)} : (envStatus fs s).2 = true ↔
    ∀ c ∈ fs, statusOf c.1 c.2 s ≠ some .modified := by
  show ((fs.filterMap fun c => (statusOf c.1 c.2 s).map (c.1, ·)).all fun row =>
    decide (row.2 ≠ .modified)) = true ↔ _
  rw [List.all_eq_true]
  constructor
  · intro h c hc hs
    have := h (c.1, .modified) (List.mem_filterMap.mpr ⟨c, hc, by rw [hs]; rfl⟩)
    exact absurd (of_decide_eq_true this) (not_not_intro rfl)
  · intro h row hrow
    obtain ⟨c, hc, hrow⟩ := List.mem_filterMap.mp hrow
    obtain ⟨st, hst, rfl⟩ := Option.map_eq_some_iff.mp hrow
    refine decide_eq_true fun e => h c hc ?_
    rw [hst, ← e]

theorem envStatus_congr {fs : List (Name × Calls)}
    (h : ∀ c ∈ fs, statusOf c.1 c.2 s = statusOf c.1 c.2 s') : envStatus fs s = envStatus fs s' := by
  have hrows : (fs.filterMap fun c => (statusOf c.1 c.2 s).map (c.1, ·)) =
      fs.filterMap fun c => (statusOf c.1 c.2 s').map (c.1, ·) :=
    List.filterMap_congr fun c hc => by rw [h c hc]
  unfold envStatus
  rw [hrows]

/-- A plaintext without a ciphertext is not looked at. -/
theorem statusOf_setDec {m : Name} {t : Text} (hn : s.enc n = none) :
    statusOf m calls (s.setDec n t) = statusOf m calls s := by
  unfold statusOf
  rw [show (s.setDec n t).enc = s.enc from rfl]
  by_cases hmn : m = n
  · rw [hmn, hn]
    rfl
  · rw [show (s.setDec n t).dec m = s.dec m from Function.update_of_ne hmn ..]

theorem statusOf_ne_modified_iff (h : calls.Decrypts plain) {f : Text}
    (hn : s.enc n = some f) (hok : (calls.decrypt f).ok = true) :
    statusOf n calls s ≠ some .modified ↔ InStep plain n s := by
  have hp := h.out_eq hok
  rw [statusOf, hn, Option.map_some, InStep, hn, Option.bind_some, hp]
  cases s.dec n with
  | none => simp
  | some p => by_cases he : (calls.decrypt f).out = p <;> simp [he]

/-- With a sops that decrypts the environments listed, `env-status` finds them
clean exactly if their plaintext files are their plaintexts; a plaintext without
a ciphertext changes nothing that it finds. Then `env-encrypt` changes nothing;
and once it has encrypted a plaintext, for the first time or again, that one is
in step, if it is what sops makes of it. -/
theorem envStatus_iff (hcanon : ∀ c p, plain c = some p → canon p = some p)
    {fs : List (Name × Calls)} (hfs : ∀ c ∈ fs, c.2.Decrypts plain)
    (hok : ∀ c ∈ fs, ∃ f, s.enc c.1 = some f ∧ (c.2.decrypt f).ok = true) :
    ((envStatus fs s).2 = true ↔ ∀ n ∈ namesOf fs, InStep plain n s) ∧
    (∀ n t, s.enc n = none → envStatus fs (s.setDec n t) = envStatus fs s) ∧
    ∀ es : List (Name × Calls), (∀ c ∈ es, c.2.Encrypts plain canon ∧ c.2.Edits plain canon) →
      ((envStatus fs s).2 = true → (∀ n ∈ namesOf es, n ∈ namesOf fs) →
        (Recipe.envEncrypt.run es s).1 = s) ∧
      ∀ s', Recipe.envEncrypt.run es s = (s', none) →
        ∀ n, (∀ t, s.dec n = some t → n ∈ namesOf es ∧ canon t = some t) → InStep plain n s' := by
  have hiff : (envStatus fs s).2 = true ↔ ∀ n ∈ namesOf fs, InStep plain n s := by
    rw [envStatus_clean, namesOf, List.forall_mem_map]
    refine forall₂_congr fun c hc => ?_
    obtain ⟨f, hf, ho⟩ := hok c hc
    exact statusOf_ne_modified_iff (hfs c hc) hf ho
  refine ⟨hiff, fun n t hn => envStatus_congr fun c _ => statusOf_setDec hn,
    fun es hes => ⟨fun hclean hsub => ?_, fun s' he n hloc t ht => ?_⟩⟩
  · refine Lib.Loop.forEach_same fun c hc => ?_
    show (envEncrypt c.1 c.2 s).1 = s
    match hd : s.dec c.1 with
    | none =>
      unfold envEncrypt
      simp only [hd]
    | some t =>
      have hstep := hiff.mp hclean c.1 (hsub c.1 (List.mem_map_of_mem hc))
      exact envEncrypt_same (hes c hc).2 hd (hstep t hd)
  · obtain ⟨done, rest, rfl, hstop, hdec, -, hall, -⟩ := envEncrypt_run hcanon (s := s) hes
    rw [he] at hstop hdec hall
    have ht : s.dec n = some t := by rw [← hdec]; exact ht
    obtain ⟨hmem, hcan⟩ := hloc t ht
    rw [rest_eq_nil hstop.symm] at hmem
    obtain ⟨p, hp, hs'⟩ := hall n hmem
    rw [ht, Option.bind_some, hcan, Option.some.injEq] at hp
    rw [hp]
    exact hs'

/-- A plaintext that is another than that of its ciphertext. -/
def modifiedProd : Files := savedProd.setEnc prod header

theorem modifiedProd_decrypts : ∀ c ∈ working,
    ∃ f, modifiedProd.enc c.1 = some f ∧ (c.2.decrypt f).ok = true :=
  List.forall_mem_singleton.mpr ⟨header, setEnc_enc_self, by decide⟩

theorem envStatus_iff_prod : (envStatus working modifiedProd).1 = [(prod, .modified)] ∧
    ((envStatus working modifiedProd).2 = true ↔
      ∀ n ∈ namesOf working, InStep samplePlain n modifiedProd) ∧
    (∀ n t, modifiedProd.enc n = none →
      envStatus working (modifiedProd.setDec n t) = envStatus working modifiedProd) ∧
    ∀ es : List (Name × Calls),
      (∀ c ∈ es, c.2.Encrypts samplePlain some ∧ c.2.Edits samplePlain some) →
      ((envStatus working modifiedProd).2 = true → (∀ n ∈ namesOf es, n ∈ namesOf working) →
        (Recipe.envEncrypt.run es modifiedProd).1 = modifiedProd) ∧
      ∀ s', Recipe.envEncrypt.run es modifiedProd = (s', none) →
        ∀ n, (∀ t, modifiedProd.dec n = some t → n ∈ namesOf es ∧ some t = some t) →
          InStep samplePlain n s' :=
  ⟨by decide, envStatus_iff (fun _ _ _ => rfl) working_decrypts modifiedProd_decrypts⟩

end

end Fiducia.Dotenv.Store
