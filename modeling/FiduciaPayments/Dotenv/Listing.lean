import FiduciaPayments.Dotenv.Quoted
import FiduciaPayments.Lib.Loop

/-!
# `env-list`

The names that `env-list` finds in the ciphertexts with `grep`, beside those
that `dotenv.py` finds in the plaintexts. sops leaves the name of a variable in
front of its value, so they are the same but for the lines that begin with
`export `, which only `dotenv.py` takes for variables. The recipe runs under
`pipefail`, and a `grep` that prints nothing fails: it stops at the first
environment in which it finds no name (`envList_eq`).
-/

namespace Fiducia.Dotenv.Listing

open Lib.Loop Lib.Python Lib.Text

abbrev Name := List UInt8

/-- The name that a line of a ciphertext adds:
`grep -oE '^[A-Za-z_][A-Za-z0-9_]*=' | tr -d '=' | grep -v '^sops_'`. -/
def listedKey (line : PyStr) : Option Key :=
  ((matchLine line).map Prod.fst).filter fun k => !(lit "sops_").isPrefixOf k.val

def listedKeys (file : List PyStr) : List Key := file.filterMap listedKey

/-- A round of `env-list`, and the rows that were printed. The assignment to
`keys` fails with the last `grep` when there is no name. -/
def listRound (f : Name × List PyStr) (rows : List (Name × List Key)) :
    List (Name × List Key) × Bool :=
  let keys := listedKeys f.2
  if keys = [] then (rows, false) else (rows ++ [(f.1, keys)], true)

/-- `env-list` of the files that `*.env.enc` finds. -/
def envList (files : List (Name × List PyStr)) :
    List (Name × List Key) × Option (Name × List PyStr) :=
  forEach listRound files []

/-! ## The loop -/

theorem forEach_listRound : ∀ (files : List (Name × List PyStr)) (rows : List (Name × List Key)),
    forEach listRound files rows =
      (rows ++ (files.takeWhile fun f => listedKeys f.2 ≠ []).map fun f => (f.1, listedKeys f.2),
        (files.dropWhile fun f => listedKeys f.2 ≠ []).head?)
  | [], rows => by simp [forEach]
  | f :: files, rows => by
    by_cases h : listedKeys f.2 = []
    · have hround : listRound f rows = (rows, false) := if_pos h
      rw [forEach_failed hround, List.takeWhile_cons_of_neg (by simpa using h),
        List.dropWhile_cons_of_neg (by simpa using h), List.map_nil, List.append_nil]
      rfl
    · have hround : listRound f rows = (rows ++ [(f.1, listedKeys f.2)], true) := if_neg h
      rw [forEach_ok hround, forEach_listRound, List.takeWhile_cons_of_pos (by simpa using h),
        List.dropWhile_cons_of_pos (by simpa using h), List.append_assoc]
      rfl

/-- `env-list` lists the environments before the first in which it finds no
name, and stops there. -/
theorem envList_eq (files : List (Name × List PyStr)) :
    envList files =
      ((files.takeWhile fun f => listedKeys f.2 ≠ []).map fun f => (f.1, listedKeys f.2),
        (files.dropWhile fun f => listedKeys f.2 ≠ []).head?) :=
  forEach_listRound files []

theorem envList_finished_iff {files : List (Name × List PyStr)} :
    (envList files).2 = none ↔ ∀ f ∈ files, listedKeys f.2 ≠ [] := by
  rw [envList_eq, List.head?_eq_none_iff, List.dropWhile_eq_nil_iff]
  simp

/-! ## Ciphertexts -/

/-- What sops makes of a line: the value of a comment or of a variable is
encrypted. -/
inductive Sealed : PyStr → PyStr → Prop where
  | comment (t c : PyStr) : Sealed (lit "#" ++ t) (lit "#" ++ c)
  | assignment {k v c : PyStr} : equals ∉ k → newline ∉ v → newline ∉ c →
      Sealed (k ++ equals :: v) (k ++ equals :: c)

/-- The lines of the ciphertext of some lines, with the rows of sops' own after
them. -/
def Encrypts (plain file : List PyStr) : Prop :=
  ∃ lines rows, file = lines ++ rows ∧ List.Forall₂ Sealed (plain.map rstripNewline) lines ∧
    ∀ row ∈ rows, (lit "sops_").isPrefixOf row = true

theorem prefix_of_prefix_append {p k v : PyStr} (hp : equals ∉ p) (h : p <+: k ++ equals :: v) :
    p <+: k := by
  rcases List.prefix_or_prefix_of_prefix h (List.prefix_append k _) with h' | ⟨r, rfl⟩
  · exact h'
  · cases r with
    | nil => exact ⟨[], by rw [List.append_nil, List.append_nil]⟩
    | cons c r =>
      have hc := (List.prefix_append_right_inj k).mp h
      rw [(List.cons_prefix_cons.mp hc).1] at hp
      exact absurd (List.mem_append_right k List.mem_cons_self) hp

/-- The row of a line is that of its name. -/
theorem listedKey_eq_some_iff {line : PyStr} {k : Key} : listedKey line = some k ↔
    (∃ v, matchLine line = some (k, v)) ∧ (lit "sops_").isPrefixOf k.val = false := by
  rw [listedKey, Option.filter_eq_some_iff, Option.map_eq_some_iff]
  simp

theorem matchLine_eq_some {line : PyStr} {k : Key} {v : PyStr} (h : matchLine line = some (k, v)) :
    line = k.val ++ equals :: v ∧ newline ∉ v := by
  unfold matchLine at h
  split at h
  · exact nomatch h
  · rename_i k' v' hs
    split at h
    · split at h
      · exact nomatch h
      · rename_i hk hn
        obtain ⟨rfl, rfl⟩ := Prod.mk.inj (Option.some.inj h)
        exact ⟨(splitOnce_eq_some_iff.mp hs).1, hn⟩
    · exact nomatch h

theorem matchLine_append {k v : PyStr} (hk : equals ∉ k) (hv : newline ∉ v) :
    matchLine (k ++ equals :: v) = if h : isKey k then some (⟨k, h⟩, v) else none := by
  unfold matchLine
  rw [splitOnce_append hk]
  simp only [if_neg hv]

theorem listedKey_row {row : PyStr} (h : (lit "sops_").isPrefixOf row = true) :
    listedKey row = none := by
  refine Option.eq_none_iff_forall_not_mem.mpr fun k hk => ?_
  obtain ⟨⟨v, hm⟩, hsops⟩ := listedKey_eq_some_iff.mp hk
  obtain ⟨rfl, -⟩ := matchLine_eq_some hm
  rw [List.isPrefixOf_iff_prefix] at h
  have := List.isPrefixOf_iff_prefix.mpr (prefix_of_prefix_append (by decide) h)
  rw [hsops] at this
  exact nomatch this

theorem listedKey_comment (t : PyStr) : listedKey (lit "#" ++ t) = none := by
  refine Option.eq_none_iff_forall_not_mem.mpr fun k hk => ?_
  obtain ⟨⟨v, hm⟩, -⟩ := listedKey_eq_some_iff.mp hk
  obtain ⟨c, s, hcons, -, hhash⟩ := exists_key_cons k
  have hline := (matchLine_eq_some hm).1
  rw [hcons] at hline
  exact hhash (List.cons.inj hline).1.symm

/-- A line and what sops makes of it have one name. -/
theorem Sealed.listedKey_eq {p c : PyStr} (h : Sealed p c) : listedKey c = listedKey p := by
  cases h with
  | comment t c => rw [listedKey_comment, listedKey_comment]
  | @assignment k v c hk hv hc =>
    rw [listedKey, listedKey, matchLine_append hk hv, matchLine_append hk hc]
    by_cases h : isKey k <;> simp [h]

theorem listedKeys_of_encrypts {plain file : List PyStr} (h : Encrypts plain file) :
    listedKeys file = plain.filterMap fun line => listedKey (rstripNewline line) := by
  obtain ⟨lines, rows, rfl, hall, hrows⟩ := h
  have hlines : lines.filterMap listedKey = (plain.map rstripNewline).filterMap listedKey := by
    clear hrows
    generalize plain.map rstripNewline = ps at hall
    induction hall with
    | nil => rfl
    | cons hs _ ih => rw [List.filterMap_cons, List.filterMap_cons, hs.listedKey_eq, ih]
  rw [listedKeys, List.filterMap_append, hlines, List.filterMap_map,
    List.filterMap_eq_nil_iff.mpr fun row hrow => listedKey_row (hrows row hrow), List.append_nil]
  rfl

/-! ## Plaintexts -/

/-- The name that `dotenv.py` finds in a line. -/
def declaredKey (line : PyStr) : Option Key :=
  let line := rstripNewline line
  listedKey (if (lit "export ").isPrefixOf line then line.drop 7 else line)

/-- A line that begins with `export `. -/
def isExport (line : PyStr) : Bool := (lit "export ").isPrefixOf (rstripNewline line)

theorem exists_cons_of_listedKey {line : PyStr} {k : Key} (h : listedKey line = some k) :
    ∃ c s, line = c :: s ∧ isSpace c = false ∧ c ≠ 0x23 := by
  obtain ⟨⟨v, hm⟩, -⟩ := listedKey_eq_some_iff.mp h
  obtain ⟨c, s, hcons, hspace, hhash⟩ := exists_key_cons k
  refine ⟨c, s ++ equals :: v, ?_, hspace, hhash⟩
  rw [(matchLine_eq_some hm).1, hcons, List.cons_append]

/-- A line with a name is neither blank nor a comment. -/
theorem not_skipped {line : PyStr} {k : Key} (h : declaredKey line = some k) :
    ¬ (strip (rstripNewline line) = [] ∨
      (lit "#").isPrefixOf (lstrip (rstripNewline line)) = true) := by
  obtain ⟨c, s, hcons, hspace, hhash⟩ :
      ∃ c s, rstripNewline line = c :: s ∧ isSpace c = false ∧ c ≠ 0x23 := by
    unfold declaredKey at h
    simp only at h
    split at h
    · rename_i hexport
      obtain ⟨t, ht⟩ := List.isPrefixOf_iff_prefix.mp hexport
      exact ⟨0x65, lit "xport " ++ t, ht.symm, by decide, by decide⟩
    · exact exists_cons_of_listedKey h
  rw [hcons, strip, trimBy_eq_nil_iff, lstrip, List.dropWhile_cons_of_neg (by simp [hspace]),
    List.isPrefixOf_iff_prefix]
  intro hskip
  rcases hskip with hblank | hcomment
  · have := hblank c List.mem_cons_self
    rw [hspace] at this
    exact Bool.false_ne_true this
  · exact hhash (List.cons_prefix_cons.mp hcomment).1.symm

section
variable {names : List UInt8 → Option CodePoint}

/-- `parseLine` takes the name and then the value. -/
theorem parseLine_key {line : PyStr} {pair : Option (Key × PyStr)}
    (h : parseLine names line = some pair) : declaredKey line = pair.map Prod.fst := by
  have hskip (h : declaredKey line ≠ none) :=
    not_skipped (Option.ne_none_iff_exists'.mp h).choose_spec
  unfold parseLine at h
  simp only at h
  split at h
  · rename_i hs
    rw [← Option.some.inj h]
    by_contra hne
    exact hskip hne hs
  · unfold declaredKey listedKey
    simp only
    generalize (if (lit "export ").isPrefixOf (rstripNewline line) then
      (rstripNewline line).drop 7 else rstripNewline line) = rest at h ⊢
    cases hm : matchLine rest with
    | none =>
      simp only [hm, Option.some.injEq] at h
      rw [← h]
      rfl
    | some kv =>
      obtain ⟨k, v⟩ := kv
      simp only [hm] at h
      split at h
      · rename_i hk
        rw [← Option.some.inj h]
        simp [List.isPrefixOf_iff_prefix.mp hk]
      · rename_i hk
        obtain ⟨v', -, rfl⟩ := Option.map_eq_some_iff.mp h
        rw [Bool.not_eq_true] at hk
        show Option.filter _ (some k) = some k
        rw [Option.filter_some_pos (by rw [hk]; rfl)]

theorem parse_keys : ∀ {ls : List PyStr} {pairs : List (Key × PyStr)},
    parse names ls = some pairs → pairs.map Prod.fst = ls.filterMap declaredKey
  | [], pairs, h => by
    rw [← Option.some.inj h]
    rfl
  | line :: ls, pairs, h => by
    obtain ⟨pair, hl, h⟩ := Option.bind_eq_some_iff.mp h
    obtain ⟨out, ho, e⟩ := Option.bind_eq_some_iff.mp h
    rw [← Option.some.inj e, List.map_append, parse_keys ho, List.filterMap_cons,
      parseLine_key hl]
    cases pair <;> rfl

end

/-- Only lines that begin with `export ` are read differently. -/
theorem listedKey_rstrip (line : PyStr) :
    listedKey (rstripNewline line) = if isExport line then none else declaredKey line := by
  unfold declaredKey isExport
  simp only
  split
  · rename_i h
    refine Option.eq_none_iff_forall_not_mem.mpr fun k hk => ?_
    obtain ⟨⟨v, hm⟩, -⟩ := listedKey_eq_some_iff.mp hk
    rw [(matchLine_eq_some hm).1, not_export] at h
    exact nomatch h
  · rfl

section
variable {α β : Type*} {f : α → Option β} {p : α → Bool}

theorem filterMap_ite_sublist : ∀ l : List α,
    (l.filterMap fun a => if p a then none else f a).Sublist (l.filterMap f)
  | [] => List.Sublist.refl []
  | a :: l => by
    have ih := filterMap_ite_sublist l
    rw [List.filterMap_cons, List.filterMap_cons]
    cases f a with
    | none => simpa using ih
    | some b =>
      cases p a with
      | false => exact ih.cons_cons b
      | true => exact ih.cons b

/-- Leaving some out changes nothing exactly if they add nothing. -/
theorem filterMap_ite_eq_iff : ∀ {l : List α},
    l.filterMap (fun a => if p a then none else f a) = l.filterMap f ↔
      ∀ a ∈ l, (f a).isSome → p a = false
  | [] => iff_of_true rfl nofun
  | a :: l => by
    have ih := filterMap_ite_eq_iff (l := l)
    rw [List.filterMap_cons, List.filterMap_cons, List.forall_mem_cons, ← ih]
    cases f a with
    | none => simp
    | some b =>
      cases p a with
      | false => simp
      | true =>
        have hlen := (filterMap_ite_sublist (f := f) (p := p) l).length_le
        refine iff_of_false (fun h => ?_) (fun h => nomatch h.1 rfl)
        have := congrArg List.length h
        rw [List.length_cons] at this
        simp only [if_true] at this
        omega

end

/-! ## Names listed and names declared -/

/-- An environment: its name, the lines of its plaintext and those of its
ciphertext. -/
structure Environment where
  name : Name
  plain : List PyStr
  file : List PyStr
  encrypts : Encrypts plain file

def Environment.listed (e : Environment) : Name × List PyStr := (e.name, e.file)

theorem Environment.listedKeys_eq (e : Environment) : listedKeys e.file =
    e.plain.filterMap fun line => if isExport line then none else declaredKey line := by
  rw [listedKeys_of_encrypts e.encrypts]
  exact congrArg (e.plain.filterMap ·) (funext listedKey_rstrip)

/-- `env-list` gets to its end exactly if every environment has a variable
outside the lines that begin with `export `; and it finds the names that
`dotenv.py` gives values to, in their order, exactly if no variable is in such
a line. -/
theorem env_list_names_iff (names : List UInt8 → Option CodePoint) (es : List Environment) :
    ((envList (es.map Environment.listed)).2 = none ↔
      ∀ e ∈ es, ∃ line ∈ e.plain, isExport line = false ∧ (declaredKey line).isSome) ∧
    ∀ e ∈ es, ∀ pairs, parse names e.plain = some pairs →
      (listedKeys e.file = pairs.map Prod.fst ↔
        ∀ line ∈ e.plain, (declaredKey line).isSome → isExport line = false) := by
  constructor
  · rw [envList_finished_iff, List.forall_mem_map]
    refine forall₂_congr fun e _ => ?_
    show listedKeys e.file ≠ [] ↔ _
    rw [e.listedKeys_eq, ne_eq, List.filterMap_eq_nil_iff]
    simp only [not_forall, exists_prop]
    refine exists_congr fun line => and_congr_right fun _ => ?_
    cases isExport line <;> simp [Option.isSome_iff_ne_none]
  · intro e _ pairs hp
    rw [e.listedKeys_eq, parse_keys hp, filterMap_ite_eq_iff]

/-- What `env-new` leaves: a comment. -/
def newEnvironment : Environment where
  name := [0x70]
  plain := [lit "# new\n"]
  file := [lit "#ENC[AES256_GCM]", lit "sops_mac=ENC[AES256_GCM]"]
  encrypts := ⟨[lit "#ENC[AES256_GCM]"], [lit "sops_mac=ENC[AES256_GCM]"], rfl,
    .cons (.comment (lit " new") (lit "ENC[AES256_GCM]")) .nil,
    List.forall_mem_singleton.mpr (by decide)⟩

theorem env_list_stops_at_new : (envList ([newEnvironment].map Environment.listed)).2 ≠ none := by
  intro h
  obtain ⟨line, hl, -, hd⟩ := (env_list_names_iff (fun _ => none) [newEnvironment]).1.mp h
    newEnvironment List.mem_cons_self
  rw [List.mem_singleton.mp hl] at hd
  exact absurd hd (by decide)

end Fiducia.Dotenv.Listing
