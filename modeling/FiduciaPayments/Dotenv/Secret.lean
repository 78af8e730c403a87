import FiduciaPayments.Dotenv.Loaders

/-!
# The Secret of k8s mode

The printed Secret has one line for each pair, in sorted order, and decoding
its data gives those pairs back (`secretData_k8s`). A value with a lone surrogate has
no encoding, so it has no line (`secretLine_eq_some_iff`).
-/

namespace Fiducia.Dotenv

open Lib.LastWins Lib.Python Lib.Shell Lib.Text

/-- A line of the Secret's data, as it is printed. -/
def secretEntry (p : Word × Word) : Word :=
  space :: space :: (p.1 ++ colon :: space :: Lib.Utf8.utf8 (Lib.Base64.encode p.2))

/-- A value without surrogates has a line, the Base64 of its bytes. -/
theorem secretLine_eq_some_iff {p : Key × PyStr} {line : PyStr} :
    secretLine p = some line ↔ (∀ c ∈ p.2, isScalar c) ∧
      lit "  " ++ p.1.val ++ lit ": " ++ (Lib.Base64.encode (bytes p.2)).map ofChar ++ lit "\n" =
        line := by
  simp only [secretLine, b64encode, Option.map_map, Option.map_eq_some_iff, encode_eq_some_iff,
    Function.comp_apply]
  refine ⟨fun ⟨bs, ⟨hs, hb⟩, h⟩ => ⟨hs, hb ▸ h⟩, fun ⟨hs, h⟩ => ⟨_, ⟨hs, rfl⟩, h⟩⟩

theorem bytes_secretLine {p : Key × PyStr} {line : PyStr} (h : secretLine p = some line) :
    bytes line = secretEntry (pairBytes p) ++ [Lib.Shell.newline] := by
  obtain ⟨-, rfl⟩ := secretLine_eq_some_iff.mp h
  rw [bytes_append, bytes_append, bytes_append, bytes_append, bytes_map_ofChar,
    show bytes (lit "  ") = [space, space] by decide,
    show bytes (lit ": ") = [colon, space] by decide,
    show bytes (lit "\n") = [Lib.Shell.newline] by decide]
  simp only [pairBytes, Prod.map_apply', keyBytes, secretEntry, List.append_assoc,
    List.cons_append, List.nil_append]

/-- The lines of the data exist when no value has a surrogate. -/
theorem mapM_secretLine : ∀ {pairs : List (Key × PyStr)} {ls : List PyStr},
    pairs.mapM secretLine = some ls → (∀ p ∈ pairs, ∀ c ∈ p.2, isScalar c) ∧
      bytes ls.flatten =
        (pairs.map pairBytes).flatMap fun p => secretEntry p ++ [Lib.Shell.newline]
  | [], ls, h => by
    cases h
    exact ⟨nofun, rfl⟩
  | p :: ps, ls, h => by
    rw [List.mapM_cons] at h
    obtain ⟨line, hline, h⟩ := Option.bind_eq_some_iff.mp h
    obtain ⟨rest, hrest, h⟩ := Option.bind_eq_some_iff.mp h
    cases h
    obtain ⟨hs, hb⟩ := mapM_secretLine hrest
    refine ⟨List.forall_mem_cons.mpr ⟨(secretLine_eq_some_iff.mp hline).1, hs⟩, ?_⟩
    rw [List.flatten_cons, bytes_append, bytes_secretLine hline, hb, List.map_cons,
      List.flatMap_cons]

/-! ## Reading the data -/

/-- Base64 is read back from its text. -/
theorem decode_utf8_encode (v : Word) :
    Lib.Base64.decode ((Lib.Utf8.utf8 (Lib.Base64.encode v)).map fun b => Char.ofNat b.toNat) =
      some v := by
  rw [Lib.Utf8.map_utf8_of_ascii fun c hc => (Lib.Base64.encode_ascii v c hc).2,
    Lib.Base64.decode_encode]

theorem dataLine_secretEntry {p : Word × Word} (hk : isName p.1) :
    dataLine (secretEntry p) = some p := by
  have hc : colon ∉ p.1 := notMem_of_isName hk (by decide)
  simp only [secretEntry, dataLine, and_self, if_true, splitOnce_append hc, Option.bind_some,
    decode_utf8_encode, Option.map_some]

theorem mapM_dataLine {pairs : List (Word × Word)} (hk : ∀ p ∈ pairs, isName p.1) :
    (pairs.map secretEntry).mapM dataLine = some pairs := by
  have h := mapM_map_eq_some (f := id) fun p hp => dataLine_secretEntry (hk p hp)
  rwa [List.map_id] at h

theorem newline_notMem_secretEntry {p : Word × Word} (hk : isName p.1) :
    Lib.Shell.newline ∉ secretEntry p := by
  have hname : Lib.Shell.newline ∉ p.1 := notMem_of_isName hk (by decide)
  have hvalue : Lib.Shell.newline ∉ Lib.Utf8.utf8 (Lib.Base64.encode p.2) := by
    intro h
    have hc := (Lib.Utf8.mem_utf8_iff_of_ascii (c := '\n') (by decide)).mp h
    exact absurd (Lib.Base64.encode_ascii p.2 _ hc).1 (by decide)
  simp only [secretEntry, List.mem_cons, List.mem_append, hname, hvalue, or_false]
  decide

/-- The data after a `data:` line is read back, whatever stands before it. -/
theorem secretData_lines {pairs : List (Word × Word)} (hk : ∀ p ∈ pairs, isName p.1)
    (before : List UInt8) :
    secretData (before ++ Lib.Shell.newline :: (dataKey ++ Lib.Shell.newline ::
      pairs.flatMap fun p => secretEntry p ++ [Lib.Shell.newline])) = some pairs := by
  have hentries : ((pairs.flatMap fun p => secretEntry p ++ [Lib.Shell.newline]).splitOn
      Lib.Shell.newline) = pairs.map secretEntry ++ [[]] := by
    rw [← List.flatMap_map secretEntry fun l => l ++ [Lib.Shell.newline],
      splitOn_terminated (List.forall_mem_map.mpr fun p hp => newline_notMem_secretEntry (hk p hp))]
  have hne : ∀ l ∈ pairs.map secretEntry, l ≠ [] ∧ l ≠ dataKey :=
    List.forall_mem_map.mpr fun p _ => ⟨List.cons_ne_nil _ _, fun e => by cases e⟩
  have hlast : dataKey ∉ pairs.map secretEntry ++ [[]] := by
    intro h
    rcases List.mem_append.mp h with h | h
    · exact (hne _ h).2 rfl
    · exact absurd h (by decide)
  have hfilter : (pairs.map secretEntry ++ [[]]).filter (· ≠ []) = pairs.map secretEntry := by
    rw [List.filter_append, List.filter_eq_self.mpr fun l hl => decide_eq_true (hne l hl).1]
    exact List.append_nil _
  simp only [secretData]
  rw [List.splitOn_append_cons_self, List.splitOn_append_cons_self_of_not_mem (by decide), hentries,
    if_pos (by simp), rtakeWhile_append_cons _ hlast, hfilter, mapM_dataLine hk]

theorem bytes_secretHeader (name : PyStr) :
    bytes (secretHeader name) =
      bytes (lit "apiVersion: v1\nkind: Secret\nmetadata:\n  name: " ++ name ++
        lit "\ntype: Opaque") ++ Lib.Shell.newline :: (dataKey ++ [Lib.Shell.newline]) := by
  have hdata : bytes (lit "\ntype: Opaque\ndata:") =
      bytes (lit "\ntype: Opaque") ++ Lib.Shell.newline :: dataKey := by decide
  unfold secretHeader
  rw [bytes_append, bytes_append, hdata, bytes_append _ (lit "\ntype: Opaque"),
    show bytes (lit "\n") = [Lib.Shell.newline] by decide]
  simp only [List.append_assoc, List.cons_append]

/-- Decoding a printed Secret gives the sorted pairs. -/
theorem secretData_k8s {pairs : List (Key × PyStr)} {name text : PyStr}
    (h : render .k8s name pairs = some text) :
    secretData (bytes text) = some ((sorted pairs).map pairBytes) := by
  obtain ⟨ls, hls, rfl⟩ := Option.map_eq_some_iff.mp h
  rw [bytes_append, (mapM_secretLine hls).2, bytes_secretHeader, List.append_assoc,
    List.cons_append, List.append_assoc dataKey, List.singleton_append]
  exact secretData_lines (List.forall_mem_map.mpr fun p _ => isName_keyBytes p.1) _

end Fiducia.Dotenv
