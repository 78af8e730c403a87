import FiduciaPayments.Lib.Python

/-!
# Python's standard streams

The streams are UTF-8, with an error handler. Under `strict`, bytes that are not
UTF-8 raise, and so do surrogates that are printed. Under `surrogateescape`,
Python's handler in the locales C, POSIX and C.UTF-8, a byte at which no
character begins is read as a surrogate, and written as that byte.

* `decode_strict_iff`: a strict stream reads what `str.encode` encodes;
* `readAll_append`: bytes are read in parts that begin with a first byte;
* `readAll_bytes_eq_self_iff`: a text that is written is read back as it was
  unless some of its escaped bytes together spell a character.
-/

namespace Lib.Python

inductive Errors where
  | strict
  | surrogateescape
  deriving DecidableEq

/-- The surrogate of a byte that is not decoded. -/
def escaped (b : UInt8) : CodePoint := Fin.ofNat 0x110000 (0xDC00 + b.toNat)

/-- The text of bytes after those that are to be skipped. -/
def readFrom : Nat → List UInt8 → PyStr
  | _, [] => []
  | skip + 1, _ :: bs => readFrom skip bs
  | 0, b :: bs =>
    match Utf8.readChar (b :: bs) with
    | some c => ofChar c :: readFrom (c.utf8Size - 1) bs
    | none => escaped b :: readFrom 0 bs

/-- The text of bytes, with the bytes of no character escaped. -/
def readAll (bs : List UInt8) : PyStr := readFrom 0 bs

/-- What a stream reads. -/
def Errors.decode (errors : Errors) (bs : List UInt8) : Option PyStr :=
  match errors with
  | .strict => if (readAll bs).all isScalar then some (readAll bs) else none
  | .surrogateescape => some (readAll bs)

/-- A character, or an escaped byte. -/
def isPrinted (c : CodePoint) : Bool := isScalar c || isEscaped c

/-- A code point that a stream prints. -/
def Errors.prints (errors : Errors) (c : CodePoint) : Bool :=
  match errors with
  | .strict => isScalar c
  | .surrogateescape => isPrinted c

/-- What a stream prints of a text. -/
def Errors.encode (errors : Errors) (s : PyStr) : Option (List UInt8) :=
  if s.all errors.prints then some (bytes s) else none

/-! ## Reading -/

theorem readFrom_eq : ∀ (skip : Nat) (bs : List UInt8), readFrom skip bs = readAll (bs.drop skip)
  | 0, _ => rfl
  | _ + 1, [] => rfl
  | skip + 1, _ :: bs => readFrom_eq skip bs

theorem readAll_nil : readAll [] = [] := rfl

/-- A character is read off the front. -/
theorem readAll_char (c : Char) (bs : List UInt8) :
    readAll (String.utf8EncodeChar c ++ bs) = ofChar c :: readAll bs := by
  obtain ⟨b, ds, hc, -, -⟩ := Utf8.exists_encodeChar c
  have hread := Utf8.readChar_append c bs
  have hlen := String.length_utf8EncodeChar c
  rw [hc, List.length_cons] at hlen
  rw [hc, List.cons_append] at hread ⊢
  rw [readAll, readFrom, hread]
  simp only
  rw [readFrom_eq, ← hlen, Nat.add_sub_cancel, List.drop_left]

/-- A byte at which no character begins is escaped. -/
theorem readAll_escaped {b : UInt8} {bs : List UInt8} (h : Utf8.readChar (b :: bs) = none) :
    readAll (b :: bs) = escaped b :: readAll bs := by
  rw [readAll, readFrom, h]
  rfl

/-- An ASCII byte is a character. -/
theorem le_of_readChar_eq_none {b : UInt8} {bs : List UInt8}
    (h : Utf8.readChar (b :: bs) = none) : 0x80 ≤ b.toNat := by
  by_contra hb
  have hn : (Char.ofNat b.toNat).toNat = b.toNat := by
    rw [Char.ofNat, dif_pos (show b.toNat.isValidChar from .inl (by omega))]
    rfl
  have hc : String.utf8EncodeChar (Char.ofNat b.toNat) = [b] := by
    rw [Utf8.encodeChar_of_ascii (by omega), hn, UInt8.ofNat_toNat]
  have hread := Utf8.readChar_append (Char.ofNat b.toNat) bs
  rw [hc, List.singleton_append, h] at hread
  simp at hread

/-- The bytes of an encoding that bytes begin with end before the first byte of
another. -/
theorem prefix_of_prefix_append {c : Char} {x y : List UInt8} (hx : x ≠ [])
    (hy : ∀ b ∈ y.head?, ¬ Utf8.IsContinuation b) (h : String.utf8EncodeChar c <+: x ++ y) :
    String.utf8EncodeChar c <+: x := by
  rcases List.prefix_or_prefix_of_prefix h (List.prefix_append x y) with h' | ⟨r, hr⟩
  · exact h'
  · obtain ⟨b, ds, hc, -, hds⟩ := Utf8.exists_encodeChar c
    obtain ⟨a, x, rfl⟩ := List.exists_cons_of_ne_nil hx
    cases r with
    | nil =>
      exact ⟨[], by rw [List.append_nil, ← hr, List.append_nil]⟩
    | cons d r =>
      rw [← hr] at h
      obtain ⟨s, hs⟩ := (List.prefix_append_right_inj _).mp h
      rw [hc, List.cons_append] at hr
      have hd : d ∈ ds := (List.cons.inj hr).2 ▸ List.mem_append_right _ List.mem_cons_self
      exact absurd (hds d hd) (hy d (by rw [← hs]; rfl))

/-- Bytes are read in parts, the second of which begins with no byte from the
middle of a character. -/
theorem readAll_append {y : List UInt8} (hy : ∀ b ∈ y.head?, ¬ Utf8.IsContinuation b) :
    ∀ {n : Nat} {x : List UInt8}, x.length ≤ n → readAll (x ++ y) = readAll x ++ readAll y
  | _, [], _ => rfl
  | n + 1, b :: x, hn => by
    cases hread : Utf8.readChar (b :: x ++ y) with
    | some c =>
      obtain ⟨r, hr⟩ := prefix_of_prefix_append (List.cons_ne_nil b x) hy
        (Utf8.readChar_eq_some_iff.mp hread)
      have hlen : r.length ≤ n := by
        have h1 := congrArg List.length hr
        have h2 := c.utf8Size_pos
        rw [List.length_append, String.length_utf8EncodeChar] at h1
        rw [← h1] at hn
        omega
      rw [← hr, List.append_assoc, readAll_char, readAll_char, readAll_append hy hlen,
        List.cons_append]
    | none =>
      have hnone : Utf8.readChar (b :: x) = none := by
        cases h : Utf8.readChar (b :: x) with
        | none => rfl
        | some c =>
          have h' := Utf8.readChar_eq_some_iff.mpr
            ((Utf8.readChar_eq_some_iff.mp h).trans (List.prefix_append _ y))
          rw [hread] at h'
          exact h'.symm
      rw [List.cons_append] at hread ⊢
      rw [readAll_escaped hread, readAll_escaped hnone,
        readAll_append hy (Nat.le_of_succ_le_succ hn), List.cons_append]

/-- No character begins with a byte from the middle of one. -/
theorem readChar_of_isContinuation {d : UInt8} {bs : List UInt8} (hd : Utf8.IsContinuation d) :
    Utf8.readChar (d :: bs) = none := by
  cases hread : Utf8.readChar (d :: bs) with
  | none => rfl
  | some c =>
    obtain ⟨b, ds, hc, hb, -⟩ := Utf8.exists_encodeChar c
    have hpre := Utf8.readChar_eq_some_iff.mp hread
    rw [hc, List.cons_prefix_cons] at hpre
    exact absurd (hpre.1 ▸ hd) hb

/-- Such bytes are all escaped. -/
theorem readAll_continuations : ∀ {ds : List UInt8}, (∀ d ∈ ds, Utf8.IsContinuation d) →
    readAll ds = ds.map escaped
  | [], _ => rfl
  | d :: ds, h => by
    obtain ⟨hd, hds⟩ := List.forall_mem_cons.mp h
    rw [readAll_escaped (readChar_of_isContinuation hd), readAll_continuations hds, List.map_cons]

/-! ## Bytes of a text that was read -/

theorem val_escaped (b : UInt8) : (escaped b).val = 0xDC00 + b.toNat := by
  have := b.toNat_lt
  rw [escaped, Fin.val_ofNat]
  omega

theorem isEscaped_escaped {b : UInt8} (h : 0x80 ≤ b.toNat) :
    isEscaped (escaped b) = true ∧ codeBytes (escaped b) = [b] := by
  have hb := b.toNat_lt
  have hesc : isEscaped (escaped b) = true := by
    rw [isEscaped, val_escaped, Bool.and_eq_true, decide_eq_true_eq, decide_eq_true_eq]
    omega
  refine ⟨hesc, ?_⟩
  rw [codeBytes, if_pos hesc, val_escaped, Nat.add_sub_cancel_left, UInt8.ofNat_toNat]

/-- A text that was read has the bytes that were read. -/
theorem bytes_readAll : ∀ {n : Nat} {bs : List UInt8}, bs.length ≤ n →
    bytes (readAll bs) = bs ∧ ∀ c ∈ readAll bs, isPrinted c
  | _, [], _ => ⟨rfl, nofun⟩
  | n + 1, b :: bs, hn => by
    cases hread : Utf8.readChar (b :: bs) with
    | some c =>
      obtain ⟨r, hr⟩ := Utf8.readChar_eq_some_iff.mp hread
      have hlen : r.length ≤ n := by
        have h1 := congrArg List.length hr
        have h2 := c.utf8Size_pos
        rw [List.length_append, String.length_utf8EncodeChar] at h1
        rw [← h1] at hn
        omega
      obtain ⟨hbytes, hall⟩ := bytes_readAll hlen
      rw [← hr, readAll_char, bytes_cons, bytes_singleton, codeBytes_ofChar, hbytes]
      refine ⟨rfl, List.forall_mem_cons.mpr ⟨?_, hall⟩⟩
      rw [isPrinted, isScalar_ofChar, Bool.true_or]
    | none =>
      obtain ⟨hesc, hb⟩ := isEscaped_escaped (le_of_readChar_eq_none hread)
      obtain ⟨hbytes, hall⟩ := bytes_readAll (Nat.le_of_succ_le_succ hn)
      rw [readAll_escaped hread, bytes_cons, bytes_singleton, hb, hbytes]
      refine ⟨rfl, List.forall_mem_cons.mpr ⟨?_, hall⟩⟩
      rw [isPrinted, hesc, Bool.or_true]

/-- The front of bytes is read as the front of their text, and the bytes of a
character that is cut, escaped. -/
theorem readAll_part : ∀ {n : Nat} {out stream : List UInt8}, out.length ≤ n → out <+: stream →
    ∃ p q, readAll out = p ++ q ∧ p <+: readAll stream ∧ ∀ c ∈ q, isEscaped c
  | _, [], _, _, _ => ⟨[], [], rfl, List.nil_prefix, nofun⟩
  | n + 1, b :: o, stream, hn, h => by
    obtain ⟨r, rfl⟩ := h
    cases hread : Utf8.readChar (b :: o) with
    | some c =>
      obtain ⟨rest, hrest⟩ := Utf8.readChar_eq_some_iff.mp hread
      have hlen : rest.length ≤ n := by
        have h1 := congrArg List.length hrest
        have h2 := c.utf8Size_pos
        rw [List.length_append, String.length_utf8EncodeChar] at h1
        rw [← h1] at hn
        omega
      obtain ⟨p, q, hpq, hp, hq⟩ := readAll_part hlen (List.prefix_append rest r)
      refine ⟨ofChar c :: p, q, ?_, ?_, hq⟩
      · rw [← hrest, readAll_char, hpq, List.cons_append]
      · rw [← hrest, List.append_assoc, readAll_char, List.cons_prefix_cons]
        exact ⟨rfl, hp⟩
    | none =>
      rw [readAll_escaped hread, List.cons_append]
      cases hwhole : Utf8.readChar (b :: (o ++ r)) with
      | none =>
        obtain ⟨p, q, hpq, hp, hq⟩ :=
          readAll_part (Nat.le_of_succ_le_succ hn) (List.prefix_append o r)
        refine ⟨escaped b :: p, q, by rw [hpq, List.cons_append], ?_, hq⟩
        rw [readAll_escaped hwhole, List.cons_prefix_cons]
        exact ⟨rfl, hp⟩
      | some c =>
        -- The character of the whole begins here, and its end is cut off.
        obtain ⟨a, ds, hc, -, hds⟩ := Utf8.exists_encodeChar c
        have hpre := Utf8.readChar_eq_some_iff.mp hwhole
        have hcut : o <+: ds := by
          rcases List.prefix_or_prefix_of_prefix hpre (List.prefix_append (b :: o) r) with h' | h'
          · rw [Utf8.readChar_eq_some_iff.mpr h'] at hread
            simp at hread
          · rw [hc, List.cons_prefix_cons] at h'
            exact h'.2
        have ho : ∀ d ∈ o, Utf8.IsContinuation d := fun d hd => hds d (hcut.subset hd)
        refine ⟨[], escaped b :: o.map escaped, ?_, List.nil_prefix, ?_⟩
        · rw [readAll_continuations ho, List.nil_append]
        · refine List.forall_mem_cons.mpr ⟨(isEscaped_escaped (le_of_readChar_eq_none hread)).1, ?_⟩
          exact List.forall_mem_map.mpr fun d hd => (isEscaped_escaped (ho d hd).1).1

/-- A text of characters is read back. -/
theorem readAll_bytes_append : ∀ {s : PyStr}, (∀ c ∈ s, isScalar c) → ∀ bs : List UInt8,
    readAll (bytes s ++ bs) = s ++ readAll bs
  | [], _, _ => rfl
  | c :: s, h, bs => by
    obtain ⟨hc, hs⟩ := List.forall_mem_cons.mp h
    have hback : ofChar (toChar c) = c :=
      Fin.ext (by rw [ofChar, toNat_toChar hc]; exact Nat.mod_eq_of_lt c.isLt)
    rw [bytes_cons, bytes_singleton, codeBytes_of_isScalar hc, List.append_assoc, readAll_char,
      readAll_bytes_append hs, hback, List.cons_append]

theorem readAll_bytes_of_isScalar {s : PyStr} (h : ∀ c ∈ s, isScalar c) :
    readAll (bytes s) = s := by
  have := readAll_bytes_append h []
  rwa [List.append_nil, readAll_nil, List.append_nil] at this

/-- A strict stream reads the text whose encoding it holds. -/
theorem decode_strict_iff {bs : List UInt8} {s : PyStr} :
    Errors.strict.decode bs = some s ↔ encode s = some bs := by
  show (if (readAll bs).all isScalar = true then some (readAll bs) else none) = some s ↔ _
  rw [Option.ite_none_right_eq_some, List.all_eq_true, Option.some.injEq, encode_eq_some_iff]
  constructor
  · rintro ⟨hs, rfl⟩
    exact ⟨hs, (bytes_readAll (Nat.le_refl _)).1⟩
  · rintro ⟨hs, rfl⟩
    rw [readAll_bytes_of_isScalar hs]
    exact ⟨hs, rfl⟩

/-- Whatever the handler, a stream is read as its bytes are. -/
theorem readAll_of_decode {errors : Errors} {bs : List UInt8} {s : PyStr}
    (h : errors.decode bs = some s) : readAll bs = s := by
  cases errors with
  | strict => exact Option.some.inj (Option.ite_none_right_eq_some.mp h).2
  | surrogateescape => exact Option.some.inj h

theorem Errors.encode_eq_some_iff {errors : Errors} {s : PyStr} {out : List UInt8} :
    errors.encode s = some out ↔ (∀ c ∈ s, errors.prints c) ∧ bytes s = out := by
  unfold Errors.encode
  rw [Option.ite_none_right_eq_some, List.all_eq_true, Option.some.injEq]

theorem Errors.prints_of_isScalar {errors : Errors} {c : CodePoint} (h : isScalar c) :
    errors.prints c = true := by
  cases errors with
  | strict => exact h
  | surrogateescape => exact Bool.or_eq_true_iff.mpr (.inl h)

theorem Errors.isPrinted_of_prints {errors : Errors} {c : CodePoint} (h : errors.prints c = true) :
    isPrinted c = true := by
  cases errors with
  | strict => exact Bool.or_eq_true_iff.mpr (.inl h)
  | surrogateescape => exact h

/-- Whatever the handler, a text is printed as its bytes. -/
theorem bytes_of_encode {errors : Errors} {s : PyStr} {out : List UInt8}
    (h : errors.encode s = some out) : bytes s = out ∧ ∀ c ∈ s, isPrinted c :=
  have ⟨hs, hb⟩ := Errors.encode_eq_some_iff.mp h
  ⟨hb, fun c hc => Errors.isPrinted_of_prints (hs c hc)⟩

/-- What was printed is read as its bytes are. -/
theorem decode_of_encode {errors : Errors} {s : PyStr} {out : List UInt8}
    (h : errors.encode s = some out) : errors.decode out = some (readAll (bytes s)) := by
  obtain ⟨hs, rfl⟩ := Errors.encode_eq_some_iff.mp h
  cases errors with
  | strict =>
    rw [decode_strict_iff, readAll_bytes_of_isScalar hs]
    exact Python.encode_eq_some_iff.mpr ⟨hs, rfl⟩
  | surrogateescape => rfl

/-! ## Texts read back -/

/-- Some escaped bytes of a text, one after the other, spell a character. -/
def Spells (s : PyStr) : Prop := ∃ c : Char, (String.utf8EncodeChar c).map escaped <:+: s

theorem isScalar_escaped (b : UInt8) : isScalar (escaped b) = false := by
  have := b.toNat_lt
  rw [isScalar, val_escaped, Bool.or_eq_false_iff, decide_eq_false_iff_not,
    decide_eq_false_iff_not]
  omega

/-- No character begins with an escaped byte. -/
theorem not_prefix_of_isScalar {c : Char} {d : CodePoint} {s : PyStr} (hd : isScalar d) :
    ¬ (String.utf8EncodeChar c).map escaped <+: d :: s := by
  obtain ⟨b, ds, he, -, -⟩ := Utf8.exists_encodeChar c
  rw [he, List.map_cons, List.cons_prefix_cons]
  rintro ⟨rfl, -⟩
  rw [isScalar_escaped] at hd
  exact Bool.false_ne_true hd

theorem spells_cons_iff {d : CodePoint} {s : PyStr} : Spells (d :: s) ↔
    (∃ c : Char, (String.utf8EncodeChar c).map escaped <+: d :: s) ∨ Spells s := by
  simp only [Spells, List.infix_cons_iff, exists_or]

/-- A text without surrogates has no escaped byte. -/
theorem not_spells_of_isScalar : ∀ {s : PyStr}, (∀ c ∈ s, isScalar c) → ¬ Spells s
  | [], _ => fun ⟨c, h⟩ => by
    obtain ⟨b, ds, he, -, -⟩ := Utf8.exists_encodeChar c
    rw [he] at h
    exact absurd (List.infix_nil.mp h) (List.cons_ne_nil _ _)
  | c :: s, h => by
    obtain ⟨hc, hs⟩ := List.forall_mem_cons.mp h
    rw [spells_cons_iff]
    rintro (⟨d, hd⟩ | hd)
    · exact not_prefix_of_isScalar hc hd
    · exact not_spells_of_isScalar hs hd

/-- A code point is an escaped byte if it is printed as one. -/
theorem exists_escaped {c : CodePoint} (h : isEscaped c = true) :
    ∃ b : UInt8, c = escaped b ∧ 0x80 ≤ b.toNat ∧ codeBytes c = [b] := by
  have hc := h
  simp only [isEscaped, Bool.and_eq_true, decide_eq_true_eq] at hc
  have hb : (UInt8.ofNat (c.val - 0xDC00)).toNat = c.val - 0xDC00 := by
    rw [UInt8.toNat_ofNat', Nat.mod_eq_of_lt (by omega)]
  refine ⟨UInt8.ofNat (c.val - 0xDC00), Fin.ext ?_, by omega, by rw [codeBytes, if_pos h]⟩
  rw [val_escaped, hb]
  omega

/-- Continuation bytes that a text begins with are escaped bytes of it. -/
theorem map_escaped_prefix : ∀ {ds : List UInt8} {s : PyStr}, (∀ c ∈ s, isPrinted c) →
    (∀ d ∈ ds, Utf8.IsContinuation d) → ds <+: bytes s → ds.map escaped <+: s
  | [], _, _, _, _ => List.nil_prefix
  | d :: ds, [], _, _, h => absurd (List.prefix_nil.mp h) (List.cons_ne_nil d ds)
  | d :: ds, c :: s, hs, hds, h => by
    obtain ⟨hc, hcs⟩ := List.forall_mem_cons.mp hs
    obtain ⟨hd, hds⟩ := List.forall_mem_cons.mp hds
    rw [bytes_cons, bytes_singleton] at h
    rcases Bool.or_eq_true_iff.mp hc with hc | hc
    · obtain ⟨b, bs, he, hb, -⟩ := Utf8.exists_encodeChar (toChar c)
      rw [codeBytes_of_isScalar hc, he, List.cons_append, List.cons_prefix_cons] at h
      exact absurd (h.1 ▸ hd) hb
    · obtain ⟨b, rfl, -, hb⟩ := exists_escaped hc
      rw [hb, List.singleton_append, List.cons_prefix_cons] at h
      obtain ⟨rfl, h⟩ := h
      rw [List.map_cons, List.cons_prefix_cons]
      exact ⟨rfl, map_escaped_prefix hcs hds h⟩

/-- The bytes of escaped bytes. -/
theorem bytes_map_escaped : ∀ {bs : List UInt8}, (∀ c ∈ bs.map escaped, isPrinted c) →
    bytes (bs.map escaped) = bs
  | [], _ => rfl
  | b :: bs, h => by
    obtain ⟨hb, hbs⟩ := List.forall_mem_cons.mp h
    rw [isPrinted, isScalar_escaped, Bool.false_or, isEscaped, val_escaped] at hb
    simp only [Bool.and_eq_true, decide_eq_true_eq] at hb
    rw [List.map_cons, bytes_cons, bytes_singleton, (isEscaped_escaped (by omega)).2,
      bytes_map_escaped hbs, List.singleton_append]

/-- A text that is printed is read back as it was exactly when no escaped bytes of
it spell a character. -/
theorem readAll_bytes_eq_self_iff : ∀ {s : PyStr}, (∀ c ∈ s, isPrinted c) →
    (readAll (bytes s) = s ↔ ¬ Spells s)
  | [], _ => iff_of_true rfl (not_spells_of_isScalar nofun)
  | c :: s, hprinted => by
    obtain ⟨hc, hs⟩ := List.forall_mem_cons.mp hprinted
    have ih := readAll_bytes_eq_self_iff hs
    rw [spells_cons_iff, not_or, ← ih]
    rcases Bool.or_eq_true_iff.mp hc with hc | hc
    · have hone : ∀ d ∈ [c], isScalar d := List.forall_mem_singleton.mpr hc
      rw [bytes_cons, readAll_bytes_append hone, List.singleton_append, List.cons_inj_right]
      exact ⟨fun h => ⟨fun ⟨d, hd⟩ => not_prefix_of_isScalar hc hd, h⟩, And.right⟩
    · obtain ⟨b, rfl, -, hb⟩ := exists_escaped hc
      rw [bytes_cons, bytes_singleton, hb, List.singleton_append]
      cases hread : Utf8.readChar (b :: bytes s) with
      | some d =>
        -- The byte begins a character, whose other bytes are escaped too.
        obtain ⟨e, ds, he, -, hds⟩ := Utf8.exists_encodeChar d
        have hpre := Utf8.readChar_eq_some_iff.mp hread
        obtain ⟨r, hr⟩ := hpre
        refine iff_of_false (fun h => ?_) (fun h => h.1 ⟨d, ?_⟩)
        · rw [← hr, readAll_char] at h
          have hscalar := isScalar_ofChar d
          rw [(List.cons.inj h).1, isScalar_escaped] at hscalar
          exact Bool.false_ne_true hscalar
        · rw [he, List.cons_append] at hr
          obtain ⟨rfl, htail⟩ := List.cons.inj hr
          rw [he, List.map_cons, List.cons_prefix_cons]
          exact ⟨rfl, map_escaped_prefix hs hds ⟨r, htail⟩⟩
      | none =>
        rw [readAll_escaped hread, List.cons_inj_right]
        refine ⟨fun h => ⟨fun ⟨d, hd⟩ => ?_, h⟩, And.right⟩
        have hbytes := bytes_map_escaped fun e he => hprinted e (hd.subset he)
        obtain ⟨r, hr⟩ := hd
        have hpre : String.utf8EncodeChar d <+: b :: bytes s := by
          have := congrArg bytes hr
          rw [bytes_append, hbytes, bytes_cons, bytes_singleton, hb, List.singleton_append] at this
          exact ⟨_, this⟩
        rw [Utf8.readChar_eq_some_iff.mpr hpre] at hread
        simp at hread

/-! ## ASCII -/

/-- The ASCII characters of a text are the ASCII bytes of its bytes. -/
theorem asciiCount_eq_countP : ∀ {s : PyStr}, (∀ c ∈ s, isPrinted c) →
    asciiCount s = (bytes s).countP fun b => b.toNat < 0x80
  | [], _ => rfl
  | c :: s, h => by
    obtain ⟨hc, hs⟩ := List.forall_mem_cons.mp h
    have hone : asciiCount [c] = (bytes [c]).countP fun b => b.toNat < 0x80 := by
      by_cases hlt : c.val < 0x80
      · have hb : (UInt8.ofNat c.val).toNat = c.val := by
          rw [UInt8.toNat_ofNat', Nat.mod_eq_of_lt (by omega)]
        rw [bytes_singleton_of_ascii hlt, asciiCount_singleton, if_pos hlt, List.countP_singleton,
          hb, decide_eq_true hlt, if_pos rfl]
      · rw [asciiCount_singleton, if_neg hlt, eq_comm, List.countP_eq_zero]
        intro b hb
        rw [decide_eq_true_eq, Nat.not_lt]
        rcases Bool.or_eq_true_iff.mp hc with hc | hc
        · exact le_of_mem_bytes_singleton hc (Nat.not_lt.mp hlt) b hb
        · obtain ⟨d, -, hd, hbytes⟩ := exists_escaped hc
          rw [bytes_singleton, hbytes, List.mem_singleton] at hb
          rwa [hb]
    rw [← List.singleton_append, asciiCount_append, bytes_append, List.countP_append, hone,
      asciiCount_eq_countP hs]

/-- Writing and reading a text keeps its ASCII characters. -/
theorem asciiCount_readAll_bytes {s : PyStr} (h : ∀ c ∈ s, isPrinted c) :
    asciiCount (readAll (bytes s)) = asciiCount s := by
  obtain ⟨hb, hall⟩ := bytes_readAll (Nat.le_refl (bytes s).length)
  rw [asciiCount_eq_countP hall, hb, asciiCount_eq_countP h]

/-- It adds none. -/
theorem mem_of_mem_readAll_bytes {s : PyStr} {d : Char} (h0 : d ≠ Char.ofNat 0)
    (hd : d.toNat < 0x80) (h : ofChar d ∈ readAll (bytes s)) : ofChar d ∈ s := by
  obtain ⟨hb, -⟩ := bytes_readAll (Nat.le_refl (bytes s).length)
  refine mem_of_mem_bytes h0 hd (hb ▸ List.mem_flatMap.mpr ⟨_, h, ?_⟩)
  rw [codeBytes_ofChar, Utf8.encodeChar_of_ascii hd]
  exact List.mem_singleton_self _

end Lib.Python
