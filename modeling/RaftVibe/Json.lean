/-
**JSON texts.**

A value is written as text, and read from the front of a text, which gives the value and the rest.
Only what is needed for records with fields in a fixed order is here: literal text, natural numbers,
strings and arrays of bytes.  The writer is the compact one, which puts no blanks between tokens; the
reader expects what it writes.

Main definitions:

* `Json.skip`, `Json.key` — literal text, and the key of a field;
* `Json.writeNat`, `Json.readNat` — a number of bounded size;
* `Json.writeString`, `Json.readString` — a string, with the escapes of control characters;
* `Json.writeBytes`, `Json.readBytes` — an array of bytes.

Main results:

* `Json.readNat_append`, `Json.readString_append`, `Json.readBytes_append` — **a value is read back**,
  whatever follows it.
-/

import RaftVibe.Text

set_option relaxedAutoImplicit false
set_option autoImplicit false

namespace Json

/-! ### Literal text -/

/-- Read the expected text. -/
def skip (expected text : List Char) : Option (List Char) :=
  if expected <+: text then some (text.drop expected.length) else none

@[simp] theorem skip_append (expected rest : List Char) :
    skip expected (expected ++ rest) = some rest := by
  simp [skip]

/-! ### Numbers -/

/-- A number in decimal. -/
def writeNat (n : ℕ) : List Char := Nat.toDigits 10 n

/-- Read a number of at most `max`. -/
def readNat (max : ℕ) (text : List Char) : Option (ℕ × List Char) :=
  match Text.fromStrRadix 10 max (text.takeWhile Char.isDigit) with
  | .ok n => some (n, text.dropWhile Char.isDigit)
  | .error _ => none

theorem isDigit_digitChar {d : ℕ} (hd : d < 10) : d.digitChar.isDigit = true := by
  have hall : ∀ d < 10, (Nat.digitChar d).isDigit = true := by decide
  exact hall d hd

theorem isDigit_writeNat {n : ℕ} {c : Char} (h : c ∈ writeNat n) : c.isDigit = true := by
  obtain ⟨d, hd, rfl⟩ := Text.mem_toDigits (by decide) h
  exact isDigit_digitChar hd

/-- A digit is no control character. -/
theorem printable_of_isDigit {c : Char} (h : c.isDigit = true) : 0x20 ≤ c.toNat := by
  simp only [Char.isDigit, Bool.and_eq_true, decide_eq_true_eq] at h
  have hle : 48 ≤ c.toNat := h.1
  omega

/-- **A number is read back**, if no digit follows. -/
theorem readNat_append {max n : ℕ} (hn : n ≤ max) {c : Char} (hc : c.isDigit = false)
    (rest : List Char) : readNat max (writeNat n ++ c :: rest) = some (n, c :: rest) := by
  have hdigits : ∀ c ∈ writeNat n, c.isDigit = true := fun c => isDigit_writeNat
  rw [readNat, List.takeWhile_append_of_pos hdigits, List.dropWhile_append_of_pos hdigits,
    List.takeWhile_cons_of_neg (by simp [hc]), List.dropWhile_cons_of_neg (by simp [hc]),
    List.append_nil, writeNat, Text.fromStrRadix_toDigits (by decide) (by decide) hn]

/-! ### Strings -/

/-- The quotation mark. -/
def quote : Char := Char.ofNat 0x22

/-- The character that begins an escape. -/
def backslash : Char := Char.ofNat 0x5C

/-- The characters that are escaped by one letter, with that letter. -/
def shortEscapes : List (Char × Char) :=
  [(quote, quote), (backslash, backslash), (Char.ofNat 0x08, 'b'), (Char.ofNat 0x0C, 'f'),
    ('\n', 'n'), ('\r', 'r'), ('\t', 't')]

/-- A character in a string. -/
def writeChar (c : Char) : List Char :=
  match shortEscapes.find? fun row => row.1 = c with
  | some row => [backslash, row.2]
  | none => if c.toNat < 0x20 then backslash :: 'u' :: Text.paddedHex 4 c.toNat else [c]

/-- Read the characters of a string, up to the quotation mark. -/
def readChars : List Char → Option (List Char × List Char)
  | [] => none
  | c :: rest =>
      if c = quote then some ([], rest)
      else if c = backslash then
        match rest with
        | 'u' :: h₁ :: h₂ :: h₃ :: h₄ :: rest =>
            match Text.fromStrRadix 16 0xFFFF [h₁, h₂, h₃, h₄] with
            | .ok n => (readChars rest).map fun r => (Char.ofNat n :: r.1, r.2)
            | .error _ => none
        | e :: rest =>
            match shortEscapes.find? fun row => row.2 = e with
            | some row => (readChars rest).map fun r => (row.1 :: r.1, r.2)
            | none => none
        | [] => none
      else (readChars rest).map fun r => (c :: r.1, r.2)

/-- A string. -/
def writeString (s : List Char) : List Char := quote :: s.flatMap writeChar ++ [quote]

/-- Read a string. -/
def readString (text : List Char) : Option (List Char × List Char) :=
  match text with
  | c :: rest => if c = quote then readChars rest else none
  | [] => none

/-- An escape of one letter is read back. -/
theorem readChars_shortEscape {row : Char × Char} (h : row ∈ shortEscapes) (rest : List Char) :
    readChars (backslash :: row.2 :: rest) = (readChars rest).map fun r => (row.1 :: r.1, r.2) := by
  have hall : ∀ row ∈ shortEscapes, readChars (backslash :: row.2 :: rest) =
      (readChars rest).map fun r => (row.1 :: r.1, r.2) := by
    simp only [shortEscapes, List.forall_mem_cons]
    exact ⟨rfl, rfl, rfl, rfl, rfl, rfl, rfl, by simp⟩
  exact hall row h

/-- An escape by number is read back. -/
theorem readChars_unicodeEscape {n : ℕ} (hn : n < 0x20) (rest : List Char) :
    readChars (backslash :: 'u' :: Text.paddedHex 4 n ++ rest) =
      (readChars rest).map fun r => (Char.ofNat n :: r.1, r.2) := by
  have hlength : ∀ n < 0x20, (Text.paddedHex 4 n).length = 4 := by decide
  have hread : Text.fromStrRadix 16 0xFFFF (Text.paddedHex 4 n) = .ok n :=
    Text.fromStrRadix_paddedHex (by omega)
  obtain ⟨h₁, h₂, h₃, h₄, heq⟩ := List.length_eq_four.1 (hlength n hn)
  rw [heq] at hread ⊢
  have hquote : backslash ≠ quote := by decide
  simp only [List.cons_append, List.nil_append]
  rw [readChars, if_neg hquote, if_pos rfl, hread]

/-- Other characters stand for themselves. -/
theorem readChars_cons {c : Char} (hquote : c ≠ quote) (hbackslash : c ≠ backslash)
    (rest : List Char) :
    readChars (c :: rest) = (readChars rest).map fun r => (c :: r.1, r.2) := by
  rw [readChars.eq_def]
  simp only
  rw [if_neg hquote, if_neg hbackslash]

theorem readChars_quote (rest : List Char) : readChars (quote :: rest) = some ([], rest) := by
  rw [readChars.eq_def]
  exact if_pos rfl

/-- **A character is read back.** -/
theorem readChars_writeChar (c : Char) (rest : List Char) :
    readChars (writeChar c ++ rest) = (readChars rest).map fun r => (c :: r.1, r.2) := by
  rw [writeChar]
  cases hfind : shortEscapes.find? fun row => row.1 = c with
  | some row =>
      obtain rfl : row.1 = c := by simpa using List.find?_some hfind
      exact readChars_shortEscape (List.mem_of_find?_eq_some hfind) rest
  | none =>
      simp only
      split
      · rename_i hlt
        rw [readChars_unicodeEscape hlt, Char.ofNat_toNat]
      · have hne : ∀ row ∈ shortEscapes, row.1 ≠ c := by simpa using hfind
        have hquote : c ≠ quote := (hne (quote, quote) (by decide)).symm
        have hbackslash : c ≠ backslash := (hne (backslash, backslash) (by decide)).symm
        exact readChars_cons hquote hbackslash rest

theorem readChars_append (s rest : List Char) :
    readChars (s.flatMap writeChar ++ quote :: rest) = some (s, rest) := by
  induction s with
  | nil => exact readChars_quote rest
  | cons c s ih => rw [List.flatMap_cons, List.append_assoc, readChars_writeChar, ih, Option.map_some]

/-- **A string is read back.** -/
theorem readString_append (s rest : List Char) :
    readString (writeString s ++ rest) = some (s, rest) := by
  rw [writeString, List.append_assoc, List.cons_append, readString, if_pos rfl]
  exact readChars_append s rest

/-- A string has no control characters. -/
theorem printable_writeString {s : List Char} {c : Char} (h : c ∈ writeString s) :
    0x20 ≤ c.toNat := by
  have hescapes : ∀ row ∈ shortEscapes, 0x20 ≤ row.2.toNat := by decide
  have hquote : 0x20 ≤ quote.toNat := by decide
  have hbackslash : 0x20 ≤ backslash.toNat := by decide
  simp only [writeString, List.mem_cons, List.mem_append, List.mem_flatMap, List.not_mem_nil,
    or_false] at h
  rcases h with (rfl | ⟨x, -, hx⟩) | rfl
  · exact hquote
  · rw [writeChar] at hx
    split at hx
    · rename_i row hfind
      rcases List.mem_pair.1 hx with rfl | rfl
      · exact hbackslash
      · exact hescapes row (List.mem_of_find?_eq_some hfind)
    · split at hx
      · rcases List.mem_cons.1 hx with rfl | hx
        · exact hbackslash
        rcases List.mem_cons.1 hx with rfl | hx
        · decide
        obtain ⟨d, hd, rfl⟩ := Text.mem_paddedHex hx
        have hall : ∀ d < 16, 0x20 ≤ (Nat.digitChar d).toNat := by decide
        exact hall d hd
      · rename_i hge
        obtain rfl := List.mem_singleton.1 hx
        exact not_lt.1 hge
  · exact hquote

/-! ### Keys -/

/-- The key of a field, with the bracket or comma before it. -/
def key (before : Char) (name : String) : List Char :=
  before :: quote :: name.toList ++ [quote, ':']

/-- A key has no control characters if its name has none. -/
theorem printable_key {before : Char} (hbefore : 0x20 ≤ before.toNat) {name : String}
    (hname : (name.toList.all fun c => 0x20 ≤ c.toNat) = true) {c : Char} (h : c ∈ key before name) :
    0x20 ≤ c.toNat := by
  simp only [key, List.cons_append, List.mem_cons, List.mem_append, List.not_mem_nil,
    or_false] at h
  rcases h with rfl | rfl | h | rfl | rfl
  · exact hbefore
  · decide
  · exact of_decide_eq_true (List.all_eq_true.1 hname c h)
  · decide
  · decide

/-- A number is read back in front of a key. -/
theorem readNat_key {max n : ℕ} (hn : n ≤ max) {before : Char} (hbefore : before.isDigit = false)
    (name : String) (rest : List Char) :
    readNat max (writeNat n ++ (key before name ++ rest)) = some (n, key before name ++ rest) :=
  readNat_append hn hbefore _

/-! ### Arrays of bytes -/

/-- The items of an array, with commas between them. -/
def writeItems (data : List UInt8) : List Char :=
  [','].intercalate (data.map fun b => writeNat b.toNat)

/-- An array of bytes. -/
def writeBytes (data : List UInt8) : List Char :=
  '[' :: writeItems data ++ [']']

/-- A byte. -/
def parseByte (item : List Char) : Option UInt8 :=
  match Text.fromStrRadix 10 0xFF item with
  | .ok n => some (UInt8.ofNat n)
  | .error _ => none

/-- Read an array of bytes. -/
def readBytes (text : List Char) : Option (List UInt8 × List Char) :=
  match text with
  | '[' :: text =>
      let items := text.takeWhile fun c => c ≠ ']'
      match text.dropWhile fun c => c ≠ ']' with
      | ']' :: rest =>
          if items.isEmpty then some ([], rest)
          else ((items.splitOn ',').mapM parseByte).map fun data => (data, rest)
      | _ => none
  | _ => none

theorem parseByte_writeNat (b : UInt8) : parseByte (writeNat b.toNat) = some b := by
  have hb : b.toNat ≤ 0xFF := by
    have := b.toNat_lt
    omega
  rw [parseByte, writeNat, Text.fromStrRadix_toDigits (by decide) (by decide) hb]
  simp

theorem mapM_parseByte (data : List UInt8) :
    (data.map fun b => writeNat b.toNat).mapM parseByte = some data := by
  induction data with
  | nil => rfl
  | cons b data ih => simp [List.mapM_cons, parseByte_writeNat, ih]

theorem writeItems_cons_cons (b b' : UInt8) (data : List UInt8) :
    writeItems (b :: b' :: data) = writeNat b.toNat ++ ',' :: writeItems (b' :: data) := by
  simp [writeItems]

/-- Items are digits and commas. -/
theorem mem_writeItems {data : List UInt8} {c : Char} (h : c ∈ writeItems data) :
    c = ',' ∨ c.isDigit = true := by
  induction data with
  | nil => simp [writeItems] at h
  | cons b data ih =>
      cases data with
      | nil =>
          rw [writeItems, List.map_singleton, List.intercalate_singleton] at h
          exact Or.inr (isDigit_writeNat h)
      | cons b' data =>
          rw [writeItems_cons_cons, List.mem_append, List.mem_cons] at h
          rcases h with h | rfl | h
          · exact Or.inr (isDigit_writeNat h)
          · exact Or.inl rfl
          · exact ih h

theorem writeItems_ne_nil {data : List UInt8} (h : data ≠ []) : writeItems data ≠ [] := by
  match data, h with
  | [b], _ =>
      rw [writeItems, List.map_singleton, List.intercalate_singleton]
      exact Nat.toDigits_ne_nil
  | b :: b' :: data, _ => simp [writeItems_cons_cons]

/-- An array has no control characters. -/
theorem printable_writeBytes {data : List UInt8} {c : Char} (h : c ∈ writeBytes data) :
    0x20 ≤ c.toNat := by
  simp only [writeBytes, List.cons_append, List.mem_cons, List.mem_append, List.not_mem_nil,
    or_false] at h
  rcases h with rfl | h | rfl
  · decide
  · rcases mem_writeItems h with rfl | hdigit
    · decide
    · exact printable_of_isDigit hdigit
  · decide

/-- **An array of bytes is read back.** -/
theorem readBytes_append (data : List UInt8) (rest : List Char) :
    readBytes (writeBytes data ++ rest) = some (data, rest) := by
  have hitems : ∀ c ∈ writeItems data, decide (c ≠ ']') = true := by
    intro c hc
    rcases mem_writeItems hc with rfl | hdigit
    · decide
    · refine decide_eq_true fun heq => ?_
      rw [heq] at hdigit
      exact absurd hdigit (by decide)
  have htext : writeBytes data ++ rest = '[' :: (writeItems data ++ ']' :: rest) := by
    simp [writeBytes]
  rw [htext]
  simp only [readBytes]
  rw [List.takeWhile_append_of_pos hitems, List.dropWhile_append_of_pos hitems,
    List.takeWhile_cons_of_neg (by simp), List.dropWhile_cons_of_neg (by simp), List.append_nil]
  simp only
  rcases eq_or_ne data [] with rfl | hne
  · rfl
  · rw [if_neg (by simpa using writeItems_ne_nil hne), writeItems, List.splitOn_intercalate,
      mapM_parseByte, Option.map_some]
    · intro item hitem
      obtain ⟨b, -, rfl⟩ := List.mem_map.1 hitem
      exact fun h => absurd (isDigit_writeNat h) (by decide)
    · simpa using hne

end Json
