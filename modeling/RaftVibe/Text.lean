/-
**Text and bytes.**

A text is the list of its characters.  Files hold bytes, so a text is encoded to be written and
decoded, if possible, when it is read.  The functions here are those of a standard library that a
line-based format needs: lines, trimming, splitting at the last separator, and numbers in a given
base.  Numbers are read with a bound, above which they overflow.

Main definitions:

* `Text.encode`, `Text.decode` — UTF-8;
* `Text.lines`, `Text.chomp` — lines with their ends, and without;
* `Text.trim`, `Text.rsplitOnce`, `Text.splitN` — trimming, and splitting at a separator;
* `Text.fromStrRadix`, `Text.paddedHex` — reading a number, and writing it.

Main results:

* `Text.decode_encode` — a text is read back;
* `Text.prefix_of_decode` — what is read from some of its bytes is some of it;
* `Text.lines_encode` — a line is read back, if it has no other end of line;
* `Text.trim_append`, `Text.rsplitOnce_append` — a field is read back;
* `Text.fromStrRadix_toDigits`, `Text.fromStrRadix_paddedHex` — **a number is read back**.
-/

import Mathlib.Data.List.DropRight

set_option relaxedAutoImplicit false
set_option autoImplicit false

namespace Text

/-! ### Bytes -/

/-- The bytes of a text, in UTF-8. -/
def encode (s : List Char) : List UInt8 := s.flatMap String.utf8EncodeChar

/-- The text that bytes stand for, if they are valid UTF-8. -/
def decode (b : List UInt8) : Option (List Char) := b.toByteArray.utf8Decode?.map Array.toList

@[simp] theorem encode_append (s t : List Char) : encode (s ++ t) = encode s ++ encode t :=
  List.flatMap_append

/-- **A text is read back.** -/
theorem decode_encode (s : List Char) : decode (encode s) = some s := by
  have hbytes : (encode s).toByteArray = s.utf8Encode := rfl
  rw [decode, hbytes, List.utf8Decode?_utf8Encode]
  rfl

theorem encode_ne_nil {s : List Char} (h : s ≠ []) : encode s ≠ [] := by
  intro hempty
  have hdecode := decode_encode s
  rw [hempty] at hdecode
  exact h (Option.some.inj hdecode).symm

/-- Only one sequence of bytes stands for a text. -/
theorem encode_decode {b : List UInt8} {s : List Char} (h : decode b = some s) : encode s = b := by
  obtain ⟨chars, hchars, rfl⟩ := Option.map_eq_some_iff.1 h
  have hbytes : chars.toList.utf8Encode = b.toByteArray := by
    have hget : b.toByteArray.utf8Decode?.get (by rw [hchars]; rfl) = chars := by simp [hchars]
    rw [← hget]
    exact ByteArray.utf8Encode_get_utf8Decode?
  rw [List.utf8Encode] at hbytes
  exact List.toByteArray_inj.1 hbytes

/-- **A prefix of the bytes of a text stands for a prefix of it**, if it is text at all. -/
theorem prefix_of_decode {b : List UInt8} {s t : List Char} (hb : b <+: encode t)
    (hs : decode b = some s) : s <+: t := by
  obtain ⟨rest, hrest⟩ := hb
  refine List.isPrefix_of_utf8Encode_append_eq_utf8Encode rest.toByteArray ?_
  rw [List.utf8Encode, List.utf8Encode, ← List.toByteArray_append]
  refine congrArg List.toByteArray ?_
  rw [← encode_decode hs] at hrest
  exact hrest

/-- The byte of an end of line. -/
def newline : UInt8 := 10

theorem encode_newline : encode ['\n'] = [newline] := rfl

/-- A character below `128` is one byte, and the bytes of all others are larger. -/
theorem ascii_mem_encodeChar {b : UInt8} {c : Char} (hb : b.toNat < 128)
    (h : b ∈ String.utf8EncodeChar c) : c.toNat = b.toNat ∧ String.utf8EncodeChar c = [b] := by
  have hbyte (n : ℕ) (hn : b = UInt8.ofNat n) : n % 256 = b.toNat := by
    have := congrArg UInt8.toNat hn
    rw [UInt8.toNat_ofNat'] at this
    exact this.symm
  rw [String.utf8EncodeChar] at h ⊢
  split_ifs at h ⊢ with h₁ h₂ h₃
  · -- one byte: the character itself
    have hb' := List.mem_singleton.1 h
    have := hbyte _ hb'
    refine ⟨?_, by rw [hb']⟩
    change c.val.toNat = b.toNat
    omega
  -- the bytes of longer encodings are large
  all_goals simp only [List.mem_cons, List.not_mem_nil, or_false] at h
  · rcases h with h | h <;> have := hbyte _ h <;> omega
  · rcases h with h | h | h <;> have := hbyte _ h <;> omega
  · rcases h with h | h | h | h <;> have := hbyte _ h <;> omega

theorem encodeChar_of_ascii {c : Char} (h : c.toNat < 128) :
    String.utf8EncodeChar c = [UInt8.ofNat c.toNat] := by
  have hle : c.val.toNat ≤ 127 := by
    change c.toNat ≤ 127
    omega
  rw [String.utf8EncodeChar, if_pos hle]
  rfl

theorem encode_ascii {s : List Char} (h : ∀ c ∈ s, c.toNat < 128) :
    encode s = s.map fun c => UInt8.ofNat c.toNat := by
  induction s with
  | nil => rfl
  | cons c s ih =>
      obtain ⟨hc, hs⟩ := List.forall_mem_cons.1 h
      rw [encode, List.flatMap_cons, encodeChar_of_ascii hc, ← encode, ih hs]
      rfl

/-- **What comes before a character below `128` is text by itself.** -/
theorem exists_of_decode_append {b : List UInt8} {x : Char} (hx : x.toNat < 128) {t s : List Char}
    (h : decode (b ++ encode (x :: t)) = some s) :
    ∃ before, encode before = b ∧ s = before ++ x :: t := by
  have hs := encode_decode h
  have hcons (c : Char) (s : List Char) : encode (c :: s) = String.utf8EncodeChar c ++ encode s :=
    List.flatMap_cons
  have hbyte : (UInt8.ofNat x.toNat).toNat = x.toNat := by
    rw [UInt8.toNat_ofNat']
    omega
  clear h
  rw [hcons, encodeChar_of_ascii hx] at hs
  induction s generalizing b with
  | nil => simp [encode] at hs
  | cons c s ih =>
      rw [hcons] at hs
      rcases List.append_eq_append_iff.1 hs with ⟨rest, hb, hrest⟩ | ⟨rest, hc, hrest⟩
      · -- the character is part of the bytes
        obtain ⟨before, rfl, rfl⟩ := ih hrest
        exact ⟨c :: before, by rw [hcons, hb], rfl⟩
      · cases rest with
        | nil =>
            rw [List.append_nil] at hc
            obtain ⟨before, hbefore, rfl⟩ := ih (b := []) (by simpa using hrest.symm)
            exact ⟨c :: before, by rw [hcons, hbefore, hc, List.append_nil], rfl⟩
        | cons y rest =>
            -- the character has the byte, so it is the one
            rw [List.singleton_append, List.cons_append, List.cons.injEq] at hrest
            obtain ⟨rfl, hrest⟩ := hrest
            have hmem : UInt8.ofNat x.toNat ∈ String.utf8EncodeChar c := by
              rw [hc]
              exact List.mem_append_right _ (List.mem_cons_self ..)
            obtain ⟨hcx, hsingle⟩ := ascii_mem_encodeChar (by omega) hmem
            obtain ⟨rfl, rfl⟩ : b = [] ∧ rest = [] := by
              have hlen := congrArg List.length (hsingle.symm.trans hc)
              simp only [List.length_append, List.length_cons, List.length_nil] at hlen
              exact ⟨List.length_eq_zero_iff.1 (by omega), List.length_eq_zero_iff.1 (by omega)⟩
            refine ⟨[], rfl, ?_⟩
            have hchar : c = x := Char.ext (UInt32.toNat_inj.1 (hcx.trans hbyte))
            have htail : s = t := by
              have := congrArg decode hrest
              rw [List.nil_append, decode_encode, decode_encode] at this
              exact (Option.some.inj this).symm
            rw [hchar, htail]
            rfl

/-- Only an end of line has its byte. -/
theorem newline_mem_encodeChar {c : Char} (h : newline ∈ String.utf8EncodeChar c) : c = '\n' := by
  obtain ⟨hc, -⟩ := ascii_mem_encodeChar (by decide) h
  exact Char.ext (UInt32.toNat_inj.1 hc)

theorem newline_notMem_encode {s : List Char} (h : '\n' ∉ s) : newline ∉ encode s := by
  intro hmem
  obtain ⟨c, hc, hbyte⟩ := List.mem_flatMap.1 hmem
  exact h (newline_mem_encodeChar hbyte ▸ hc)

/-! ### Lines -/

/-- The lines of a file, each with its end; the last one may have none. -/
def lines : List UInt8 → List (List UInt8)
  | [] => []
  | b :: bs =>
      if b = newline then [b] :: lines bs
      else
        match lines bs with
        | [] => [[b]]
        | line :: rest => (b :: line) :: rest

/-- A line without its end, which may have a carriage return. -/
def chomp (s : List Char) : List Char :=
  if s.getLast? = some '\n' then
    if s.dropLast.getLast? = some '\r' then s.dropLast.dropLast else s.dropLast
  else s

theorem lines_append {line : List UInt8} (h : newline ∉ line) (rest : List UInt8) :
    lines (line ++ newline :: rest) = (line ++ [newline]) :: lines rest := by
  induction line with
  | nil => simp [lines]
  | cons b line ih =>
      obtain ⟨hb, hline⟩ := List.ne_and_not_mem_of_not_mem_cons h
      rw [List.cons_append, lines, if_neg (Ne.symm hb), ih hline]
      rfl

/-- The last line may have no end. -/
theorem lines_of_notMem {line : List UInt8} (hne : line ≠ []) (h : newline ∉ line) :
    lines line = [line] := by
  induction line with
  | nil => exact absurd rfl hne
  | cons b line ih =>
      obtain ⟨hb, hline⟩ := List.ne_and_not_mem_of_not_mem_cons h
      rw [lines, if_neg (Ne.symm hb)]
      cases line with
      | nil => rfl
      | cons b' line => rw [ih (by simp) hline]

/-- **A line is read back**, if it has no other end of line. -/
theorem lines_encode {s : List Char} (h : '\n' ∉ s) (rest : List UInt8) :
    lines (encode (s ++ ['\n']) ++ rest) = encode (s ++ ['\n']) :: lines rest := by
  rw [encode_append, encode_newline, List.append_assoc]
  exact lines_append (newline_notMem_encode h) rest

theorem chomp_append {s : List Char} (h : s.getLast? ≠ some '\r') : chomp (s ++ ['\n']) = s := by
  simp [chomp, h]

/-- A text without an end of line has none to take away. -/
theorem chomp_of_notMem {s : List Char} (h : '\n' ∉ s) : chomp s = s := by
  rw [chomp, if_neg]
  intro hlast
  exact h (List.mem_of_getLast? hlast)

/-! ### Fields -/

/-- The characters with the Unicode property `White_Space`. -/
def isWhitespace (c : Char) : Bool :=
  (9 ≤ c.toNat && c.toNat ≤ 13) || c.toNat = 0x20 || c.toNat = 0x85 || c.toNat = 0xA0 ||
    c.toNat = 0x1680 || (0x2000 ≤ c.toNat && c.toNat ≤ 0x200A) || c.toNat = 0x2028 ||
    c.toNat = 0x2029 || c.toNat = 0x202F || c.toNat = 0x205F || c.toNat = 0x3000

/-- Whitespace shares no byte with the characters from `!` to `~`, and the lowest five bits of its first
byte are small. -/
theorem encodeChar_of_isWhitespace {c : Char} (h : isWhitespace c = true) :
    (∀ b ∈ String.utf8EncodeChar c, b.toNat < 33 ∨ 128 ≤ b.toNat) ∧
      ∃ b ∈ (String.utf8EncodeChar c).head?, b.toNat % 32 ≤ 13 := by
  have hall : [9, 10, 11, 12, 13, 0x20, 0x85, 0xA0, 0x1680, 0x2000, 0x2001, 0x2002, 0x2003, 0x2004,
      0x2005, 0x2006, 0x2007, 0x2008, 0x2009, 0x200A, 0x2028, 0x2029, 0x202F, 0x205F, 0x3000].all
      (fun n => (String.utf8EncodeChar (Char.ofNat n)).all (fun b => b.toNat < 33 || 128 ≤ b.toNat) &&
        (String.utf8EncodeChar (Char.ofNat n)).head?.any fun b => b.toNat % 32 ≤ 13) = true := by
    decide +kernel
  have hchar := List.all_eq_true.1 hall c.toNat (by
    simp only [isWhitespace, Bool.or_eq_true, Bool.and_eq_true, decide_eq_true_eq] at h
    simp only [List.mem_cons, List.not_mem_nil, or_false]
    omega)
  rw [Char.ofNat_toNat] at hchar
  simp only [Bool.and_eq_true, List.all_eq_true, Option.any_eq_true, Bool.or_eq_true,
    decide_eq_true_eq] at hchar
  exact hchar

/-- A text without whitespace at its ends. -/
def trim (s : List Char) : List Char := (s.dropWhile isWhitespace).rdropWhile isWhitespace

/-- **A field is read back**, if it does not begin or end with whitespace. -/
theorem trim_append {s t : List Char} (hs : s ≠ []) (hhead : ∀ c ∈ s.head?, isWhitespace c = false)
    (hlast : ∀ c ∈ s.getLast?, isWhitespace c = false) (ht : ∀ c ∈ t, isWhitespace c = true) :
    trim (s ++ t) = s := by
  have hfront : (s ++ t).dropWhile isWhitespace = s ++ t := by
    cases s with
    | nil => exact absurd rfl hs
    | cons c s =>
        have hc : isWhitespace c = false := hhead c rfl
        exact List.dropWhile_cons_of_neg (by simp [hc])
  have hback : (s ++ t).rdropWhile isWhitespace = s.rdropWhile isWhitespace := by
    rw [List.rdropWhile, List.reverse_append, List.dropWhile_append_of_pos (by simpa using ht)]
    rfl
  rw [trim, hfront, hback, List.rdropWhile_eq_self_iff]
  intro hne
  simpa using hlast _ (List.getLast?_eq_some_getLast hne)

theorem trim_append_left {s : List Char} (h : ∀ c ∈ s, isWhitespace c = true) (t : List Char) :
    trim (s ++ t) = trim t := by
  rw [trim, List.dropWhile_append_of_pos h, ← trim]

/-- Whitespace at the beginning does not count. -/
theorem trim_append_of_dropWhile (s t : List Char) :
    trim (s ++ t) = trim (s.dropWhile isWhitespace ++ t) := by
  have hsplit := List.takeWhile_append_dropWhile (p := isWhitespace) (l := s)
  have hspace : ∀ c ∈ s.takeWhile isWhitespace, isWhitespace c = true :=
    fun c => List.mem_takeWhile_imp
  have htrim := trim_append_left hspace (s.dropWhile isWhitespace ++ t)
  rw [← List.append_assoc, hsplit] at htrim
  exact htrim

/-- Trimming a text that begins with something else only takes away from its end. -/
theorem trim_eq_rdropWhile {s : List Char} (hhead : ∀ c ∈ s.head?, isWhitespace c = false) :
    trim s = s.rdropWhile isWhitespace := by
  cases s with
  | nil => rfl
  | cons c s =>
      have hc : isWhitespace c = false := hhead c rfl
      rw [trim, List.dropWhile_cons_of_neg (by simp [hc])]

/-- A text that is not only whitespace is not trimmed away. -/
theorem trim_ne_nil_of_mem {s : List Char} {c : Char} (hmem : c ∈ s) (hc : isWhitespace c = false) :
    trim s ≠ [] := by
  rw [trim, Ne, List.rdropWhile_eq_nil_iff]
  intro hall
  have hfront : s.dropWhile isWhitespace = [] := by
    by_contra hne
    have hhead := List.head_dropWhile_not isWhitespace hne
    rw [hall _ (List.head_mem hne)] at hhead
    cases hhead
  rw [List.dropWhile_eq_nil_iff.1 hfront c hmem] at hc
  cases hc

theorem trim_ne_nil {s : List Char} (hne : s ≠ [])
    (hhead : ∀ c ∈ s.head?, isWhitespace c = false) : trim s ≠ [] :=
  trim_ne_nil_of_mem (List.head_mem hne) (hhead _ (List.head?_eq_some_head hne))

/-- The text before the last `c`, and the text after it. -/
def rsplitOnce (c : Char) (s : List Char) : Option (List Char × List Char) :=
  match s.reverse.dropWhile (· ≠ c) with
  | [] => none
  | _ :: before => some (before.reverse, (s.reverse.takeWhile (· ≠ c)).reverse)

theorem rsplitOnce_append {c : Char} {t : List Char} (h : c ∉ t) (s : List Char) :
    rsplitOnce c (s ++ c :: t) = some (s, t) := by
  have hpos : ∀ c' ∈ t.reverse, decide (c' ≠ c) = true := by
    intro c' hc'
    simpa using fun heq : c' = c => h (heq ▸ List.mem_reverse.1 hc')
  rw [rsplitOnce, List.reverse_append, List.reverse_cons, List.append_assoc,
    List.dropWhile_append_of_pos hpos, List.takeWhile_append_of_pos hpos]
  simp

/-- What the split says about the text. -/
theorem eq_of_rsplitOnce {c : Char} {s before after : List Char}
    (h : rsplitOnce c s = some (before, after)) : s = before ++ c :: after ∧ c ∉ after := by
  have hs : s.reverse.takeWhile (· ≠ c) ++ s.reverse.dropWhile (· ≠ c) = s.reverse :=
    List.takeWhile_append_dropWhile
  rw [rsplitOnce] at h
  split at h
  · cases h
  · rename_i c' rest hdrop
    obtain ⟨rfl, rfl⟩ := Prod.mk.inj (Option.some.inj h)
    -- what stops the scan is the separator
    have hc : c' = c := by
      have hstop := List.head?_dropWhile_not (fun c' => decide (c' ≠ c)) s.reverse
      rw [hdrop] at hstop
      simpa using hstop
    rw [hdrop, hc] at hs
    refine ⟨?_, fun hmem => ?_⟩
    · have := congrArg List.reverse hs
      rw [List.reverse_reverse, List.reverse_append, List.reverse_cons, List.append_assoc] at this
      exact this.symm
    · have := List.mem_takeWhile_imp (List.mem_reverse.1 hmem)
      simp at this

theorem rsplitOnce_of_notMem {c : Char} {s : List Char} (h : c ∉ s) : rsplitOnce c s = none := by
  cases hsplit : rsplitOnce c s with
  | none => rfl
  | some fields =>
      rw [(eq_of_rsplitOnce hsplit).1] at h
      exact absurd (List.mem_append_right _ (List.mem_cons_self ..)) h

/-- At most `n` parts of a text, split at each `c`; the last part is what remains. -/
def splitN (c : Char) : ℕ → List Char → List (List Char)
  | 0, _ => []
  | 1, s => [s]
  | n + 2, s =>
      match s.dropWhile (· ≠ c) with
      | [] => [s]
      | _ :: rest => s.takeWhile (· ≠ c) :: splitN c (n + 1) rest

theorem splitN_append {c : Char} {s : List Char} (h : c ∉ s) (n : ℕ) (t : List Char) :
    splitN c (n + 2) (s ++ c :: t) = s :: splitN c (n + 1) t := by
  have hpos : ∀ c' ∈ s, decide (c' ≠ c) = true := by
    intro c' hc'
    simpa using fun heq : c' = c => h (heq ▸ hc')
  rw [splitN, List.dropWhile_append_of_pos hpos, List.takeWhile_append_of_pos hpos]
  simp

theorem splitN_of_notMem {c : Char} {s : List Char} (h : c ∉ s) (n : ℕ) :
    splitN c (n + 1) s = [s] := by
  cases n with
  | zero => rfl
  | succ n =>
      have hall : ∀ c' ∈ s, decide (c' ≠ c) = true := by
        intro c' hc'
        simpa using fun heq : c' = c => h (heq ▸ hc')
      rw [splitN, List.dropWhile_eq_nil_iff.2 hall]

/-! ### Numbers -/

/-- Why a text is not a number. -/
inductive IntErrorKind
  | empty
  | invalidDigit
  | posOverflow
deriving DecidableEq, Repr

/-- The `Display` text of such an error. -/
def IntErrorKind.display : IntErrorKind → String
  | empty => "cannot parse integer from empty string"
  | invalidDigit => "invalid digit found in string"
  | posOverflow => "number too large to fit in target type"

/-- The value of a digit; letters are digits in either case. -/
def toDigit (radix : ℕ) (c : Char) : Option ℕ :=
  let value :=
    if '0' ≤ c ∧ c ≤ '9' then some (c.toNat - '0'.toNat)
    else if 'a' ≤ c ∧ c ≤ 'z' then some (c.toNat - 'a'.toNat + 10)
    else if 'A' ≤ c ∧ c ≤ 'Z' then some (c.toNat - 'A'.toNat + 10)
    else none
  value.filter (· < radix)

/-- Reading the digits, one after the other. -/
def readDigits (radix max : ℕ) : ℕ → List Char → Except IntErrorKind ℕ
  | result, [] => .ok result
  | result, c :: digits =>
      match toDigit radix c with
      | none => .error .invalidDigit
      | some x =>
          if max < result * radix then .error .posOverflow
          else if max < result * radix + x then .error .posOverflow
          else readDigits radix max (result * radix + x) digits

/-- Reading a number of at most `max`, which may have a plus sign. -/
def fromStrRadix (radix max : ℕ) (s : List Char) : Except IntErrorKind ℕ :=
  match s with
  | [] => .error .empty
  | ['+'] => .error .invalidDigit
  | ['-'] => .error .invalidDigit
  | '+' :: digits => readDigits radix max 0 digits
  | digits => readDigits radix max 0 digits

theorem readDigits_append {radix max result : ℕ} (s t : List Char) :
    readDigits radix max result (s ++ t) =
      (readDigits radix max result s).bind fun result => readDigits radix max result t := by
  induction s generalizing result with
  | nil => rfl
  | cons c s ih =>
      rw [List.cons_append, readDigits, readDigits]
      cases toDigit radix c with
      | none => rfl
      | some x =>
          simp only
          split_ifs
          · rfl
          · rfl
          · exact ih

theorem toDigit_digitChar {radix n : ℕ} (hradix : radix ≤ 16) (hn : n < radix) :
    toDigit radix n.digitChar = some n := by
  have hall : ∀ n < 16, toDigit 16 (Nat.digitChar n) = some n := by decide
  have h := hall n (by omega)
  rw [toDigit, Option.filter_eq_some_iff] at h ⊢
  exact ⟨h.1, by simpa using hn⟩

/-- Zeros in front do not count. -/
theorem readDigits_replicate {radix max : ℕ} (hradix : 0 < radix) (k : ℕ) (s : List Char) :
    readDigits radix max 0 (List.replicate k '0' ++ s) = readDigits radix max 0 s := by
  induction k with
  | zero => rfl
  | succ k ih =>
      have hzero : toDigit radix '0' = some 0 := by
        simp [toDigit, hradix]
      rw [List.replicate_succ, List.cons_append, readDigits, hzero]
      simpa using ih

/-- **A number is read back** from its digits. -/
theorem readDigits_toDigits {radix max n : ℕ} (hone : 1 < radix) (hradix : radix ≤ 16)
    (hn : n ≤ max) : readDigits radix max 0 (Nat.toDigits radix n) = .ok n := by
  induction n using Nat.strongRecOn with
  | ind n ih =>
      rw [Nat.toDigits_eq_if hone]
      split
      · rename_i hlt
        rw [readDigits, toDigit_digitChar hradix hlt]
        simp [readDigits, hn]
      · rename_i hge
        have hpos : 0 < n := by omega
        have hdiv := Nat.div_lt_self hpos hone
        have hsplit := Nat.div_add_mod' n radix
        rw [readDigits_append, ih _ hdiv (by omega), Except.bind, readDigits,
          toDigit_digitChar hradix (Nat.mod_lt _ (by omega))]
        simp only
        rw [if_neg (by omega), if_neg (by omega), hsplit]
        rfl

/-- Digits are digits. -/
theorem mem_toDigits {radix n : ℕ} {c : Char} (hone : 1 < radix) (h : c ∈ Nat.toDigits radix n) :
    ∃ d < radix, c = d.digitChar := by
  induction n using Nat.strongRecOn with
  | ind n ih =>
      rw [Nat.toDigits_eq_if hone] at h
      split at h
      · rename_i hlt
        exact ⟨n, hlt, List.mem_singleton.1 h⟩
      · rcases List.mem_append.1 h with h | h
        · exact ih _ (Nat.div_lt_self (by omega) hone) h
        · exact ⟨n % radix, Nat.mod_lt _ (by omega), List.mem_singleton.1 h⟩

/-- `{:0width$x}`: a number in hexadecimal, with zeros before it. -/
def paddedHex (width n : ℕ) : List Char := List.leftpad width '0' (Nat.toDigits 16 n)

theorem mem_paddedHex {width n : ℕ} {c : Char} (h : c ∈ paddedHex width n) :
    ∃ d < 16, c = d.digitChar := by
  rcases List.mem_append.1 h with h | h
  · exact ⟨0, by decide, (List.mem_replicate.1 h).2⟩
  · exact mem_toDigits (by decide) h

theorem paddedHex_ne_nil (width n : ℕ) : paddedHex width n ≠ [] :=
  List.append_ne_nil_of_right_ne_nil _ Nat.toDigits_ne_nil

/-- A text of digits has no sign. -/
theorem fromStrRadix_eq_readDigits {radix max : ℕ} {s : List Char} (hs : s ≠ [])
    (hdigits : ∀ c ∈ s, ∃ d < 16, c = Nat.digitChar d) :
    fromStrRadix radix max s = readDigits radix max 0 s := by
  have hsign : ∀ d < 16, Nat.digitChar d ≠ '+' ∧ Nat.digitChar d ≠ '-' := by decide
  cases s with
  | nil => exact absurd rfl hs
  | cons c s =>
      obtain ⟨d, hd, rfl⟩ := hdigits c (List.mem_cons_self ..)
      obtain ⟨hplus, hminus⟩ := hsign d hd
      rw [fromStrRadix.eq_def]
      split
      · rename_i heq
        cases heq
      · rename_i heq
        exact absurd (List.cons.inj heq).1 hplus
      · rename_i heq
        exact absurd (List.cons.inj heq).1 hminus
      · rename_i heq
        exact absurd (List.cons.inj heq).1 hplus
      · rfl

/-- **A number is read back.** -/
theorem fromStrRadix_toDigits {radix max n : ℕ} (hone : 1 < radix) (hradix : radix ≤ 16)
    (hn : n ≤ max) : fromStrRadix radix max (Nat.toDigits radix n) = .ok n := by
  rw [fromStrRadix_eq_readDigits Nat.toDigits_ne_nil, readDigits_toDigits hone hradix hn]
  intro c hc
  obtain ⟨d, hd, rfl⟩ := mem_toDigits hone hc
  exact ⟨d, by omega, rfl⟩

theorem fromStrRadix_paddedHex {width max n : ℕ} (hn : n ≤ max) :
    fromStrRadix 16 max (paddedHex width n) = .ok n := by
  rw [fromStrRadix_eq_readDigits (paddedHex_ne_nil width n) fun c => mem_paddedHex, paddedHex,
    List.leftpad, readDigits_replicate (by decide), readDigits_toDigits (by decide) le_rfl hn]

/-- A digit is none of the characters that separate fields. -/
theorem isWhitespace_digitChar {d : ℕ} (hd : d < 16) : isWhitespace d.digitChar = false := by
  have hall : ∀ d < 16, isWhitespace (Nat.digitChar d) = false := by decide
  exact hall d hd

end Text
