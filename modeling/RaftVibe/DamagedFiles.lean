/-
**Damaged files.**

Data that was damaged within 32 consecutive bits does not pass the comparison with its checksum.  A
line of the log is compared as it is, and is refused whatever its data; only damage that makes an end
of line, and so two lines of one, is another matter.

A file with one record is trimmed first.  If damage makes whitespace of the beginning of the data,
that is taken away, and what is left is shorter than what was stored.  A burst of 32 bits that begins
in the first byte ends in the fifth, so this is only about a few bytes; but for some data what is left
has the checksum of all of it.  What the files hold is not such data: it begins with digits, with
`none` or with the first field of a snapshot, and no checksum of these beginnings is small enough.

Main definitions:

* `RaftVibe.damagedLine` — the bytes of a line with damaged data;
* `RaftVibe.Anchored` — data of which no damage can take the beginning away;
* `RaftVibe.Record` — the data of the files with one record.

Main results:

* `RaftVibe.FileStorage.loadLog_damaged` — a log with a damaged line is refused;
* `RaftVibe.FileStorage.readWithChecksum_damaged` — so is a damaged file with one record;
* `RaftVibe.crc32_detects` — **damage is detected**.
-/

import RaftVibe.Checksum

set_option relaxedAutoImplicit false
set_option autoImplicit false

namespace RaftVibe

/-! ### Damaged lines -/

/-- The bytes of the line of a record whose data were damaged. -/
def damagedLine (bytes : List UInt8) (data : List Char) : List UInt8 :=
  bytes ++ Text.encode (' ' :: checksumText data ++ ['\n'])

/-- What a damaged line is read as, if it is text at all. -/
theorem exists_of_decode_damagedLine {bytes : List UInt8} {data line : List Char}
    (h : Text.decode (damagedLine bytes data) = some line) :
    ∃ text, Text.encode text = bytes ∧ line = text ++ ' ' :: checksumText data ++ ['\n'] := by
  obtain ⟨text, htext, hline⟩ := Text.exists_of_decode_append (by decide) h
  refine ⟨text, htext, ?_⟩
  rw [hline, List.append_assoc]
  rfl

/-- **A damaged line of the log is refused.** -/
theorem FileStorage.loadLines_damaged {formats : Formats} {bytes : List UInt8} {data : List Char}
    (h : Damaged (Text.encode data) bytes) (lineNum : ℕ) (rest : List (List UInt8)) :
    ∃ e, loadLines formats lineNum (damagedLine bytes data :: rest) = .error e := by
  rw [loadLines]
  cases hdecode : Text.decode (damagedLine bytes data) with
  | none => exact ⟨invalidUtf8, rfl⟩
  | some line =>
      obtain ⟨text, rfl, rfl⟩ := exists_of_decode_damagedLine hdecode
      simp only
      rw [chomp_record, if_neg (by simpa using trim_record_ne_nil text data),
        verifyChecksum_ne h.crc32_ne]
      exact ⟨_, rfl⟩

/-- A damaged line stays one line, if the damage does not end it. -/
theorem lines_damagedLine {bytes : List UInt8} {data : List Char} (h : Text.newline ∉ bytes)
    (rest : List UInt8) : Text.lines (damagedLine bytes data ++ rest) =
      damagedLine bytes data :: Text.lines rest := by
  have hsum : Text.newline ∉ Text.encode (' ' :: checksumText data) := by
    refine Text.newline_notMem_encode fun hmem => ?_
    rcases List.mem_cons.1 hmem with hmem | hmem
    · exact absurd hmem (by decide)
    · exact absurd (isWhitespace_checksumText hmem) (by decide)
  have hline : damagedLine bytes data =
      bytes ++ Text.encode (' ' :: checksumText data) ++ [Text.newline] := by
    rw [damagedLine, Text.encode_append, Text.encode_newline, List.append_assoc]
  rw [hline, List.append_assoc, List.singleton_append, Text.lines_append]
  simp [h, hsum]

/-- Lines that are refused are refused behind others. -/
theorem FileStorage.loadLines_append_error {formats : Formats} {bad : List (List UInt8)}
    (hbad : ∀ lineNum, ∃ e, loadLines formats lineNum bad = .error e) (before : List (List UInt8))
    (lineNum : ℕ) : ∃ e, loadLines formats lineNum (before ++ bad) = .error e := by
  induction before generalizing lineNum with
  | nil => exact hbad lineNum
  | cons line before ih =>
      obtain ⟨e, he⟩ := ih (lineNum + 1)
      rw [List.cons_append, loadLines]
      cases Text.decode line with
      | none => exact ⟨_, rfl⟩
      | some line =>
          simp only [he]
          split_ifs
          · exact ⟨_, rfl⟩
          · cases verifyChecksum "log format" ("at line " ++ toString lineNum) (Text.chomp line) with
            | error e' => exact ⟨_, rfl⟩
            | ok json =>
                simp only
                cases formats.entry.fromStr json <;> exact ⟨_, rfl⟩

/-- **A log with a damaged line is refused**, wherever the line is. -/
theorem FileStorage.loadLog_damaged {formats : Formats} {s : FileStorage formats}
    {before : List (List UInt8)} {bytes : List UInt8} {data : List Char} {after : List UInt8}
    (hbefore : ∀ line ∈ before, Text.newline ∉ line) (h : Damaged (Text.encode data) bytes)
    (hbytes : Text.newline ∉ bytes)
    (hfile : s.files logPath =
      some (before.flatMap (· ++ [Text.newline]) ++ damagedLine bytes data ++ after)) :
    ∃ e, s.loadLog = .error e := by
  have hlines (before : List (List UInt8)) (hbefore : ∀ line ∈ before, Text.newline ∉ line) :
      Text.lines (before.flatMap (· ++ [Text.newline]) ++ (damagedLine bytes data ++ after)) =
        before.map (· ++ [Text.newline]) ++ damagedLine bytes data :: Text.lines after := by
    induction before with
    | nil => exact lines_damagedLine hbytes after
    | cons line before ih =>
        obtain ⟨hline, hrest⟩ := List.forall_mem_cons.1 hbefore
        rw [List.flatMap_cons, List.append_assoc, List.append_assoc, List.singleton_append,
          Text.lines_append hline, ih hrest]
        rfl
  rw [loadLog, hfile]
  simp only
  rw [List.append_assoc, hlines before hbefore]
  exact loadLines_append_error (fun lineNum => loadLines_damaged h lineNum _) _ 1

/-! ### Damage at the beginning -/

/-- **Data of which no damage can take the beginning away.**  It begins with visible characters, the
first of which is more than a few bits away from whitespace.  To lose `k` bytes, damage would have to
lead from the register after these to the one at the beginning, in at most `36 - 8 * k` bits. -/
structure Anchored (data : List UInt8) : Prop where
  visible : ∀ byte ∈ data[5]?, 33 ≤ byte.toNat ∧ byte.toNat < 128
  head : ∀ byte ∈ data.head?, 14 ≤ byte.toNat % 32
  checksum : ∀ k, 1 ≤ k → k ≤ 5 → k ≤ data.length →
    2 ^ (36 - 8 * k) ≤ (crc32 (data.take k)).toNat

/-- Bytes that differ in their lowest bits have such a bit that differs. -/
theorem exists_low_bit_ne {byte byte' : UInt8} (h : byte.toNat % 32 ≠ byte'.toNat % 32) :
    ∃ j < 5, byte.toBitVec.getLsbD j ≠ byte'.toBitVec.getLsbD j := by
  by_contra hall
  refine h (Nat.eq_of_testBit_eq fun j => ?_)
  rw [show 32 = 2 ^ 5 from rfl, Nat.testBit_mod_two_pow, Nat.testBit_mod_two_pow]
  by_cases hj : j < 5
  · by_contra hne
    refine hall ⟨j, hj, fun heq => hne ?_⟩
    rw [← UInt8.toNat_toBitVec, ← UInt8.toNat_toBitVec, BitVec.testBit_toNat, BitVec.testBit_toNat,
      heq]
  · rw [decide_eq_false hj, Bool.false_and, Bool.false_and]

/-- **A burst that begins in the first byte ends in the fifth.** -/
theorem Damaged.agrees_from {d d' : UInt8} {data data' : List UInt8}
    (h : Damaged (d :: data) (d' :: data')) (hlow : d.toNat % 32 ≠ d'.toNat % 32) {i : ℕ}
    (hi : 36 ≤ i) : (bits (d :: data))[i]? = (bits (d' :: data'))[i]? := by
  obtain ⟨start, hwindow⟩ := h.window
  obtain ⟨j, hj, hbit⟩ := exists_low_bit_ne hlow
  have hfirst : (bits (d :: data))[8 * 0 + j]? ≠ (bits (d' :: data'))[8 * 0 + j]? := by
    rw [bits_getElem? _ _ (by omega), bits_getElem? _ _ (by omega)]
    exact fun heq => hbit (Option.some.inj heq)
  have hstart := hwindow _ hfirst
  by_contra hdiff
  have := hwindow i hdiff
  omega

/-- Without its first `k` bytes data has another checksum, if the checksum of these is not small and
only some bits of the rest have changed. -/
theorem crc32_ne_of_drop {data back : List UInt8} {k n : ℕ} (hn : n ≤ 32)
    (hlen : (data.drop k).length = back.length)
    (hdrop : (bits (data.drop k)).drop n = (bits back).drop n)
    (hchecksum : 2 ^ n ≤ (crc32 (data.take k)).toNat) : crc32 data ≠ crc32 back := by
  intro heq
  rw [← List.take_append_drop k data, crc32_eq_feed, crc32_eq_feed, bits_append,
    Crc.feed_append] at heq
  have hlenbits : (bits (data.drop k)).length = (bits back).length := by
    rw [length_bits, length_bits, hlen]
  have hlt := Crc.toNat_xor_lt_of_feed polynomial_msb hlenbits hn hdrop (BitVec.not_inj.1 heq)
  rw [crc32_eq_xor, foldl_crc32Byte] at hchecksum
  omega

/-- **Anchored data keeps its beginning**, or another checksum is computed. -/
theorem Damaged.crc32_ne_of_trimmed {data front back : List UInt8} (h : Damaged data (front ++ back))
    (hanchored : Anchored data) (hne : front ≠ [])
    (hfront : ∀ byte ∈ front, byte.toNat < 33 ∨ 128 ≤ byte.toNat)
    (hhead : ∀ byte ∈ front.head?, byte.toNat % 32 ≤ 13) : crc32 data ≠ crc32 back := by
  have hlen : data.length = front.length + back.length := by rw [h.length_eq, List.length_append]
  have hpos : 0 < front.length := List.length_pos_iff.2 hne
  have hsame : ∀ i, 36 ≤ i → (bits data)[i]? = (bits (front ++ back))[i]? := by
    cases data with
    | nil =>
        rw [List.length_nil] at hlen
        omega
    | cons d data =>
        cases front with
        | nil => exact absurd rfl hne
        | cons f front =>
            have hd := hanchored.head d rfl
            have hf := hhead f rfl
            intro i hi
            exact h.agrees_from (by omega) hi
  -- the sixth byte has not changed, so it is not whitespace
  have hle : front.length ≤ 5 := by
    by_contra hgt
    have hlt : 5 < front.length := by omega
    have hget : data[5]? = some front[5] := by
      rw [getElem?_eq_of_bits fun j _ => hsame _ (by omega), List.getElem?_append_left hlt,
        List.getElem?_eq_getElem hlt]
    have hvisible := hanchored.visible _ hget
    have := hfront _ (List.getElem_mem hlt)
    omega
  have hback : back = (front ++ back).drop front.length := List.drop_left.symm
  refine crc32_ne_of_drop (n := 36 - 8 * front.length) (by omega) (by rw [List.length_drop]; omega) ?_
    (hanchored.checksum front.length hpos hle (by omega))
  rw [hback, ← drop_bits, ← drop_bits, List.drop_drop, List.drop_drop]
  refine List.ext_getElem? fun i => ?_
  rw [List.getElem?_drop, List.getElem?_drop]
  exact hsame _ (by omega)

/-- What is asked of the data can be computed. -/
theorem Anchored.of_all {data : List UInt8}
    (h : (data[5]?.all fun byte => 33 ≤ byte.toNat && byte.toNat < 128) = true ∧
      (data.head?.all fun byte => 14 ≤ byte.toNat % 32) = true ∧
      ∀ k < 6, 1 ≤ k → k ≤ data.length → 2 ^ (36 - 8 * k) ≤ (crc32 (data.take k)).toNat) :
    Anchored data := by
  simp only [Option.all_eq_true, Bool.and_eq_true, decide_eq_true_eq] at h
  obtain ⟨hvisible, hhead, hchecksum⟩ := h
  exact ⟨hvisible, hhead, fun k hk hk' => hchecksum k (Nat.lt_succ_of_le hk') hk⟩

/-- Only the first six bytes matter. -/
theorem Anchored.append {front : List UInt8} (h : Anchored front) (hlen : 6 ≤ front.length)
    (back : List UInt8) : Anchored (front ++ back) where
  visible byte hbyte := h.visible byte (by rwa [List.getElem?_append_left (by omega)] at hbyte)
  head byte hbyte :=
    h.head byte (by rwa [List.head?_append_of_ne_nil _ (List.ne_nil_of_length_pos (by omega))] at hbyte)
  checksum k hk hk' _ := by
    rw [List.take_append_of_le_length (by omega)]
    exact h.checksum k hk hk' (by omega)

/-! ### Numbers -/

/-- The byte of a decimal digit. -/
def digitByte (d : ℕ) : UInt8 := UInt8.ofNat (48 + d)

/-- The upper halves of the bytes of this word are those of digits. -/
def IsDigits (word : BitVec 32) : Prop :=
  ∀ i < 4, ∀ j < 4, word.getLsbD (8 * i + (4 + j)) = Nat.testBit 3 j

instance : DecidablePred IsDigits := fun _ => inferInstanceAs (Decidable (∀ _ < _, ∀ _ < _, _))

/-- The checksums of up to three digits. -/
theorem crc32_digits : ∀ a < 10, 2 ^ 28 ≤ (crc32 [digitByte a]).toNat ∧
    ∀ b < 10, 2 ^ 20 ≤ (crc32 [digitByte a, digitByte b]).toNat ∧
      ∀ c < 10, 2 ^ 12 ≤ (crc32 [digitByte a, digitByte b, digitByte c]).toNat := by
  decide +kernel

variable {a b c d : ℕ}

/-- Shifting back what has taken in four digits. -/
theorem isDigits_unstep (ha : a < 10) (hb : b < 10) (hc : c < 10) (hd : d < 10) :
    IsDigits (0xFFFFFFFF ^^^ (Crc.unstep polynomial)^[32]
      (Crc.feed polynomial 0xFFFFFFFF
        (bits [digitByte a, digitByte b, digitByte c, digitByte d]))) := by
  have hdigit : ∀ n < 10, ∀ j < 4, (digitByte n).toBitVec.getLsbD (4 + j) = Nat.testBit 3 j := by
    decide
  have hback := Crc.iterate_unstep_feed polynomial_msb
    (show (bits [digitByte a, digitByte b, digitByte c, digitByte d]).length ≤ 32 from le_rfl)
    0xFFFFFFFF
  change (Crc.unstep polynomial)^[32] _ = _ at hback
  rw [hback, ← BitVec.xor_assoc, BitVec.xor_self, BitVec.zero_xor]
  intro i hi j hj
  rw [Crc.getLsbD_word, List.getD_eq_getElem?_getD, bits_getElem? _ _ (by omega),
    decide_eq_true (by omega), Bool.true_and]
  interval_cases i
  · exact hdigit a ha j hj
  · exact hdigit b hb j hj
  · exact hdigit c hc j hj
  · exact hdigit d hd j hj

/-- The checksum of four digits: what leads to a smaller one is not digits. -/
theorem crc32_four_digits (ha : a < 10) (hb : b < 10) (hc : c < 10) (hd : d < 10) :
    2 ^ 4 ≤ (crc32 [digitByte a, digitByte b, digitByte c, digitByte d]).toNat := by
  have hall : ∀ z < 2 ^ 4, ¬ IsDigits
      (0xFFFFFFFF ^^^ (Crc.unstep polynomial)^[32] (~~~ BitVec.ofNat 32 z)) := by decide +kernel
  by_contra hlt
  refine hall _ (Nat.lt_of_not_le hlt) ?_
  rw [BitVec.ofNat_toNat, BitVec.setWidth_eq, crc32_eq_feed, BitVec.not_not]
  exact isDigits_unstep ha hb hc hd

/-- The checksum of five digits is not zero. -/
theorem crc32_five_digits {e : ℕ} (ha : a < 10) (hb : b < 10) (hc : c < 10) (hd : d < 10)
    (he : e < 10) :
    2 ^ 0 ≤ (crc32 [digitByte a, digitByte b, digitByte c, digitByte d, digitByte e]).toNat := by
  have hall : ∀ e < 10, ¬ IsDigits (0xFFFFFFFF ^^^ (Crc.unstep polynomial)^[32]
      ((Crc.unstep polynomial)^[8] 0xFFFFFFFF ^^^ Crc.word (byteBits (digitByte e)))) := by
    decide +kernel
  by_contra hlt
  refine hall e he ?_
  have hfeed : Crc.feed polynomial (Crc.feed polynomial 0xFFFFFFFF
      (bits [digitByte a, digitByte b, digitByte c, digitByte d])) (byteBits (digitByte e)) =
        0xFFFFFFFF := by
    have hzero : crc32 [digitByte a, digitByte b, digitByte c, digitByte d, digitByte e] = 0 :=
      BitVec.eq_of_toNat_eq (Nat.lt_one_iff.1 (Nat.lt_of_not_le hlt))
    rw [crc32_eq_feed] at hzero
    have hnot := congrArg (~~~ ·) hzero
    simp only [BitVec.not_not] at hnot
    rw [← Crc.feed_append]
    exact hnot
  have hback := Crc.iterate_unstep_feed polynomial_msb
    (show (byteBits (digitByte e)).length ≤ 32 by simp) (Crc.feed polynomial 0xFFFFFFFF
      (bits [digitByte a, digitByte b, digitByte c, digitByte d]))
  rw [hfeed, length_byteBits] at hback
  rw [hback, BitVec.xor_assoc, BitVec.xor_self, BitVec.xor_zero]
  exact isDigits_unstep ha hb hc hd

/-- The checksum of up to five digits is not small. -/
theorem le_crc32_digits {ds : List ℕ} (hne : ds ≠ []) (hlen : ds.length ≤ 5)
    (h : ∀ d ∈ ds, d < 10) : 2 ^ (36 - 8 * ds.length) ≤ (crc32 (ds.map digitByte)).toNat := by
  rcases ds with _ | ⟨a, ds⟩
  · exact absurd rfl hne
  rcases ds with _ | ⟨b, _ | ⟨c, _ | ⟨d, _ | ⟨e, _ | ⟨f, ds⟩⟩⟩⟩⟩
  all_goals simp only [List.forall_mem_cons] at h
  · exact (crc32_digits a h.1).1
  · exact ((crc32_digits a h.1).2 b h.2.1).1
  · exact ((crc32_digits a h.1).2 b h.2.1).2 c h.2.2.1
  · exact crc32_four_digits h.1 h.2.1 h.2.2.1 h.2.2.2.1
  · exact crc32_five_digits h.1 h.2.1 h.2.2.1 h.2.2.2.1 h.2.2.2.2.1
  · simp only [List.length_cons] at hlen
    omega

/-- **Numbers are anchored.** -/
theorem anchored_digits {ds : List ℕ} (h : ∀ d ∈ ds, d < 10) : Anchored (ds.map digitByte) where
  visible byte hbyte := by
    have hall : ∀ d < 10, 33 ≤ (digitByte d).toNat ∧ (digitByte d).toNat < 128 := by decide
    obtain ⟨d, hd, rfl⟩ := List.mem_map.1 (List.mem_of_getElem? hbyte)
    exact hall d (h d hd)
  head byte hbyte := by
    have hall : ∀ d < 10, 14 ≤ (digitByte d).toNat % 32 := by decide
    obtain ⟨d, hd, rfl⟩ := List.mem_map.1 (List.mem_of_head? hbyte)
    exact hall d (h d hd)
  checksum k hk hk' hlen := by
    rw [List.length_map] at hlen
    have htake : (ds.take k).length = k := List.length_take_of_le hlen
    have hne : ds.take k ≠ [] := List.ne_nil_of_length_pos (by omega)
    have hle := le_crc32_digits hne (by omega) fun d hd => h d (List.mem_of_mem_take hd)
    rw [htake, List.map_take] at hle
    exact hle

/-- The bytes of a number. -/
theorem exists_digits (n : ℕ) :
    ∃ ds : List ℕ, (∀ d ∈ ds, d < 10) ∧ Text.encode (Nat.toDigits 10 n) = ds.map digitByte := by
  have hall : ∀ d < 10, d.digitChar.toNat = 48 + d := by decide
  have hchar : ∀ c ∈ Nat.toDigits 10 n, ∃ d < 10, c.toNat = 48 + d := by
    intro c hc
    obtain ⟨d, hd, rfl⟩ := Text.mem_toDigits (by decide) hc
    exact ⟨d, hd, hall d hd⟩
  have hascii : ∀ c ∈ Nat.toDigits 10 n, c.toNat < 128 := by
    intro c hc
    obtain ⟨d, hd, hcd⟩ := hchar c hc
    omega
  refine ⟨(Nat.toDigits 10 n).map fun c => c.toNat - 48, ?_, ?_⟩
  · intro d hd
    obtain ⟨c, hc, rfl⟩ := List.mem_map.1 hd
    obtain ⟨d, hd, hcd⟩ := hchar c hc
    omega
  · rw [Text.encode_ascii hascii, List.map_map]
    refine List.map_congr_left fun c hc => ?_
    obtain ⟨d, hd, hcd⟩ := hchar c hc
    rw [Function.comp_apply, digitByte, hcd, Nat.add_sub_cancel_left]

/-! ### What the files hold -/

/-- How the text of a snapshot begins: with its first field. -/
def snapshotStart : List Char := "\x7b\"metadata\":".toList

/-- **The data of the files with one record**: what is saved for a term, a vote and a snapshot. -/
inductive Record : List Char → Prop
  | term (term : ℕ) : Record (Nat.toDigits 10 term)
  | vote (votedFor : Option ℕ) : Record (FileStorage.voteText votedFor)
  | snapshot (rest : List Char) : Record (snapshotStart ++ rest)

theorem Record.anchored {data : List Char} (h : Record data) : Anchored (Text.encode data) := by
  have hnumber (n : ℕ) : Anchored (Text.encode (Nat.toDigits 10 n)) := by
    obtain ⟨ds, hds, hencode⟩ := exists_digits n
    rw [hencode]
    exact anchored_digits hds
  cases h with
  | term term => exact hnumber term
  | vote votedFor =>
      cases votedFor with
      | none => exact Anchored.of_all (by decide +kernel)
      | some id => exact hnumber id
  | snapshot rest =>
      rw [Text.encode_append]
      exact (Anchored.of_all (by decide +kernel)).append (by decide +kernel) _

/-- What is left of damaged data has another checksum. -/
theorem Record.crc32_ne {data text : List Char} (hrecord : Record data)
    (h : Damaged (Text.encode data) (Text.encode text)) :
    crc32 (Text.encode data) ≠ crc32 (Text.encode (text.dropWhile Text.isWhitespace)) := by
  have hspace : ∀ c ∈ text.takeWhile Text.isWhitespace, Text.isWhitespace c = true :=
    fun c => List.mem_takeWhile_imp
  have hsplit := List.takeWhile_append_dropWhile (p := Text.isWhitespace) (l := text)
  rw [← hsplit, Text.encode_append] at h
  cases hfront : text.takeWhile Text.isWhitespace with
  | nil =>
      rw [hfront] at h
      exact h.crc32_ne
  | cons c front =>
      rw [hfront] at h hspace
      refine h.crc32_ne_of_trimmed hrecord.anchored (Text.encode_ne_nil (by simp)) ?_ ?_
      · intro byte hbyte
        obtain ⟨c', hc', hmem⟩ := List.mem_flatMap.1 hbyte
        exact (Text.encodeChar_of_isWhitespace (hspace c' hc')).1 byte hmem
      · intro byte hbyte
        obtain ⟨-, first, hfirst, hlow⟩ :=
          Text.encodeChar_of_isWhitespace (hspace c (List.mem_cons_self ..))
        rw [Option.mem_def] at hfirst
        rw [Text.encode, List.flatMap_cons, List.head?_append, hfirst] at hbyte
        obtain rfl : first = byte := Option.some.inj hbyte
        exact hlow

/-- Without data there is only a checksum. -/
theorem trim_checksum (data : List Char) :
    Text.trim (' ' :: checksumText data ++ ['\n']) = checksumText data := by
  rw [List.cons_append, ← List.singleton_append,
    Text.trim_append_left (List.forall_mem_singleton.2 rfl)]
  refine Text.trim_append (checksumText_ne_nil data) (fun c hc => ?_) (fun c hc => ?_)
    (List.forall_mem_singleton.2 rfl)
  · exact isWhitespace_checksumText (List.mem_of_head? hc)
  · exact isWhitespace_checksumText (List.mem_of_getLast? hc)

/-- **A damaged file with one record is refused.** -/
theorem FileStorage.readWithChecksum_damaged {formats : Formats} {s : FileStorage formats}
    {path : String} {bytes : List UInt8} {data : List Char} (hrecord : Record data)
    (h : Damaged (Text.encode data) bytes) (hfile : s.files path = some (damagedLine bytes data)) :
    ∃ e, s.readWithChecksum path = .error e := by
  rw [readWithChecksum, hfile]
  cases hdecode : Text.decode (damagedLine bytes data) with
  | none => exact ⟨invalidUtf8, by simp only [hdecode]⟩
  | some line =>
      obtain ⟨text, rfl, rfl⟩ := exists_of_decode_damagedLine hdecode
      have hne := hrecord.crc32_ne h
      simp only [hdecode]
      rw [List.append_assoc, Text.trim_append_of_dropWhile, ← List.append_assoc]
      cases hrest : text.dropWhile Text.isWhitespace with
      | nil =>
          -- all of the data is whitespace now
          rw [List.nil_append, trim_checksum, if_neg (by simpa using checksumText_ne_nil data),
            verifyChecksum, Text.rsplitOnce_of_notMem (blank_notMem_checksumText data)]
          exact ⟨_, rfl⟩
      | cons c rest =>
          have hc : Text.isWhitespace c = false := by
            have hhead := List.head?_dropWhile_not Text.isWhitespace text
            rw [hrest] at hhead
            exact hhead
          rw [hrest] at hne
          rw [trim_record data (by simp) (by simpa using hc) (List.forall_mem_singleton.2 rfl),
            if_neg (by simp), verifyChecksum_ne hne]
          exact ⟨_, rfl⟩

/-- Other data could lose its beginning: here one byte is gone, and the checksum is the same. -/
example : crc32 (Text.encode "&<]C)".toList) = crc32 (Text.encode "L7L)".toList) := by decide +kernel

/-! ### Detection -/

/-- **Damage is detected.**  It changes the checksum; so the comparison refuses damaged data, and
neither a log with a damaged line, unless the damage cuts the line in two, nor a damaged file with one
record is read. -/
theorem crc32_detects :
    (∀ data data' : List UInt8, Damaged data data' → crc32 data ≠ crc32 data') ∧
      (∀ (format place : String) (data data' : List Char),
        Damaged (Text.encode data) (Text.encode data') →
          verifyChecksum format place (data' ++ ' ' :: checksumText data) =
            .error (checksumMismatch place (checksumText data) (checksumText data'))) ∧
      (∀ (formats : Formats) (s : FileStorage formats) (before : List (List UInt8))
        (data : List Char) (bytes after : List UInt8), (∀ line ∈ before, Text.newline ∉ line) →
          Damaged (Text.encode data) bytes → Text.newline ∉ bytes →
            s.files FileStorage.logPath = some (before.flatMap (· ++ [Text.newline]) ++
              damagedLine bytes data ++ after) →
              ∃ e, s.loadLog = .error e) ∧
      ∀ (formats : Formats) (s : FileStorage formats) (path : String) (data : List Char)
        (bytes : List UInt8), Record data → Damaged (Text.encode data) bytes →
          s.files path = some (damagedLine bytes data) →
            ∃ e, s.readWithChecksum path = .error e := by
  refine ⟨fun _ _ h => h.crc32_ne, fun _ _ _ _ h => verifyChecksum_ne h.crc32_ne _ _, ?_, ?_⟩
  · intro formats s before data bytes after hbefore h hbytes hfile
    exact FileStorage.loadLog_damaged hbefore h hbytes hfile
  · intro formats s path data bytes hrecord h hfile
    exact FileStorage.readWithChecksum_damaged hrecord h hfile

/-- No vote, with one letter damaged. -/
theorem crc32_detects_nine :
    crc32 (Text.encode "none".toList) ≠ crc32 (Text.encode "nine".toList) ∧
      verifyChecksum "format" "in \"voted_for\""
        ("nine".toList ++ ' ' :: checksumText "none".toList) = .error
          (checksumMismatch "in \"voted_for\"" (checksumText "none".toList)
            (checksumText "nine".toList)) ∧
      (∃ e, FileStorage.loadLog
        (FileStorage.write (FileStorage.new : FileStorage FileStorage.exampleFormats)
          FileStorage.logPath (damagedLine (Text.encode "nine".toList) "none".toList)) = .error e) ∧
      ∃ e, FileStorage.readWithChecksum
        (FileStorage.write (FileStorage.new : FileStorage FileStorage.exampleFormats)
          FileStorage.votedForPath (damagedLine (Text.encode "nine".toList) "none".toList))
        FileStorage.votedForPath = .error e := by
  have hdamaged : Damaged (Text.encode "none".toList) (Text.encode "nine".toList) :=
    Damaged.of_length_le (by decide +kernel) (by decide +kernel) (by decide +kernel)
  have hrecord : Record "none".toList := Record.vote none
  exact ⟨crc32_detects.1 _ _ hdamaged, crc32_detects.2.1 _ _ _ _ hdamaged,
    crc32_detects.2.2.1 _ _ [] _ _ [] (by simp) hdamaged (by decide) (by
      rw [FileStorage.write_files_self, List.append_nil]
      rfl),
    crc32_detects.2.2.2 _ _ _ _ _ hrecord hdamaged FileStorage.write_files_self⟩

end RaftVibe
