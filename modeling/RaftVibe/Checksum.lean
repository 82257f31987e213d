/-
**What the checksum detects.**

The loop of the checksum is a shift register that takes in the bits of the bytes, those of a byte
least significant first.  The highest bit of its polynomial is set, so two byte strings of one length
that differ within 32 consecutive bits have different checksums, wherever these lie.

Main definitions:

* `RaftVibe.bits` — the bits of a byte string, in the order in which the loop takes them in;
* `RaftVibe.Damaged` — one window of at most 32 bits is not what it was.

Main results:

* `RaftVibe.crc32_eq_feed` — the loop is the shift register;
* `RaftVibe.Damaged.crc32_ne` — **damage changes the checksum**.
-/

import RaftVibe.Crc
import RaftVibe.FileStorageSpec

set_option relaxedAutoImplicit false
set_option autoImplicit false

namespace RaftVibe

/-! ### The shift register -/

/-- The bits of a byte, least significant first. -/
def byteBits (byte : UInt8) : List Bool := (List.range 8).map byte.toBitVec.getLsbD

@[simp] theorem length_byteBits (byte : UInt8) : (byteBits byte).length = 8 := by
  rw [byteBits, List.length_map, List.length_range]

/-- The bits of a byte string. -/
def bits (data : List UInt8) : List Bool := data.flatMap byteBits

@[simp] theorem bits_nil : bits [] = [] := rfl

@[simp] theorem bits_cons (byte : UInt8) (data : List UInt8) :
    bits (byte :: data) = byteBits byte ++ bits data := rfl

@[simp] theorem bits_append (data data' : List UInt8) :
    bits (data ++ data') = bits data ++ bits data' :=
  List.flatMap_append

theorem length_bits (data : List UInt8) : (bits data).length = 8 * data.length := by
  induction data with
  | nil => rfl
  | cons byte data ih =>
      rw [bits_cons, List.length_append, ih, length_byteBits, List.length_cons]
      omega

theorem drop_bits (data : List UInt8) (k : ℕ) : (bits data).drop (8 * k) = bits (data.drop k) := by
  induction k generalizing data with
  | zero => rfl
  | succ k ih =>
      cases data with
      | nil => simp
      | cons byte data =>
          have hlen : 8 * (k + 1) = (byteBits byte).length + 8 * k := by
            rw [length_byteBits]
            omega
          rw [bits_cons, hlen, ← List.drop_drop, List.drop_left, ih, List.drop_succ_cons]

/-- Where the bits of a byte are. -/
theorem bits_getElem? (data : List UInt8) (i : ℕ) {j : ℕ} (hj : j < 8) :
    (bits data)[8 * i + j]? = data[i]?.map fun byte => byte.toBitVec.getLsbD j := by
  induction data generalizing i with
  | nil => simp
  | cons byte data ih =>
      cases i with
      | zero =>
          rw [bits_cons, List.getElem?_append_left (by simpa using hj)]
          simp [byteBits, hj]
      | succ i =>
          rw [bits_cons, List.getElem?_append_right (by simp; omega), length_byteBits,
            show 8 * (i + 1) + j - 8 = 8 * i + j by omega, ih, List.getElem?_cons_succ]

/-- The polynomial of the checksum, lowest power highest. -/
def polynomial : BitVec 32 := 0xEDB88320

theorem crc32Bit_eq_step (crc : BitVec 32) : crc32Bit crc = Crc.step polynomial crc := by
  have hlow : crc &&& 1 ≠ 0 ↔ crc.getLsbD 0 = true := by
    have hand : crc &&& 1 = (BitVec.ofBool (crc.getLsbD 0)).setWidth 32 :=
      BitVec.and_one_eq_setWidth_ofBool_getLsbD
    rw [hand]
    cases crc.getLsbD 0 <;> decide
  rw [crc32Bit, Crc.step, polynomial]
  simp only [hlow]

/-- The eight bits of a byte, as a word, are the byte. -/
theorem word_byteBits (byte : UInt8) :
    (Crc.word (byteBits byte) : BitVec 32) = byte.toBitVec.setWidth 32 := by
  refine BitVec.eq_of_getLsbD_eq fun i hi => ?_
  rw [Crc.getLsbD_word, BitVec.getLsbD_setWidth]
  congr 1
  rcases Nat.lt_or_ge i 8 with hlt | hge
  · simp [byteBits, hlt]
  · rw [List.getD_eq_default _ _ (by simpa using hge), BitVec.getLsbD_of_ge _ _ hge]

theorem crc32Byte_eq_feed (crc : BitVec 32) (byte : UInt8) :
    crc32Byte crc byte = Crc.feed polynomial crc (byteBits byte) := by
  have hbit : crc32Bit = Crc.step polynomial := funext crc32Bit_eq_step
  rw [crc32Byte, hbit, Crc.feed_eq_iterate (by simp), word_byteBits, length_byteBits]

/-- **The loop is the shift register**, and takes in the bits. -/
theorem foldl_crc32Byte (crc : BitVec 32) (data : List UInt8) :
    data.foldl crc32Byte crc = Crc.feed polynomial crc (bits data) := by
  induction data generalizing crc with
  | nil => rfl
  | cons byte data ih =>
      rw [List.foldl_cons, ih, crc32Byte_eq_feed, bits_cons, Crc.feed_append]

theorem polynomial_msb : polynomial.msb = true := by decide

theorem crc32_eq_xor (data : List UInt8) :
    crc32 data = data.foldl crc32Byte 0xFFFFFFFF ^^^ 0xFFFFFFFF := BitVec.xor_allOnes.symm

theorem crc32_eq_feed (data : List UInt8) :
    crc32 data = ~~~ Crc.feed polynomial 0xFFFFFFFF (bits data) := by
  rw [crc32, foldl_crc32Byte]

/-- The bits tell bytes apart. -/
theorem getElem?_eq_of_bits {data data' : List UInt8} {i : ℕ}
    (h : ∀ j < 8, (bits data)[8 * i + j]? = (bits data')[8 * i + j]?) : data[i]? = data'[i]? := by
  have hbit (j : ℕ) (hj : j < 8) : data[i]?.map (fun byte => byte.toBitVec.getLsbD j) =
      data'[i]?.map fun byte => byte.toBitVec.getLsbD j := by
    rw [← bits_getElem? _ _ hj, h j hj, bits_getElem? _ _ hj]
  cases hget : data[i]? with
  | none =>
      cases hget' : data'[i]? with
      | none => rfl
      | some byte' => simpa [hget, hget'] using hbit 0 (by decide)
  | some byte =>
      cases hget' : data'[i]? with
      | none => simpa [hget, hget'] using hbit 0 (by decide)
      | some byte' =>
          refine congrArg some (UInt8.toBitVec_inj.1 (BitVec.eq_of_getLsbD_eq fun j hj => ?_))
          simpa [hget, hget'] using hbit j hj

/-- The bits tell the bytes apart. -/
theorem bits_injective : Function.Injective bits := by
  intro data data' h
  exact List.ext_getElem? fun i => getElem?_eq_of_bits fun j _ => by rw [h]

/-! ### Damage -/

/-- **Damage**: the byte strings have one length and differ, and only inside one window of at most 32
consecutive bits. -/
structure Damaged (data data' : List UInt8) : Prop where
  length_eq : data.length = data'.length
  ne : data ≠ data'
  window : ∃ start, ∀ i, (bits data)[i]? ≠ (bits data')[i]? → start ≤ i ∧ i < start + 32

variable {data data' : List UInt8}

theorem Damaged.burst (h : Damaged data data') : Crc.Burst 32 (bits data) (bits data') where
  length_eq := by rw [length_bits, length_bits, h.length_eq]
  ne heq := h.ne (bits_injective heq)
  window := h.window

/-- In a few bytes every change is within a window. -/
theorem Damaged.of_length_le (hlen : data.length = data'.length) (hne : data ≠ data')
    (hle : data.length ≤ 4) : Damaged data data' := by
  refine ⟨hlen, hne, 0, fun i hdiff => ⟨Nat.zero_le i, ?_⟩⟩
  by_contra hge
  refine hdiff ?_
  rw [List.getElem?_eq_none (by rw [length_bits]; omega),
    List.getElem?_eq_none (by rw [length_bits]; omega)]

/-- **Damage changes the checksum.** -/
theorem Damaged.crc32_ne (h : Damaged data data') : crc32 data ≠ crc32 data' := by
  rw [crc32_eq_feed, crc32_eq_feed]
  intro heq
  exact Crc.feed_ne_of_burst polynomial_msb h.burst _ (BitVec.not_inj.1 heq)

/-! ### The comparison -/

/-- What the comparison of the checksums answers if they differ. -/
def checksumMismatch (place : String) (stored computed : List Char) : StorageError :=
  .corruption ("checksum mismatch " ++ place ++ ": stored " ++ String.ofList stored ++
    ", computed " ++ String.ofList computed)

/-- The comparison refuses other data than those of the checksum, if their checksums differ. -/
theorem verifyChecksum_ne {data text : List Char}
    (h : crc32 (Text.encode data) ≠ crc32 (Text.encode text)) (format place : String) :
    verifyChecksum format place (text ++ ' ' :: checksumText data) =
      .error (checksumMismatch place (checksumText data) (checksumText text)) := by
  rw [verifyChecksum_eq, if_pos fun heq => h (BitVec.toNat_inj.1 heq)]
  rfl

end RaftVibe
