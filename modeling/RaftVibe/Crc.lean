/-
**Shift registers that check bits.**

A register of `w` bits takes in bits one by one.  Each is added to the lowest bit of the register,
which is then shifted down by one place; if a one falls out, a polynomial is added.  All of this is
addition without carries, so taking in up to `w` bits is adding them as one word and shifting.  If
the polynomial has the highest bit, a shift loses nothing, and then two texts that differ within a
window no wider than the register never leave the same register.

Main definitions:

* `Crc.step`, `Crc.unstep` — one shift, and one shift back;
* `Crc.feed` — taking in bits;
* `Crc.word` — bits as a word, the first one lowest;
* `Crc.Burst` — two texts that differ, within a window.

Main results:

* `Crc.step_xor`, `Crc.unstep_step` — a shift is linear, and can be undone;
* `Crc.feed_eq_iterate` — taking in bits is adding a word and shifting;
* `Crc.xor_eq_of_feed`, `Crc.toNat_xor_lt_of_feed` — how registers that become the same differ;
* `Crc.iterate_unstep_feed` — what was taken in, computed back;
* `Crc.feed_ne_of_burst` — **a burst is detected**.
-/

import Mathlib

set_option relaxedAutoImplicit false
set_option autoImplicit false

namespace Crc

variable {w : ℕ}

/-! ### One shift -/

/-- One shift: if the lowest bit is a one, the polynomial is added. -/
def step (poly reg : BitVec w) : BitVec w :=
  if reg.getLsbD 0 then (reg >>> 1) ^^^ poly else reg >>> 1

variable {poly : BitVec w}

/-- A shift is linear. -/
theorem step_xor (a b : BitVec w) : step poly (a ^^^ b) = step poly a ^^^ step poly b := by
  unfold step
  rw [BitVec.getLsbD_xor, BitVec.ushiftRight_xor_distrib]
  cases a.getLsbD 0 <;> cases b.getLsbD 0
  · rfl
  · exact BitVec.xor_assoc ..
  · show (a >>> 1 ^^^ b >>> 1) ^^^ poly = (a >>> 1 ^^^ poly) ^^^ b >>> 1
    rw [BitVec.xor_assoc, BitVec.xor_assoc, BitVec.xor_comm (b >>> 1)]
  · -- the polynomial is added twice
    show a >>> 1 ^^^ b >>> 1 = (a >>> 1 ^^^ poly) ^^^ (b >>> 1 ^^^ poly)
    rw [BitVec.xor_comm (b >>> 1), BitVec.xor_assoc, ← BitVec.xor_assoc poly, BitVec.xor_self,
      BitVec.zero_xor]

/-- One shift back: the highest bit tells whether the polynomial was added. -/
def unstep (poly reg : BitVec w) : BitVec w :=
  if reg.msb then ((reg ^^^ poly) <<< 1) ||| 1#w else reg <<< 1

/-- Shifting down and up again, without the lowest bit. -/
theorem getLsbD_shiftLeft_ushiftRight (a : BitVec w) {i : ℕ} (hi : i < w) :
    ((a >>> 1) <<< 1).getLsbD i = (decide (0 < i) && a.getLsbD i) := by
  cases i with
  | zero => simp
  | succ i => simp [hi, Nat.add_comm 1]

/-- **A shift can be undone**, if the polynomial has the highest bit. -/
theorem unstep_step (hpoly : poly.msb = true) (a : BitVec w) : unstep poly (step poly a) = a := by
  have hw : 0 < w := by
    rw [BitVec.msb_eq_getLsbD_last] at hpoly
    have := BitVec.lt_of_getLsbD hpoly
    omega
  have hout : (a >>> 1).msb = false := by
    rw [BitVec.msb_eq_getLsbD_last, BitVec.getLsbD_ushiftRight]
    exact BitVec.getLsbD_of_ge _ _ (by omega)
  cases hlow : a.getLsbD 0 with
  | true =>
      have hmsb : (a >>> 1 ^^^ poly).msb = true := by
        rw [BitVec.msb_xor, hout, hpoly]
        rfl
      rw [step, if_pos hlow, unstep, if_pos hmsb, BitVec.xor_assoc, BitVec.xor_self,
        BitVec.xor_zero]
      refine BitVec.eq_of_getLsbD_eq fun i hi => ?_
      rw [BitVec.getLsbD_or, getLsbD_shiftLeft_ushiftRight a hi, BitVec.getLsbD_one]
      cases i with
      | zero => simp [hlow, hw]
      | succ i => simp
  | false =>
      rw [step, if_neg (by rw [hlow]; exact Bool.false_ne_true), unstep,
        if_neg (by rw [hout]; exact Bool.false_ne_true)]
      refine BitVec.eq_of_getLsbD_eq fun i hi => ?_
      rw [getLsbD_shiftLeft_ushiftRight a hi]
      cases i with
      | zero => simp [hlow]
      | succ i => simp

theorem step_injective (hpoly : poly.msb = true) : Function.Injective (step poly) :=
  Function.LeftInverse.injective (unstep_step hpoly)

theorem iterate_unstep (hpoly : poly.msb = true) (n : ℕ) (a : BitVec w) :
    (unstep poly)^[n] ((step poly)^[n] a) = a :=
  Function.LeftInverse.iterate (unstep_step hpoly) n a

/-- Shifting up and down again. -/
theorem step_shiftLeft {a : BitVec w} (h : a.getLsbD (w - 1) = false) : step poly (a <<< 1) = a := by
  have hlow : (a <<< 1).getLsbD 0 = false := by simp
  rw [step, if_neg (by rw [hlow]; exact Bool.false_ne_true)]
  refine BitVec.eq_of_getLsbD_eq fun i hi => ?_
  rw [BitVec.getLsbD_ushiftRight, BitVec.getLsbD_shiftLeft, Nat.add_sub_cancel_left]
  rcases Nat.lt_or_ge (1 + i) w with hlt | hge
  · simp [hlt]
  · obtain rfl : i = w - 1 := by omega
    rw [h]
    simp

/-! ### Taking in bits -/

/-- Bits as a word, the first one lowest. -/
def word : List Bool → BitVec w
  | [] => 0
  | b :: bits => (BitVec.ofBool b).setWidth w ^^^ (word bits <<< 1)

theorem getLsbD_word (bits : List Bool) (i : ℕ) :
    (word bits : BitVec w).getLsbD i = (decide (i < w) && bits.getD i false) := by
  induction bits generalizing i with
  | nil => simp [word]
  | cons b bits ih =>
      rw [word, BitVec.getLsbD_xor, BitVec.getLsbD_setWidth, BitVec.getLsbD_ofBool,
        BitVec.getLsbD_shiftLeft, ih]
      cases i with
      | zero => simp
      | succ i =>
          rcases Nat.lt_or_ge (i + 1) w with hlt | hge
          · simp [hlt, Nat.lt_of_succ_lt hlt]
          · simp [Nat.not_lt.2 hge]

/-- A word tells its bits apart. -/
theorem word_injective {bits bits' : List Bool} (hlen : bits.length = bits'.length)
    (hw : bits.length ≤ w) (h : (word bits : BitVec w) = word bits') : bits = bits' := by
  refine List.ext_getElem hlen fun i hi hi' => ?_
  have hbit := congrArg (fun x => x.getLsbD i) h
  simp only [getLsbD_word] at hbit
  rwa [decide_eq_true (by omega), Bool.true_and, Bool.true_and, List.getD_eq_getElem _ _ hi,
    List.getD_eq_getElem _ _ hi'] at hbit

theorem toNat_word_lt (bits : List Bool) : (word bits : BitVec w).toNat < 2 ^ bits.length := by
  refine Nat.lt_pow_two_of_testBit _ fun i hi => ?_
  rw [BitVec.testBit_toNat, getLsbD_word, List.getD_eq_default _ _ hi, Bool.and_false]

/-- Taking in bits: each is added to the lowest bit before the shift. -/
def feed (poly reg : BitVec w) (bits : List Bool) : BitVec w :=
  bits.foldl (fun reg b => step poly (reg ^^^ (BitVec.ofBool b).setWidth w)) reg

@[simp] theorem feed_nil (reg : BitVec w) : feed poly reg [] = reg := rfl

@[simp] theorem feed_cons (reg : BitVec w) (b : Bool) (bits : List Bool) :
    feed poly reg (b :: bits) =
      feed poly (step poly (reg ^^^ (BitVec.ofBool b).setWidth w)) bits := rfl

@[simp] theorem feed_append (reg : BitVec w) (bits bits' : List Bool) :
    feed poly reg (bits ++ bits') = feed poly (feed poly reg bits) bits' :=
  List.foldl_append

/-- **Taking in up to `w` bits is adding them as a word and shifting.** -/
theorem feed_eq_iterate {bits : List Bool} (h : bits.length ≤ w) (reg : BitVec w) :
    feed poly reg bits = (step poly)^[bits.length] (reg ^^^ word bits) := by
  induction bits generalizing reg with
  | nil => simp [word]
  | cons b bits ih =>
      rw [List.length_cons] at h
      have hclear : (word bits : BitVec w).getLsbD (w - 1) = false := by
        rw [getLsbD_word, List.getD_eq_default _ _ (by omega), Bool.and_false]
      rw [feed_cons, ih (by omega), List.length_cons, Function.iterate_succ_apply, word,
        ← BitVec.xor_assoc, step_xor (reg ^^^ _), step_shiftLeft hclear]

/-- No register is lost on the way. -/
theorem feed_left_injective (hpoly : poly.msb = true) (bits : List Bool) :
    Function.Injective fun reg => feed poly reg bits := by
  induction bits with
  | nil => exact fun _ _ h => h
  | cons b bits ih =>
      intro reg reg' h
      exact (BitVec.xor_left_inj _).1 (step_injective hpoly (ih h))

/-- **Two registers that become the same** over texts that end in the same way: the difference between
them is the one between the words at the beginning. -/
theorem xor_eq_of_feed (hpoly : poly.msb = true) {reg reg' : BitVec w} {bits bits' after : List Bool}
    (hlen : bits.length = bits'.length) (hw : bits.length ≤ w)
    (h : feed poly reg (bits ++ after) = feed poly reg' (bits' ++ after)) :
    reg ^^^ reg' = word bits ^^^ word bits' := by
  rw [feed_append, feed_append] at h
  have hfeed := feed_left_injective hpoly after h
  rw [feed_eq_iterate hw, feed_eq_iterate (hlen ▸ hw), ← hlen] at hfeed
  have hxor := (step_injective hpoly).iterate bits.length hfeed
  refine BitVec.eq_of_getLsbD_eq fun i _ => ?_
  have hbit := congrArg (fun x => x.getLsbD i) hxor
  simp only [BitVec.getLsbD_xor] at hbit ⊢
  revert hbit
  cases reg.getLsbD i <;> cases reg'.getLsbD i <;> cases (word bits : BitVec w).getLsbD i <;>
    cases (word bits' : BitVec w).getLsbD i <;> simp

/-- **Registers that become the same** over texts that agree after `n` bits: they differ in the lowest
`n` bits only. -/
theorem toNat_xor_lt_of_feed (hpoly : poly.msb = true) {reg reg' : BitVec w} {bits bits' : List Bool}
    (hlen : bits.length = bits'.length) {n : ℕ} (hn : n ≤ w) (hdrop : bits.drop n = bits'.drop n)
    (h : feed poly reg bits = feed poly reg' bits') : (reg ^^^ reg').toNat < 2 ^ n := by
  rw [← List.take_append_drop n bits, ← List.take_append_drop n bits', ← hdrop] at h
  have htake : (bits.take n).length = (bits'.take n).length := by
    rw [List.length_take, List.length_take, hlen]
  have hle : (bits.take n).length ≤ n := List.length_take_le ..
  have hlt (b : List Bool) : (word (b.take n) : BitVec w).toNat < 2 ^ n :=
    Nat.lt_of_lt_of_le (toNat_word_lt _)
      (Nat.pow_le_pow_right (by decide) (List.length_take_le ..))
  rw [xor_eq_of_feed hpoly htake (Nat.le_trans hle hn) h, BitVec.toNat_xor]
  exact Nat.xor_lt_two_pow (hlt bits) (hlt bits')

/-- Shifting back what has taken in bits: the word of these, added to the register before. -/
theorem iterate_unstep_feed (hpoly : poly.msb = true) {bits : List Bool} (hw : bits.length ≤ w)
    (reg : BitVec w) :
    (unstep poly)^[bits.length] (feed poly reg bits) = reg ^^^ word bits := by
  rw [feed_eq_iterate hw, iterate_unstep hpoly]

/-! ### Bursts -/

/-- **A burst**: two texts of one length that differ, and only inside a window of `n` bits. -/
structure Burst (n : ℕ) (bits bits' : List Bool) : Prop where
  length_eq : bits.length = bits'.length
  ne : bits ≠ bits'
  window : ∃ start, ∀ i, bits[i]? ≠ bits'[i]? → start ≤ i ∧ i < start + n

/-- What comes before the window is the same, and so is what comes after it. -/
theorem Burst.split {n : ℕ} {bits bits' : List Bool} (h : Burst n bits bits') :
    ∃ before inside inside' after, bits = before ++ inside ++ after ∧
      bits' = before ++ inside' ++ after ∧ inside.length = inside'.length ∧ inside.length ≤ n ∧
      inside ≠ inside' := by
  obtain ⟨start, hwindow⟩ := h.window
  have hsame (i : ℕ) (hi : i < start ∨ start + n ≤ i) : bits[i]? = bits'[i]? := by
    by_contra hne
    have := hwindow i hne
    omega
  have hbefore : bits.take start = bits'.take start := by
    refine List.ext_getElem? fun i => ?_
    rcases Nat.lt_or_ge i start with hlt | hge
    · rw [List.getElem?_take_of_lt hlt, List.getElem?_take_of_lt hlt, hsame i (Or.inl hlt)]
    · rw [List.getElem?_take_eq_none hge, List.getElem?_take_eq_none hge]
  have hafter : (bits.drop start).drop n = (bits'.drop start).drop n := by
    refine List.ext_getElem? fun i => ?_
    simp only [List.getElem?_drop]
    exact hsame _ (Or.inr (by omega))
  have hcut (l : List Bool) : l = l.take start ++ (l.drop start).take n ++ (l.drop start).drop n := by
    rw [List.append_assoc, List.take_append_drop, List.take_append_drop]
  refine ⟨bits.take start, (bits.drop start).take n, (bits'.drop start).take n,
    (bits.drop start).drop n, hcut bits, ?_, ?_, ?_, fun hinside => h.ne ?_⟩
  · rw [hbefore, hafter]
    exact hcut bits'
  · rw [List.length_take, List.length_take, List.length_drop, List.length_drop, h.length_eq]
  · exact List.length_take_le ..
  · rw [hcut bits, hcut bits', hbefore, hinside, hafter]

/-- **A burst is detected**, if it is no wider than the register. -/
theorem feed_ne_of_burst (hpoly : poly.msb = true) {bits bits' : List Bool} (h : Burst w bits bits')
    (reg : BitVec w) : feed poly reg bits ≠ feed poly reg bits' := by
  obtain ⟨before, inside, inside', after, rfl, rfl, hlen, hle, hne⟩ := h.split
  intro heq
  rw [List.append_assoc, List.append_assoc, feed_append, feed_append reg before] at heq
  have hword := xor_eq_of_feed hpoly hlen hle heq
  rw [BitVec.xor_self] at hword
  exact hne (word_injective hlen hle (BitVec.xor_eq_zero_iff.1 hword.symm))

end Crc
