import Mathlib.Logic.Function.Iterate
import Mathlib.Tactic.Common

/-!
# Cyclic redundancy checks

A register of `w` bits moves down one place at a time, and the polynomial is added whenever
a one falls out. A byte is added at the low end and followed by eight such moves.

* `shift_xor`, `shift_injective`: one move is linear, and loses nothing when the polynomial
  has its top bit set.
* `serial_eq_run`: reading bytes is reading their bits.
* `run_injective`: whatever is read, different registers stay different.
* `run_burst`: two messages that differ in at most `w` consecutive bits leave different
  registers.
-/

namespace Crc

variable {w : ℕ} (p : BitVec w)

/-- One move of the register. -/
def shift (s : BitVec w) : BitVec w := if s.getLsbD 0 then p ^^^ (s >>> 1) else s >>> 1

/-- A byte at the low end of a register. -/
def low (b : UInt8) : BitVec w := b.toBitVec.setWidth w

/-- A byte is read. -/
def feed (s : BitVec w) (b : UInt8) : BitVec w := (shift p)^[8] (s ^^^ low b)

/-- A message is read. -/
def run (s : BitVec w) (bs : List UInt8) : BitVec w := bs.foldl (feed p) s

/-- A bit is read: what falls out is compared with it. -/
def feedBit (s : BitVec w) (b : Bool) : BitVec w :=
  if (s.getLsbD 0 ^^ b) = true then p ^^^ (s >>> 1) else s >>> 1

/-- The bits of a message, the lowest bit of each byte first. -/
def bits (bs : List UInt8) : List Bool :=
  bs.flatMap fun b => (List.range 8).map b.toBitVec.getLsbD

/-- A message is read bit by bit. -/
def serial (s : BitVec w) (bs : List UInt8) : BitVec w := (bits bs).foldl (feedBit p) s

/-- A message as a register, its first byte lowest. -/
def word : List UInt8 → BitVec w
  | [] => 0
  | b :: bs => low b ^^^ (word bs <<< 8)

/-! ## One move -/

theorem shift_xor (s t : BitVec w) : shift p (s ^^^ t) = shift p s ^^^ shift p t := by
  unfold shift
  rw [BitVec.getLsbD_xor, BitVec.ushiftRight_xor_distrib]
  -- the polynomial is added on the left, on the right, on both sides or on neither
  cases s.getLsbD 0 <;> cases t.getLsbD 0
  · rfl
  · simp only [Bool.false_bne, if_true, Bool.false_eq_true, if_false]; ac_rfl
  · simp only [Bool.bne_false, if_true, Bool.false_eq_true, if_false]; ac_rfl
  · have h : p ^^^ (s >>> 1) ^^^ (p ^^^ (t >>> 1)) = (p ^^^ p) ^^^ (s >>> 1 ^^^ t >>> 1) := by ac_rfl
    simp [h]

theorem iterate_shift_xor (n : ℕ) (s t : BitVec w) :
    (shift p)^[n] (s ^^^ t) = (shift p)^[n] s ^^^ (shift p)^[n] t := by
  induction n generalizing s t with
  | zero => rfl
  | succ n ih => rw [Function.iterate_succ_apply, Function.iterate_succ_apply,
      Function.iterate_succ_apply, shift_xor, ih]

section top

variable {p}

/-- The top bit after a move is the bit that fell out. -/
theorem msb_shift (hp : p.msb = true) (s : BitVec w) : (shift p s).msb = s.getLsbD 0 := by
  have hw : 0 < w := by
    rcases Nat.eq_zero_or_pos w with rfl | h
    · simp [BitVec.msb, BitVec.getMsbD] at hp
    · exact h
  have hs : (s >>> 1).msb = false := by
    rw [BitVec.msb_eq_getLsbD_last, BitVec.getLsbD_ushiftRight]
    exact BitVec.getLsbD_of_ge _ _ (by omega)
  unfold shift
  split
  · rename_i h; rw [BitVec.msb_xor, hp, hs, h]; rfl
  · rename_i h; rw [hs]; simpa using h

theorem shift_injective (hp : p.msb = true) : Function.Injective (shift p) := by
  intro s t h
  have hl : s.getLsbD 0 = t.getLsbD 0 := by rw [← msb_shift hp s, ← msb_shift hp t, h]
  have hr : s >>> 1 = t >>> 1 := by
    unfold shift at h
    rw [hl] at h
    split at h
    · have := congrArg (p ^^^ ·) h
      simpa [← BitVec.xor_assoc] using this
    · exact h
  apply BitVec.eq_of_getLsbD_eq
  intro i hi
  cases i with
  | zero => exact hl
  | succ i =>
    have := congrArg (BitVec.getLsbD · i) hr
    simpa [BitVec.getLsbD_ushiftRight, Nat.add_comm] using this

end top

/-- A register whose low `n` bits are clear only moves down. -/
theorem iterate_shift_of_low {n : ℕ} : ∀ {s : BitVec w}, (∀ i < n, s.getLsbD i = false) →
    (shift p)^[n] s = s >>> n := by
  induction n with
  | zero => intro s _; simp
  | succ n ih =>
    intro s hs
    have h0 : shift p s = s >>> 1 := by
      unfold shift; rw [hs 0 (by omega)]; simp
    rw [Function.iterate_succ_apply, h0, ih, ← BitVec.shiftRight_add, Nat.add_comm]
    intro i hi
    rw [BitVec.getLsbD_ushiftRight]
    exact hs (1 + i) (by omega)

/-! ## A message -/

@[simp] theorem run_nil (s : BitVec w) : run p s [] = s := rfl

@[simp] theorem run_cons (s : BitVec w) (b : UInt8) (bs : List UInt8) :
    run p s (b :: bs) = run p (feed p s b) bs := rfl

theorem run_append (s : BitVec w) (as bs : List UInt8) :
    run p s (as ++ bs) = run p (run p s as) bs := List.foldl_append

theorem getLsbD_low {b : UInt8} {i : ℕ} (hi : 8 ≤ i) : (low b : BitVec w).getLsbD i = false := by
  unfold low
  rw [BitVec.getLsbD_setWidth, BitVec.getLsbD_of_ge _ _ hi, Bool.and_false]

/-- The bits of a word that was added at the low end are read one after the other. -/
theorem iterate_shift_xor_bits (n : ℕ) (s x : BitVec w) :
    (shift p)^[n] (s ^^^ x) = ((List.range n).map x.getLsbD).foldl (feedBit p) s ^^^ (x >>> n) := by
  induction n generalizing s x with
  | zero => simp
  | succ n ih =>
    have hone : shift p (s ^^^ x) = feedBit p s (x.getLsbD 0) ^^^ (x >>> 1) := by
      unfold shift feedBit
      rw [BitVec.getLsbD_xor, BitVec.ushiftRight_xor_distrib]
      split
      · rw [BitVec.xor_assoc]
      · rfl
    have hbits : (List.range (n + 1)).map x.getLsbD =
        x.getLsbD 0 :: (List.range n).map (x >>> 1).getLsbD := by
      rw [List.range_succ_eq_map, List.map_cons, List.map_map]
      congr 1
      apply List.map_congr_left
      intro i _
      rw [Function.comp_apply, BitVec.getLsbD_ushiftRight, Nat.add_comm]
    rw [Function.iterate_succ_apply, hone, ih, hbits, List.foldl_cons, ← BitVec.shiftRight_add, Nat.add_comm]

theorem feed_eq (hw : 8 ≤ w) (s : BitVec w) (b : UInt8) :
    feed p s b = ((List.range 8).map b.toBitVec.getLsbD).foldl (feedBit p) s := by
  have hlow : (List.range 8).map (low b : BitVec w).getLsbD = (List.range 8).map b.toBitVec.getLsbD := by
    apply List.map_congr_left
    intro i hi
    have hi := List.mem_range.1 hi
    simp [low, show i < w by omega]
  have hzero : (low b : BitVec w) >>> 8 = 0 := by
    apply BitVec.eq_of_getLsbD_eq
    intro i _
    rw [BitVec.getLsbD_ushiftRight, getLsbD_low (by omega)]
    simp
  rw [feed, iterate_shift_xor_bits, hlow, hzero]
  simp

/-- **Reading bytes is reading their bits.** -/
theorem serial_eq_run (hw : 8 ≤ w) (s : BitVec w) (bs : List UInt8) : serial p s bs = run p s bs := by
  induction bs generalizing s with
  | nil => rfl
  | cons b bs ih =>
    rw [run_cons, ← ih, feed_eq p hw, serial, bits, List.flatMap_cons, List.foldl_append]
    rfl

theorem run_injective {p : BitVec w} (hp : p.msb = true) {s t : BitVec w} {bs : List UInt8}
    (h : run p s bs = run p t bs) : s = t := by
  induction bs generalizing s t with
  | nil => exact h
  | cons b bs ih =>
    have hb := (shift_injective hp).iterate 8 (ih h)
    exact (BitVec.xor_left_inj _).1 hb

/-- A message of `n` bytes fills the low `8 * n` bits. -/
theorem getLsbD_word {bs : List UInt8} {i : ℕ} (hi : 8 * bs.length ≤ i) :
    (word bs : BitVec w).getLsbD i = false := by
  induction bs generalizing i with
  | nil => simp [word]
  | cons b bs ih =>
    rw [List.length_cons] at hi
    rw [word, BitVec.getLsbD_xor, getLsbD_low (by omega), BitVec.getLsbD_shiftLeft,
      ih (by omega)]
    simp

/-- **A message that fits in the register** enters it as a whole. -/
theorem run_eq {bs : List UInt8} (hw : 8 * bs.length ≤ w) (s : BitVec w) :
    run p s bs = (shift p)^[8 * bs.length] (s ^^^ word bs) := by
  induction bs generalizing s with
  | nil => simp [word]
  | cons b bs ih =>
    rw [List.length_cons] at hw
    -- the bytes behind `b` reach the low end once `b` is through
    have hup : word bs = (shift p)^[8] (word bs <<< 8) := by
      rw [iterate_shift_of_low]
      · apply BitVec.eq_of_getLsbD_eq
        intro i hi
        rw [BitVec.getLsbD_ushiftRight, BitVec.getLsbD_shiftLeft]
        by_cases h : 8 + i < w
        · simp [h]
        · rw [getLsbD_word (by omega)]; simp [h]
      · intro i hi
        rw [BitVec.getLsbD_shiftLeft]; simp [hi]
    rw [run_cons, ih (by omega), feed, word, ← BitVec.xor_assoc, List.length_cons,
      show 8 * (bs.length + 1) = 8 * bs.length + 8 by omega, Function.iterate_add_apply,
      iterate_shift_xor p 8 (s ^^^ low b), ← hup]

theorem word_injective {as bs : List UInt8} (hl : as.length = bs.length) (hw : 8 * as.length ≤ w)
    (h : (word as : BitVec w) = word bs) : as = bs := by
  induction as generalizing bs with
  | nil => exact (List.length_eq_zero_iff.1 hl.symm).symm
  | cons a as ih =>
    obtain ⟨b, bs, rfl⟩ : ∃ b bs', bs = b :: bs' := List.exists_cons_of_length_eq_add_one hl.symm
    simp only [List.length_cons, Nat.add_right_cancel_iff] at hl hw
    have hbit : ∀ i, (word (a :: as) : BitVec w).getLsbD i = (word (b :: bs) : BitVec w).getLsbD i :=
      fun i => by rw [h]
    simp only [word, BitVec.getLsbD_xor, BitVec.getLsbD_shiftLeft] at hbit
    have hab : a = b := by
      apply UInt8.toBitVec_inj.1
      apply BitVec.eq_of_getLsbD_eq
      intro i hi
      have := hbit i
      simpa [hi, low, BitVec.getLsbD_setWidth, show i < w by omega] using this
    have has : (word as : BitVec w) = word bs := by
      apply BitVec.eq_of_getLsbD_eq
      intro i hi
      by_cases h8 : i + 8 < w
      · have := hbit (i + 8)
        rw [getLsbD_low (by omega), getLsbD_low (by omega)] at this
        simpa [h8, show ¬i + 8 < 8 by omega] using this
      · rw [getLsbD_word (by omega), getLsbD_word (by omega)]
    rw [hab, ih hl (by omega) has]

/-- **Bursts are detected**: two messages that differ in at most `w` consecutive bits, here
whole bytes, leave different registers. -/
theorem run_burst {p : BitVec w} (hp : p.msb = true) {s : BitVec w} {as xs ys bs : List UInt8}
    (hl : xs.length = ys.length) (hw : 8 * xs.length ≤ w)
    (h : run p s (as ++ xs ++ bs) = run p s (as ++ ys ++ bs)) : xs = ys := by
  rw [run_append, run_append p _ _ bs, run_append, run_append p _ as ys] at h
  have hx : run p (run p s as) xs = run p (run p s as) ys := run_injective hp h
  have hw' : 8 * ys.length ≤ w := by omega
  generalize run p s as = s' at hx
  rw [run_eq p hw, run_eq p hw', hl] at hx
  have hx := (shift_injective hp).iterate _ hx
  exact word_injective hl hw ((BitVec.xor_right_inj _).1 hx)

end Crc
