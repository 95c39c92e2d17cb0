import MiniLSM.Lib.Crc
import MiniLSM.Spec.Coding

/-!
# `CRC32` is the reflected CRC-32 and detects bursts

The table holds eight moves of every byte, so `CRC32` is the register of `Crc.run` under
the reflected polynomial, with all bits inverted before and after.

* `crcByte_toBitVec`: one step of the loop of `CRC32` reads one byte.
* `crc32_burst`: two inputs that differ in at most four consecutive bytes have different
  checksums.
* `crc32_serial_and_bursts`: `CRC32` is what reading bit by bit gives, and two inputs of one length
  that differ inside a window of four bytes have different checksums.
-/

namespace MiniLSM

/-- The polynomial of `InitCRCTable`. -/
def crcPoly : BitVec 32 := 0xEDB88320

theorem crcPoly_msb : crcPoly.msb = true := by decide

theorem and_one_ne_zero (c : UInt32) : c &&& 1 ≠ 0 ↔ c.toBitVec.getLsbD 0 = true := by
  rw [ne_eq, ← UInt32.toBitVec_inj, UInt32.toBitVec_and,
    show (1 : UInt32).toBitVec = 1#32 from rfl, BitVec.and_one_eq_setWidth_ofBool_getLsbD]
  cases c.toBitVec.getLsbD 0 <;> decide

theorem crcBit_toBitVec (c : UInt32) : (crcBit c).toBitVec = Crc.shift crcPoly c.toBitVec := by
  unfold crcBit Crc.shift
  simp only [and_one_ne_zero]
  split
  · rw [UInt32.toBitVec_xor, UInt32.toBitVec_shiftRight]; rfl
  · rw [UInt32.toBitVec_shiftRight]; rfl

theorem iterate_crcBit_toBitVec (n : ℕ) (c : UInt32) :
    (crcBit^[n] c).toBitVec = (Crc.shift crcPoly)^[n] c.toBitVec := by
  induction n generalizing c with
  | zero => rfl
  | succ n ih => rw [Function.iterate_succ_apply, Function.iterate_succ_apply, ih, crcBit_toBitVec]

theorem getLsbD_byteMask {i : ℕ} (hi : i < 32) : (0xFF : BitVec 32).getLsbD i = decide (i < 8) := by
  have h : ∀ i : Fin 32, (0xFF : BitVec 32).getLsbD i = decide (i.val < 8) := by decide
  exact h ⟨i, hi⟩

/-- Eight moves send the low byte through the table and move the rest down. -/
theorem iterate_shift_eight (x : BitVec 32) :
    (Crc.shift crcPoly)^[8] x = (Crc.shift crcPoly)^[8] (x &&& 0xFF) ^^^ (x >>> 8) := by
  have hsplit : x = (x &&& 0xFF) ^^^ (x &&& ~~~0xFF) := by
    ext i hi
    simp only [BitVec.getElem_xor, BitVec.getElem_and, BitVec.getElem_not]
    grind
  have hlow : ∀ i < 8, (x &&& ~~~0xFF).getLsbD i = false := by
    intro i hi
    rw [BitVec.getLsbD_and, BitVec.getLsbD_not, getLsbD_byteMask (by omega)]
    simp [hi]
  have hhigh : (x &&& ~~~0xFF) >>> 8 = x >>> 8 := by
    apply BitVec.eq_of_getLsbD_eq
    intro i hi
    simp only [BitVec.getLsbD_ushiftRight, BitVec.getLsbD_and, BitVec.getLsbD_not]
    by_cases h : 8 + i < 32
    · rw [getLsbD_byteMask h]; simp [h]
    · rw [BitVec.getLsbD_of_ge x _ (by omega)]; rfl
  conv_lhs => rw [hsplit]
  rw [Crc.iterate_shift_xor, Crc.iterate_shift_of_low crcPoly hlow, hhigh]

/-- **One step of `CRC32`** reads one byte. -/
theorem crcByte_toBitVec (c : UInt32) (b : UInt8) :
    (crcByte c b).toBitVec = Crc.feed crcPoly c.toBitVec b := by
  have hb : (Crc.low b : BitVec 32) >>> 8 = 0 := by
    apply BitVec.eq_of_getLsbD_eq
    intro i _
    rw [BitVec.getLsbD_ushiftRight, Crc.getLsbD_low (by omega)]
    simp
  have hlow : b.toUInt32.toBitVec = Crc.low b := rfl
  unfold crcByte Crc.feed crcTable
  rw [iterate_shift_eight, BitVec.ushiftRight_xor_distrib, hb, UInt32.toBitVec_xor,
    iterate_crcBit_toBitVec, UInt32.toBitVec_and, UInt32.toBitVec_xor, hlow,
    UInt32.toBitVec_shiftRight]
  simp

theorem foldl_crcByte_toBitVec (c : UInt32) (data : Bytes) :
    (data.foldl crcByte c).toBitVec = Crc.run crcPoly c.toBitVec data := by
  induction data generalizing c with
  | nil => rfl
  | cons b data ih => rw [List.foldl_cons, ih, Crc.run_cons, crcByte_toBitVec]

/-- **Bursts of up to four bytes change the checksum.** -/
theorem crc32_burst {as xs ys bs : Bytes} (hl : xs.length = ys.length) (h4 : xs.length ≤ 4)
    (hne : xs ≠ ys) : crc32 (as ++ xs ++ bs) ≠ crc32 (as ++ ys ++ bs) := by
  intro h
  unfold crc32 at h
  have h := congrArg UInt32.toBitVec (UInt32.xor_left_inj _ |>.1 h)
  rw [foldl_crcByte_toBitVec, foldl_crcByte_toBitVec] at h
  exact hne (Crc.run_burst crcPoly_msb hl (by omega) h)

/-- **The reflected CRC-32**, bit by bit: the register starts with all bits set and is inverted at
the end. -/
def crc32Serial (data : Bytes) : BitVec 32 := Crc.serial crcPoly (BitVec.allOnes 32) data ^^^ BitVec.allOnes 32

theorem crc32_toBitVec (data : Bytes) : (crc32 data).toBitVec = crc32Serial data := by
  have hones : (0xFFFFFFFF : UInt32).toBitVec = BitVec.allOnes 32 := rfl
  rw [crc32, UInt32.toBitVec_xor, foldl_crcByte_toBitVec, crc32Serial,
    Crc.serial_eq_run crcPoly (by decide), hones]

-- the check value of the CRC-32, of the digits 1 to 9
example : crc32 [49, 50, 51, 52, 53, 54, 55, 56, 57] = 0xCBF43926 := by decide +kernel

/-- Lists of one length that agree outside a window are equal around it. -/
theorem split_window {as bs : Bytes} (hlen : as.length = bs.length) (i n : ℕ)
    (hout : ∀ j, j < i ∨ i + n ≤ j → as[j]? = bs[j]?) :
    ∃ pre xs ys post, as = pre ++ xs ++ post ∧ bs = pre ++ ys ++ post ∧
      xs.length = ys.length ∧ xs.length ≤ n := by
  have hpre : as.take i = bs.take i := by
    apply List.ext_getElem?
    intro j
    rw [List.getElem?_take, List.getElem?_take]
    split
    · exact hout j (.inl ‹_›)
    · rfl
  have hpost : (as.drop i).drop n = (bs.drop i).drop n := by
    apply List.ext_getElem?
    intro j
    rw [List.drop_drop, List.drop_drop, List.getElem?_drop, List.getElem?_drop]
    exact hout _ (.inr (Nat.le_add_right _ _))
  refine ⟨as.take i, (as.drop i).take n, (bs.drop i).take n, (as.drop i).drop n, ?_, ?_, ?_, ?_⟩
  · rw [List.append_assoc, List.take_append_drop, List.take_append_drop]
  · rw [hpre, hpost, List.append_assoc, List.take_append_drop, List.take_append_drop]
  · rw [List.length_take, List.length_take, List.length_drop, List.length_drop, hlen]
  · exact List.length_take_le _ _

/-- **`CRC32` is the bit-by-bit CRC-32**, and two inputs of one length that differ only inside some
window of four bytes have different checksums. -/
theorem crc32_serial_and_bursts :
    (∀ data : Bytes, (crc32 data).toBitVec = crc32Serial data) ∧
    ∀ (as bs : Bytes) (i : ℕ), as.length = bs.length →
      (∀ j, j < i ∨ i + 4 ≤ j → as[j]? = bs[j]?) → as ≠ bs → crc32 as ≠ crc32 bs := by
  refine ⟨crc32_toBitVec, fun as bs i hlen hout hne => ?_⟩
  obtain ⟨pre, xs, ys, post, rfl, rfl, hl, h4⟩ := split_window hlen i 4 hout
  apply crc32_burst hl h4
  rintro rfl
  exact hne rfl

theorem crc32_serial_and_bursts_swap :
    (crc32 [1, 2, 3]).toBitVec = crc32Serial [1, 2, 3] ∧ crc32 [1, 2, 3] ≠ crc32 [1, 3, 2] :=
  ⟨crc32_serial_and_bursts.1 [1, 2, 3],
    crc32_serial_and_bursts.2 [1, 2, 3] [1, 3, 2] 1 rfl
      (fun j hj => by
        rcases hj with hj | hj
        · obtain rfl : j = 0 := by omega
          rfl
        · rw [List.getElem?_eq_none (by simp; omega), List.getElem?_eq_none (by simp; omega)])
      (by decide)⟩

end MiniLSM
