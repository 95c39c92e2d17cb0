import Mathlib.Data.Nat.Bitwise
import Mathlib.Tactic.Common
import Mathlib.Tactic.Linarith
import Mathlib.Tactic.Ring

/-!
# Base-128 variable-length integers

Seven payload bits a byte, least significant group first, the top bit set on every byte
but the last.

* `encode n v`: the encoding loop with room for `n` bytes.
* `decodeFrom w`: the decoding loop into a `w`-bit word; `none` when the bytes end before
  a last byte is seen, or a payload has no place in the word.
* `encode_length`, `encode_add`: how many bytes the loop takes.
* `decodeFrom_encode`: what the writer emits is read back, whatever follows it.
* `decodeFrom_bounds`, `decodeFrom_fits`, `decodeFrom_append`: what decoding takes from arbitrary bytes.
-/

namespace Leb128

/-- The encoding loop, writing into a buffer of `n` bytes. -/
def encode : ℕ → ℕ → List UInt8
  | 0, _ => []
  | n + 1, v =>
    if 0x80 ≤ v then UInt8.ofNat ((v &&& 0x7F) ||| 0x80) :: encode n (v >>> 7)
    else [UInt8.ofNat (v &&& 0x7F)]

/-- The payload of a byte, moved to its place in a `w`-bit word. Bits behind its end are dropped. -/
def payload (w shift : ℕ) (b : UInt8) : ℕ := ((b &&& 0x7F).toNat <<< shift) % 2 ^ w

/-- The decoding loop: the value and the number of bytes read. -/
def decodeFrom (w : ℕ) : List UInt8 → ℕ → ℕ → Option (ℕ × ℕ)
  | [], _, _ => none
  | b :: rest, shift, result =>
    -- a shift by the width of the word has no meaning
    if w ≤ shift then none
    else if b &&& 0x80 ≠ 0 then
      (decodeFrom w rest (shift + 7) (result ||| payload w shift b)).map
        fun r => (r.1, r.2 + 1)
    else some (result ||| payload w shift b, 1)

/-! ## Single bytes -/

theorem and_127 (v : ℕ) : v &&& 0x7F = v % 128 := Nat.and_two_pow_sub_one_eq_mod v 7

theorem low_or_128 (v : ℕ) : (v &&& 0x7F) ||| 0x80 = v % 128 + 128 := by
  rw [and_127, Nat.or_comm]
  have h : v % 128 < 2 ^ 7 := Nat.mod_lt v (by decide)
  have hor := Nat.two_pow_add_eq_or_of_lt h 1
  rw [Nat.mul_one] at hor
  calc 2 ^ 7 ||| v % 128 = 2 ^ 7 + v % 128 := hor.symm
    _ = v % 128 + 128 := Nat.add_comm _ _

theorem toNat_ofNat_of_lt {n : ℕ} (h : n < 256) : (UInt8.ofNat n).toNat = n := by
  rw [UInt8.toNat_ofNat']; exact Nat.mod_eq_of_lt h

theorem and_127_toNat (b : UInt8) : (b &&& 0x7F).toNat = b.toNat % 128 := by
  rw [UInt8.toNat_and]; exact and_127 _

theorem and_128_eq_zero_iff (b : UInt8) : b &&& 0x80 = 0 ↔ b.toNat < 128 := by
  have h : ∀ i : Fin 256, (i.val &&& 128 = 0 ↔ i.val < 128) := by decide +kernel
  rw [← UInt8.toNat_inj, UInt8.toNat_and]
  exact h ⟨b.toNat, b.toNat_lt⟩

/-- The payload of a byte carrying `d`, when it fits in the word. -/
theorem payload_of_digit {w s : ℕ} {b : UInt8} (h : b.toNat % 128 * 2 ^ s < 2 ^ w) :
    payload w s b = b.toNat % 128 * 2 ^ s := by
  unfold payload
  rw [and_127_toNat, Nat.shiftLeft_eq, Nat.mod_eq_of_lt h]

theorem or_mul_two_pow {r s : ℕ} (h : r < 2 ^ s) (d : ℕ) : r ||| d * 2 ^ s = r + d * 2 ^ s := by
  rw [Nat.or_comm, Nat.mul_comm, ← Nat.two_pow_add_eq_or_of_lt h, Nat.add_comm]

/-! ## The encoding -/

theorem encode_of_lt {n v : ℕ} (h : v < 128) : encode (n + 1) v = [UInt8.ofNat v] := by
  rw [encode, if_neg (by omega), and_127, Nat.mod_eq_of_lt h]

theorem encode_of_le {n v : ℕ} (h : 128 ≤ v) :
    encode (n + 1) v = UInt8.ofNat (v % 128 + 128) :: encode n (v / 128) := by
  rw [encode, if_pos h, low_or_128, Nat.shiftRight_eq_div_pow]

theorem encode_length_le (n v : ℕ) : (encode n v).length ≤ n := by
  induction n generalizing v with
  | zero => simp [encode]
  | succ n ih =>
    rcases lt_or_ge v 128 with h | h
    · rw [encode_of_lt h]; simp
    · rw [encode_of_le h]; simpa using ih (v / 128)

theorem encode_length_pos (n v : ℕ) : 0 < (encode (n + 1) v).length := by
  rcases lt_or_ge v 128 with h | h
  · rw [encode_of_lt h]; simp
  · rw [encode_of_le h]; simp

theorem div_lt_of_lt {n v : ℕ} (h : v < 2 ^ (7 * (n + 1 + 1))) : v / 128 < 2 ^ (7 * (n + 1)) := by
  rw [Nat.div_lt_iff_lt_mul (by decide)]
  rwa [Nat.mul_succ 7 (n + 1), Nat.pow_add] at h

/-- **A value of `k + 1` groups of seven bits** takes `k + 1` bytes. -/
theorem encode_length {n k v : ℕ} (hk : k < n) (hlow : k = 0 ∨ 2 ^ (7 * k) ≤ v)
    (hhigh : v < 2 ^ (7 * (k + 1))) : (encode n v).length = k + 1 := by
  obtain ⟨n, rfl⟩ : ∃ m, n = m + 1 := ⟨n - 1, by omega⟩
  induction k generalizing n v with
  | zero => rw [encode_of_lt (by simpa using hhigh)]; rfl
  | succ k ih =>
    have hle : 2 ^ (7 * k) * 128 ≤ v := by
      have := hlow.resolve_left (Nat.succ_ne_zero k)
      rwa [Nat.mul_succ, Nat.pow_add] at this
    have hpos : 1 ≤ 2 ^ (7 * k) := Nat.one_le_two_pow
    obtain ⟨n, rfl⟩ : ∃ m, n = m + 1 := ⟨n - 1, by omega⟩
    have hrest := ih (n := n) (v := v / 128) (Or.inr ((Nat.le_div_iff_mul_le (by decide)).2 hle))
      (div_lt_of_lt hhigh) (by omega)
    rw [encode_of_le (by omega), List.length_cons, hrest]

/-- **The loop ends in a buffer that has room** for the value; more room changes nothing. -/
theorem encode_add {n v : ℕ} (hv : v < 2 ^ (7 * (n + 1))) (m : ℕ) :
    encode (n + 1 + m) v = encode (n + 1) v := by
  induction n generalizing v with
  | zero => rw [Nat.add_comm, encode_of_lt (by simpa using hv), encode_of_lt (by simpa using hv)]
  | succ n ih =>
    rw [Nat.add_right_comm]
    rcases lt_or_ge v 128 with h | h
    · rw [encode_of_lt h, encode_of_lt h]
    · rw [encode_of_le h, encode_of_le h, ih (div_lt_of_lt hv)]

/-! ## Reading back -/

section digits

variable {v : ℕ}

/-- The last byte of an encoding. -/
theorem last_byte (hv : v < 128) : UInt8.ofNat v &&& 0x80 = 0 := by
  rw [and_128_eq_zero_iff, toNat_ofNat_of_lt (by omega)]; exact hv

/-- A byte with more behind it. -/
theorem more_byte (v : ℕ) : UInt8.ofNat (v % 128 + 128) &&& 0x80 ≠ 0 := by
  rw [ne_eq, and_128_eq_zero_iff, toNat_ofNat_of_lt (by omega)]; omega

theorem or_payload_last {w s r : ℕ} (hv : v < 128) (hw : v * 2 ^ s < 2 ^ w) (hr : r < 2 ^ s) :
    r ||| payload w s (UInt8.ofNat v) = r + v * 2 ^ s := by
  have hd : (UInt8.ofNat v).toNat % 128 = v := by rw [toNat_ofNat_of_lt (by omega)]; omega
  rw [payload_of_digit (by rwa [hd]), hd, or_mul_two_pow hr]

theorem or_payload_more {w s r : ℕ} (hw : v * 2 ^ s < 2 ^ w) (hr : r < 2 ^ s) :
    r ||| payload w s (UInt8.ofNat (v % 128 + 128)) = r + v % 128 * 2 ^ s := by
  have hd : (UInt8.ofNat (v % 128 + 128)).toNat % 128 = v % 128 := by
    rw [toNat_ofNat_of_lt (by omega)]; omega
  have hle : v % 128 * 2 ^ s ≤ v * 2 ^ s := Nat.mul_le_mul_right _ (Nat.mod_le _ _)
  rw [payload_of_digit (by rw [hd]; omega), hd, or_mul_two_pow hr]

/-- Splitting off the lowest seven bits. -/
theorem split_digit (v s : ℕ) : v * 2 ^ s = v % 128 * 2 ^ s + v / 128 * 2 ^ (s + 7) := by
  conv_lhs => rw [← Nat.div_add_mod v 128]
  rw [Nat.pow_add]; ring

theorem add_digit_lt {r s : ℕ} (hr : r < 2 ^ s) (v : ℕ) : r + v % 128 * 2 ^ s < 2 ^ (s + 7) := by
  have h : v % 128 + 1 ≤ 128 := Nat.mod_lt v (by decide)
  have := Nat.mul_le_mul_right (2 ^ s) h
  rw [Nat.pow_add]; linarith

end digits

/-- **The decoder undoes the encoder**, from any position in the word and whatever
follows the encoding. -/
theorem decodeFrom_encode {w : ℕ} (n v s r : ℕ) (rest : List UInt8) (hn : v < 2 ^ (7 * (n + 1)))
    (hs : s < w) (hw : v * 2 ^ s < 2 ^ w) (hr : r < 2 ^ s) :
    decodeFrom w (encode (n + 1) v ++ rest) s r =
      some (r + v * 2 ^ s, (encode (n + 1) v).length) := by
  have hlast : ∀ m v s r, v < 128 → s < w → v * 2 ^ s < 2 ^ w → r < 2 ^ s →
      decodeFrom w (encode (m + 1) v ++ rest) s r =
        some (r + v * 2 ^ s, (encode (m + 1) v).length) := by
    intro m v s r hv hs hw hr
    rw [encode_of_lt hv, List.singleton_append, decodeFrom, if_neg (not_le.2 hs),
      if_neg (not_not.2 (last_byte hv)), or_payload_last hv hw hr]
    rfl
  induction n generalizing v s r with
  | zero => exact hlast 0 v s r (by simpa using hn) hs hw hr
  | succ n ih =>
    rcases lt_or_ge v 128 with hv | hv
    · exact hlast _ v s r hv hs hw hr
    · have hsplit := split_digit v s
      -- what is left is not zero, so there is room for it
      have hs7 : s + 7 < w := by
        have hpos : 1 ≤ v / 128 := Nat.div_pos hv (by decide)
        have hle : 2 ^ (s + 7) ≤ v / 128 * 2 ^ (s + 7) := Nat.le_mul_of_pos_left _ hpos
        exact (Nat.pow_lt_pow_iff_right (by decide)).1 (show 2 ^ (s + 7) < 2 ^ w by omega)
      rw [encode_of_le hv, List.cons_append, decodeFrom, if_neg (not_le.2 hs), if_pos (more_byte v),
        or_payload_more hw hr,
        ih (v / 128) (s + 7) _ (div_lt_of_lt hn) hs7 (by omega) (add_digit_lt hr v)]
      simp only [Option.map_some, List.length_cons, Nat.add_assoc, ← hsplit]

/-! ## Arbitrary bytes -/

/-- What decoding takes lies in the bytes. -/
theorem decodeFrom_bounds {w v n : ℕ} {bytes : List UInt8} {s r : ℕ}
    (h : decodeFrom w bytes s r = some (v, n)) : 1 ≤ n ∧ n ≤ bytes.length := by
  induction bytes generalizing s r v n with
  | nil => cases h
  | cons b bytes ih =>
    rw [decodeFrom] at h
    split at h
    · cases h
    split at h
    · obtain ⟨⟨v', m⟩, hm, heq⟩ := Option.map_eq_some_iff.1 h
      obtain ⟨-, hle⟩ := ih hm
      cases heq
      rw [List.length_cons]
      omega
    · cases h
      rw [List.length_cons]
      omega

/-- The payloads of all bytes taken have a place in the word. -/
theorem decodeFrom_fits {w v n : ℕ} {bytes : List UInt8} {s r : ℕ}
    (h : decodeFrom w bytes s r = some (v, n)) : s + 7 * n < w + 7 := by
  induction bytes generalizing s r v n with
  | nil => cases h
  | cons b bytes ih =>
    rw [decodeFrom] at h
    split at h
    · cases h
    split at h
    · obtain ⟨⟨v', m⟩, hm, heq⟩ := Option.map_eq_some_iff.1 h
      have hlt := ih hm
      cases heq
      omega
    · cases h
      omega

/-- **Decoding sees no further than it takes.** -/
theorem decodeFrom_append {w v n : ℕ} {bytes : List UInt8} (hn : n ≤ bytes.length) (rest : List UInt8)
    (s r : ℕ) : decodeFrom w (bytes ++ rest) s r = some (v, n) ↔ decodeFrom w bytes s r = some (v, n) := by
  induction bytes generalizing s r v n with
  | nil =>
    obtain rfl : n = 0 := Nat.le_zero.1 hn
    refine iff_of_false (fun h => ?_) fun h => by cases h
    exact absurd (decodeFrom_bounds h).1 (by decide)
  | cons b bytes ih =>
    rw [List.cons_append, decodeFrom, decodeFrom]
    split_ifs
    · rfl
    · simp only [Option.map_eq_some_iff]
      refine exists_congr fun p => and_congr_left fun hp => ?_
      obtain ⟨v', m⟩ := p
      obtain ⟨-, rfl⟩ := Prod.ext_iff.1 hp
      exact ih (Nat.succ_le_succ_iff.1 hn) _ _
    · rfl

end Leb128
